/-
Parents, children and ancestors of path names.

A path name is read from its end: slashes and single dots there say nothing (`dropIdle`), what
stands behind the last slash is the name, and the rest is the parent, which is shorter. So going
upward comes to an end, and the ancestors of a name are all that can be reached that way
(`mem_ancestors`).

A name is put behind the name of a directory by joining. What comes out is a child of the directory
exactly if the name is a single one: joining takes an absolute name for itself, goes upward with
two dots, and leaves names of several parts in directories below (`isChild_join_iff`).
-/
import CodeAtlas.Proofs.Files.Tree
import Mathlib.Data.List.TakeWhile

set_option autoImplicit false

namespace CodeAtlas.PathName

variable {t a b : List Char} {c : Char} {p q base dir o name : String}

/-! ## What says nothing at the end -/

theorem endsIdle_cons_iff :
    endsIdle (c :: t) = true ↔ (c = '/' ∧ t ≠ []) ∨ (c = '.' ∧ t.head? = some '/') := by
  unfold endsIdle
  split
  case h_1 heq =>
    obtain ⟨rfl, rfl⟩ := List.cons.inj heq
    simp
  case h_2 hroot heq =>
    obtain ⟨rfl, rfl⟩ := List.cons.inj heq
    exact iff_of_true rfl (.inl ⟨rfl, fun h => hroot (h ▸ rfl)⟩)
  case h_3 heq =>
    obtain ⟨rfl, rfl⟩ := List.cons.inj heq
    exact iff_of_true rfl (.inr ⟨rfl, rfl⟩)
  case h_4 hslash hdot =>
    refine iff_of_false Bool.false_ne_true ?_
    rintro (⟨rfl, -⟩ | ⟨rfl, hhead⟩)
    · exact hslash t rfl
    · obtain ⟨u, rfl⟩ := List.head?_eq_some_iff.mp hhead
      exact hdot u rfl

theorem dropIdle_of_not_endsIdle (h : endsIdle t = false) : dropIdle t = t := by
  cases t with
  | nil => rfl
  | cons c t => rw [dropIdle, h, if_neg Bool.false_ne_true]

theorem endsIdle_dropIdle (t : List Char) : endsIdle (dropIdle t) = false := by
  fun_induction dropIdle t with
  | case1 => rfl
  | case2 c t hidle ih => exact ih
  | case3 c t hidle => exact Bool.eq_false_iff.mpr hidle

theorem dropIdle_suffix (t : List Char) : dropIdle t <:+ t := by
  fun_induction dropIdle t with
  | case1 => exact List.suffix_rfl
  | case2 c t hidle ih => exact ih.trans (List.suffix_cons c t)
  | case3 => exact List.suffix_rfl

/-- What does not end in something idle stays when more is put in front of it, unless a slash or a
dot becomes idle by that. -/
theorem dropIdle_append (hslash : a.getLast? ≠ some '/') (hne : b ≠ []) (hb : endsIdle b = false) :
    dropIdle (a ++ '/' :: b) =
      if dropIdle a = [] ∨ dropIdle a = ['.'] then b else dropIdle a ++ '/' :: b := by
  have hone : dropIdle ('/' :: b) = b := by
    rw [dropIdle, if_pos (endsIdle_cons_iff.mpr (.inl ⟨rfl, hne⟩)), dropIdle_of_not_endsIdle hb]
  induction a with
  | nil => rw [List.nil_append, hone, dropIdle, if_pos (.inl rfl)]
  | cons c a ih =>
    by_cases hidle : endsIdle (c :: a) = true
    · have hmore : endsIdle (c :: (a ++ '/' :: b)) = true := by
        rw [endsIdle_cons_iff] at hidle ⊢
        refine hidle.imp (And.imp_right fun h => by simp) (And.imp_right fun h => ?_)
        rw [List.head?_append, h, Option.some_or]
      have hrest : a ≠ [] := by
        rintro rfl
        simp [endsIdle_cons_iff] at hidle
      rw [List.getLast?_cons_of_ne_nil hrest] at hslash
      rw [List.cons_append, dropIdle, if_pos hmore, dropIdle, if_pos hidle]
      exact ih hslash
    · have hkeep : dropIdle (c :: a) = c :: a :=
        dropIdle_of_not_endsIdle (Bool.eq_false_iff.mpr hidle)
      rw [hkeep]
      by_cases hdot : c :: a = ['.']
      · rw [hdot, List.singleton_append, if_pos (.inr rfl), dropIdle,
          if_pos (endsIdle_cons_iff.mpr (.inr ⟨rfl, rfl⟩)), hone]
      · rw [if_neg (by simp [hdot]), List.cons_append]
        refine dropIdle_of_not_endsIdle (Bool.eq_false_iff.mpr fun hmore => hidle ?_)
        rw [endsIdle_cons_iff] at hmore ⊢
        -- with nothing behind it the character is a slash or a dot, and it is neither
        cases a with
        | nil =>
          rcases hmore with ⟨rfl, -⟩ | ⟨rfl, -⟩
          · exact absurd rfl hslash
          · exact absurd rfl hdot
        | cons d a => exact hmore.imp (And.imp_right fun _ => List.cons_ne_nil d a) id

theorem getLast?_of_suffix (h : a <:+ b) (ha : a.getLast? = some c) : b.getLast? = some c := by
  obtain ⟨front, rfl⟩ := h
  rw [List.getLast?_append, ha, Option.some_or]

/-! ## The parent and the last part -/

/-- The name backwards, from where it says something. -/
def tail (p : String) : List Char := dropIdle p.toList.reverse

/-- The last part, backwards. -/
def last (p : String) : List Char := (tail p).takeWhile (· ≠ '/')

/-- What stands in front of the last part, backwards. -/
def upper (p : String) : List Char := dropIdle ((tail p).dropWhile (· ≠ '/'))

theorem parent?_eq_some_iff :
    parent? p = some q ↔ tail p ≠ [] ∧ tail p ≠ ['/'] ∧ upper p = q.toList.reverse := by
  have hread : ∀ l : List Char, String.ofList l.reverse = q ↔ l = q.toList.reverse := by
    intro l
    rw [← String.toList_inj, String.toList_ofList, List.reverse_eq_iff]
  dsimp only [parent?]
  split
  case h_1 h => exact iff_of_false (fun heq => nomatch heq) fun hne => hne.1 h
  case h_2 h => exact iff_of_false (fun heq => nomatch heq) fun hne => hne.2.1 h
  case h_3 hne hroot =>
    rw [Option.some.injEq, hread]
    exact ⟨fun h => ⟨hne, hroot, h⟩, fun h => h.2.2⟩

theorem fileName?_eq_ite (p : String) : fileName? p =
    if (last p).reverse = [] || (last p).reverse = ['.'] || (last p).reverse = ['.', '.'] then none
    else some (String.ofList (last p).reverse) := rfl

theorem isSome_fileName?_iff :
    (fileName? p).isSome = true ↔ last p ≠ [] ∧ last p ≠ ['.'] ∧ last p ≠ ['.', '.'] := by
  rw [fileName?_eq_ite]
  split
  case isTrue h =>
    refine iff_of_false (fun heq => nomatch heq) ?_
    rintro ⟨hnil, hdot, hdots⟩
    simp [List.reverse_eq_iff, hnil, hdot, hdots] at h
  case isFalse h =>
    simp only [List.reverse_eq_iff, Bool.or_eq_true, decide_eq_true_eq, not_or, and_assoc] at h
    exact iff_of_true rfl h

theorem fileName?_eq (h : (fileName? p).isSome = true) :
    fileName? p = some (String.ofList (last p).reverse) := by
  rw [fileName?_eq_ite] at h ⊢
  split at h
  case isTrue => cases h
  case isFalse hnamed => rw [if_neg hnamed]

theorem upper_suffix (p : String) : upper p <:+ p.toList.reverse :=
  ((dropIdle_suffix _).trans (List.dropWhile_suffix _)).trans (dropIdle_suffix _)

theorem prefix_of_parent? (h : parent? p = some q) : q.toList <+: p.toList := by
  rw [← List.reverse_suffix, ← (parent?_eq_some_iff.mp h).2.2]
  exact upper_suffix p

/-- What stands in front of the last part is shorter. -/
theorem length_upper_lt (hne : tail p ≠ []) (hroot : tail p ≠ ['/']) :
    (upper p).length < (tail p).length := by
  have hidle : endsIdle (tail p) = false := endsIdle_dropIdle _
  have hdrop := (dropIdle_suffix ((tail p).dropWhile (· ≠ '/'))).length_le
  have hshort : ((tail p).dropWhile (· ≠ '/')).length < (tail p).length := by
    cases htail : tail p with
    | nil => exact absurd htail hne
    | cons c t =>
      rw [htail] at hidle hroot
      -- a slash at the end would be idle
      have hc : c ≠ '/' := by
        rintro rfl
        have ht : t ≠ [] := fun h => hroot (h ▸ rfl)
        rw [endsIdle_cons_iff.mpr (.inl ⟨rfl, ht⟩)] at hidle
        cases hidle
      rw [List.dropWhile_cons_of_pos (by simpa using hc)]
      exact Nat.lt_succ_of_le (List.dropWhile_suffix _).length_le
  exact Nat.lt_of_le_of_lt hdrop hshort

theorem length_lt_of_parent? (h : parent? p = some q) : q.length < p.length := by
  obtain ⟨hne, hroot, hupper⟩ := parent?_eq_some_iff.mp h
  have hq : (upper p).length = q.length := by
    rw [hupper, List.length_reverse, String.length_toList]
  have hp : (tail p).length ≤ p.length := by
    have hsuffix := (dropIdle_suffix p.toList.reverse).length_le
    rwa [List.length_reverse, String.length_toList] at hsuffix
  have hshort := length_upper_lt hne hroot
  omega

/-! ## Going upward -/

theorem length_lt_of_above (h : Above p q) : q.length < p.length := by
  induction h with
  | single h => exact length_lt_of_parent? h
  | tail _ h ih => exact Nat.lt_trans (length_lt_of_parent? h) ih

/-- Above a place stand its parent and what is above that. -/
theorem above_iff_of_parent? (h : parent? p = some q) : Above p dir ↔ dir = q ∨ Above q dir := by
  constructor
  · intro habove
    obtain ⟨q', hone, hmore⟩ := Relation.TransGen.head'_iff.mp habove
    obtain rfl := Option.some.inj (h.symm.trans hone)
    exact Relation.reflTransGen_iff_eq_or_transGen.mp hmore
  · rintro (rfl | habove)
    · exact .single h
    · exact .head h habove

theorem not_above_of_parent?_eq_none (h : parent? p = none) : ¬ Above p q := by
  intro habove
  obtain ⟨q', hone, -⟩ := Relation.TransGen.head'_iff.mp habove
  rw [h] at hone
  cases hone

theorem mem_ancestorsFrom {fuel : Nat} (h : p.length ≤ fuel) :
    q ∈ ancestorsFrom fuel p ↔ q = p ∨ Above p q := by
  -- a parent is shorter, so what is left of the fuel is enough for it
  induction fuel generalizing p with
  | zero =>
    have hnone : parent? p = none := by
      cases hparent : parent? p with
      | none => rfl
      | some q' =>
        have := length_lt_of_parent? hparent
        omega
    rw [ancestorsFrom, List.mem_singleton, or_iff_left (not_above_of_parent?_eq_none hnone)]
  | succ fuel ih =>
    unfold ancestorsFrom
    cases hparent : parent? p with
    | none =>
      rw [List.mem_singleton, or_iff_left (not_above_of_parent?_eq_none hparent)]
    | some q' =>
      have hshort := length_lt_of_parent? hparent
      rw [List.mem_cons, ih (by omega), above_iff_of_parent? hparent]

/-- The ancestors of a name are the name and all that is above it. -/
theorem mem_ancestors : q ∈ ancestors p ↔ q = p ∨ Above p q := mem_ancestorsFrom (Nat.le_refl _)

/-- The first of a place and those above it, from the inside out, of which something holds. -/
structure IsNearest (holds : String → Prop) (start found : String) : Prop where
  reached : found = start ∨ Above start found
  fits : holds found
  nearest : ∀ dir, dir = start ∨ Above start dir → Above dir found → ¬ holds dir

theorem isNearest_self {holds : String → Prop} (h : holds p) : IsNearest holds p p where
  reached := .inl rfl
  fits := h
  nearest dir hdir habove := by
    have hshort := length_lt_of_above habove
    rcases hdir with rfl | hdir
    · omega
    · have := length_lt_of_above hdir
      omega

theorem isNearest_of_parent? {holds : String → Prop} (hparent : parent? p = some q)
    (hself : ¬ holds p) (h : IsNearest holds q dir) : IsNearest holds p dir where
  reached := .inr ((above_iff_of_parent? hparent).mpr h.reached)
  fits := h.fits
  nearest place hplace habove := by
    rcases hplace with rfl | hplace
    · exact hself
    · exact h.nearest place ((above_iff_of_parent? hparent).mp hplace) habove

theorem isNearest_of_find? {f : String → Bool} {fuel : Nat}
    (h : (ancestorsFrom fuel p).find? f = some q) : IsNearest (fun dir => f dir = true) p q := by
  induction fuel generalizing p with
  | zero =>
    obtain rfl := List.mem_singleton.mp (List.mem_of_find?_eq_some h)
    exact isNearest_self (List.find?_some h)
  | succ fuel ih =>
    unfold ancestorsFrom at h
    cases hparent : parent? p with
    | none =>
      rw [hparent] at h
      obtain rfl := List.mem_singleton.mp (List.mem_of_find?_eq_some h)
      exact isNearest_self (List.find?_some h)
    | some q' =>
      rw [hparent] at h
      by_cases hself : f p = true
      · rw [List.find?_cons_of_pos hself] at h
        obtain rfl := Option.some.inj h
        exact isNearest_self hself
      · rw [List.find?_cons_of_neg hself] at h
        exact isNearest_of_parent? hparent hself (ih h)

/-! ## Children -/

/-- Does the name say what stands in the directory, by a last part that does not go upward? -/
structure IsChild (dir p : String) : Prop where
  parent : parent? p = some dir
  named : (fileName? p).isSome = true

/-- Is it a name of one part, perhaps with the current directory in front? -/
structure IsSingle (o : String) : Prop where
  alone : parent? o = some "" ∨ parent? o = some "."
  named : (fileName? o).isSome = true

/-- Does the name say something up to its last character? -/
structure IsSettled (base : String) : Prop where
  ne_nil : base.toList.reverse ≠ []
  slash : base.toList.getLast? ≠ some '/'
  idle : endsIdle base.toList.reverse = false

theorem isSettled_of_getLast? (h : base.toList.getLast? = some c) (hslash : c ≠ '/')
    (hdot : c ≠ '.') : IsSettled base := by
  obtain ⟨front, hfront⟩ := List.getLast?_eq_some_iff.mp h
  have hreverse : base.toList.reverse = c :: front.reverse := by
    rw [hfront, List.reverse_concat]
  refine ⟨?_, ?_, ?_⟩
  · rw [hreverse]
    exact List.cons_ne_nil _ _
  · rw [h]
    exact fun heq => hslash (Option.some.inj heq)
  · rw [hreverse, Bool.eq_false_iff]
    intro hidle
    rcases endsIdle_cons_iff.mp hidle with ⟨heq, -⟩ | ⟨heq, -⟩
    · exact hslash heq
    · exact hdot heq

theorem takeWhile_append_slash (a b : List Char) :
    (a ++ '/' :: b).takeWhile (· ≠ '/') = a.takeWhile (· ≠ '/') := by
  induction a with
  | nil => rfl
  | cons c a ih => rw [List.cons_append, List.takeWhile_cons, List.takeWhile_cons, ih]

theorem dropWhile_append_slash (a b : List Char) :
    (a ++ '/' :: b).dropWhile (· ≠ '/') = a.dropWhile (· ≠ '/') ++ '/' :: b := by
  induction a with
  | nil => rfl
  | cons c a ih =>
    rw [List.cons_append, List.dropWhile_cons, List.dropWhile_cons, ih]
    split <;> rfl

section

variable (hbase : IsSettled base) (ho : isAbsolute o = false)

include hbase ho

theorem toList_join : (join base o).toList = base.toList ++ '/' :: o.toList := by
  have hempty : base.isEmpty = false := by
    rw [Bool.eq_false_iff]
    intro h
    rw [String.isEmpty_iff] at h
    exact hbase.ne_nil (by rw [h]; rfl)
  rw [join, ho, hempty, Bool.false_or, if_neg Bool.false_ne_true, if_neg hbase.slash]
  simp

theorem tail_join :
    tail (join base o) = if tail o = [] ∨ tail o = ['.'] then base.toList.reverse
      else tail o ++ '/' :: base.toList.reverse := by
  have hslash : o.toList.reverse.getLast? ≠ some '/' := by
    rw [List.getLast?_reverse]
    exact of_decide_eq_false ho
  rw [tail, toList_join hbase ho, List.reverse_append, List.reverse_cons, List.append_assoc,
    List.singleton_append]
  exact dropIdle_append hslash hbase.ne_nil hbase.idle

theorem last_join (h : ¬ (tail o = [] ∨ tail o = ['.'])) : last (join base o) = last o := by
  rw [last, tail_join hbase ho, if_neg h, takeWhile_append_slash, last]

theorem upper_join (h : ¬ (tail o = [] ∨ tail o = ['.'])) :
    upper (join base o) = if upper o = [] ∨ upper o = ['.'] then base.toList.reverse
      else upper o ++ '/' :: base.toList.reverse := by
  have hslash : ((tail o).dropWhile (· ≠ '/')).getLast? ≠ some '/' := by
    intro hlast
    have hsuffix := (List.dropWhile_suffix (l := tail o) (· ≠ '/')).trans (dropIdle_suffix _)
    have hfirst := getLast?_of_suffix hsuffix hlast
    rw [List.getLast?_reverse] at hfirst
    exact of_decide_eq_false ho hfirst
  rw [upper, tail_join hbase ho, if_neg h, dropWhile_append_slash]
  exact dropIdle_append hslash hbase.ne_nil hbase.idle

/-- Where the name that is joined says nothing, it leads to no child. -/
theorem not_isChild_join (h : tail o = [] ∨ tail o = ['.']) : ¬ IsChild base (join base o) := by
  intro hchild
  obtain ⟨hne, hroot, hupper⟩ := parent?_eq_some_iff.mp hchild.parent
  have hshort := length_upper_lt hne hroot
  rw [hupper, tail_join hbase ho, if_pos h] at hshort
  exact Nat.lt_irrefl _ hshort

/-- The base is the parent if nothing stands in front of the last part of what is joined. -/
theorem parent?_join_iff (h : ¬ (tail o = [] ∨ tail o = ['.'])) :
    parent? (join base o) = some base ↔ upper o = [] ∨ upper o = ['.'] := by
  have htail := tail_join hbase ho
  rw [if_neg h] at htail
  have hne : tail (join base o) ≠ [] := by
    rw [htail]
    simp
  have hroot : tail (join base o) ≠ ['/'] := by
    rw [htail]
    intro hslash
    have hlength := congrArg List.length hslash
    have hpos := List.length_pos_of_ne_nil (not_or.mp h).1
    rw [List.length_append, List.length_cons, List.length_singleton] at hlength
    omega
  rw [parent?_eq_some_iff, and_iff_right hne, and_iff_right hroot, upper_join hbase ho h]
  split
  case isTrue hupper => exact iff_of_true rfl hupper
  case isFalse hupper =>
    -- more in front of the base is longer than the base
    refine iff_of_false (fun heq => ?_) hupper
    have hlength := congrArg List.length heq
    rw [List.length_append, List.length_cons] at hlength
    omega

omit hbase in
/-- A relative name has one part if nothing stands in front of the last one. -/
theorem parent?_eq_here_iff (h : tail o ≠ []) :
    parent? o = some "" ∨ parent? o = some "." ↔ upper o = [] ∨ upper o = ['.'] := by
  have hroot : tail o ≠ ['/'] := by
    intro hslash
    have hfirst := getLast?_of_suffix (dropIdle_suffix o.toList.reverse)
      (show (tail o).getLast? = some '/' by rw [hslash]; rfl)
    rw [List.getLast?_reverse] at hfirst
    exact of_decide_eq_false ho hfirst
  rw [parent?_eq_some_iff, parent?_eq_some_iff, and_iff_right h, and_iff_right hroot,
    and_iff_right h, and_iff_right hroot]
  rfl

/-- What is joined to a settled name is a child of it exactly if it is a single name. -/
theorem isChild_join_iff : IsChild base (join base o) ↔ IsSingle o := by
  by_cases hidle : tail o = [] ∨ tail o = ['.']
  · refine iff_of_false (not_isChild_join hbase ho hidle) fun h => ?_
    have hnamed := isSome_fileName?_iff.mp h.named
    rw [last] at hnamed
    rcases hidle with hnil | hdot
    · exact hnamed.1 (by rw [hnil]; rfl)
    · exact hnamed.2.1 (by rw [hdot]; rfl)
  · have hnamed : (fileName? (join base o)).isSome = true ↔ (fileName? o).isSome = true := by
      rw [isSome_fileName?_iff, isSome_fileName?_iff, last_join hbase ho hidle]
    have hparent := parent?_join_iff hbase ho hidle
    have halone := parent?_eq_here_iff ho (not_or.mp hidle).1
    constructor
    · rintro ⟨hchild, hname⟩
      exact ⟨halone.mpr (hparent.mp hchild), hnamed.mp hname⟩
    · rintro ⟨hone, hname⟩
      exact ⟨hparent.mpr (halone.mp hone), hnamed.mpr hname⟩

end

theorem isSingle_of_noSlash (hslash : '/' ∉ o.toList) (hne : o ≠ "") (hdot : o ≠ ".")
    (hdots : o ≠ "..") : IsSingle o := by
  -- a path is taken apart from behind, so the name is turned around
  have hmem : ∀ c ∈ o.toList.reverse, c ≠ '/' := by
    rintro c hc rfl
    exact hslash (List.mem_reverse.mp hc)
  have hidle : endsIdle o.toList.reverse = false := by
    cases hrev : o.toList.reverse with
    | nil => rfl
    | cons c t =>
      rw [hrev] at hmem
      rw [Bool.eq_false_iff]
      intro h
      rcases endsIdle_cons_iff.mp h with ⟨hc, -⟩ | ⟨-, hhead⟩
      · exact hmem c List.mem_cons_self hc
      · exact hmem '/' (List.mem_cons_of_mem c (List.mem_of_head? hhead)) rfl
  have htail : tail o = o.toList.reverse := dropIdle_of_not_endsIdle hidle
  have hall : ∀ c ∈ o.toList.reverse, decide (c ≠ '/') = true := fun c hc =>
    decide_eq_true (hmem c hc)
  have hback : ∀ s : String, o ≠ s → o.toList.reverse ≠ s.toList.reverse := fun s h heq =>
    h (String.toList_inj.mp (List.reverse_inj.mp heq))
  refine ⟨.inl (parent?_eq_some_iff.mpr ⟨?_, ?_, ?_⟩), isSome_fileName?_iff.mpr ?_⟩
  · rw [htail]
    exact hback "" hne
  · rw [htail]
    intro h
    exact hmem '/' (h ▸ List.mem_singleton_self '/') rfl
  · rw [upper, htail, List.dropWhile_eq_nil_iff.mpr hall]
    rfl
  · rw [last, htail, List.takeWhile_eq_self_iff.mpr hall]
    exact ⟨hback "" hne, hback "." hdot, hback ".." hdots⟩

theorem join_of_relative (hne : base ≠ "") (hslash : base.toList.getLast? ≠ some '/')
    (ho : isAbsolute o = false) : join base o = base ++ "/" ++ o := by
  have hempty : base.isEmpty = false := by
    rw [Bool.eq_false_iff]
    exact fun h => hne (String.isEmpty_iff.mp h)
  rw [join, ho, hempty, Bool.false_or, if_neg Bool.false_ne_true, if_neg hslash]

theorem getLast?_join (base : String) (hne : o ≠ "") :
    (join base o).toList.getLast? = o.toList.getLast? := by
  have hnil : o.toList ≠ [] := fun h => hne (String.toList_inj.mp h)
  unfold join
  split
  · rfl
  · split
    · rw [String.toList_append, List.getLast?_append_of_ne_nil _ hnil]
    · rw [String.toList_append, List.getLast?_append_of_ne_nil _ hnil]

/-- What is joined one after the other can be joined first. -/
theorem join_join (base : String) (hne : p ≠ "") (hslash : p.toList.getLast? ≠ some '/')
    (ho : isAbsolute o = false) : join (join base p) o = join base (p ++ "/" ++ o) := by
  have hnil : p.toList ≠ [] := by
    intro h
    exact hne (String.toList_inj.mp h)
  have hsame : isAbsolute (p ++ "/" ++ o) = isAbsolute p := by
    rw [isAbsolute, isAbsolute, String.toList_append, String.toList_append, List.append_assoc,
      List.head?_append_of_ne_nil _ hnil]
  have hlast : ∀ front : String, (front ++ p).toList.getLast? ≠ some '/' := by
    intro front
    rwa [String.toList_append, List.getLast?_append_of_ne_nil _ hnil]
  have hfilled : ∀ front : String, front ++ p ≠ "" := by
    intro front h
    have hlist := congrArg String.toList h
    rw [String.toList_append] at hlist
    exact hnil (List.append_eq_nil_iff.mp hlist).2
  -- the base is dropped, is continued as it stands, or gets a slash first
  by_cases hown : (isAbsolute p || base.isEmpty) = true
  · have hjoin : join base p = p := by rw [join, if_pos hown]
    rw [hjoin, join_of_relative hne hslash ho, join, hsame, if_pos hown]
  · by_cases hend : base.toList.getLast? = some '/'
    · have hjoin : join base p = base ++ p := by rw [join, if_neg hown, if_pos hend]
      rw [hjoin, join_of_relative (hfilled base) (hlast base) ho, join, hsame, if_neg hown,
        if_pos hend, String.append_assoc, String.append_assoc, String.append_assoc]
    · have hjoin : join base p = base ++ "/" ++ p := by rw [join, if_neg hown, if_neg hend]
      rw [hjoin, join_of_relative (hfilled _) (hlast _) ho, join, hsame, if_neg hown, if_neg hend]
      simp only [String.append_assoc]

/-! ## The parts on the way -/

/-- The parts between slashes that say something. -/
def steps (t : List Char) : List (List Char) :=
  (t.splitOn '/').filter fun x => !x.isEmpty && x ≠ ['.']

theorem steps_append_slash (a b : List Char) : steps (a ++ '/' :: b) = steps a ++ steps b := by
  have hsplit : (a ++ '/' :: b).splitOn '/' = a.splitOn '/' ++ b.splitOn '/' :=
    List.splitOnP_append_cons a b rfl
  rw [steps, hsplit, List.filter_append]
  rfl

theorem steps_of_notMem (h : '/' ∉ t) (hne : t ≠ []) (hdot : t ≠ ['.']) : steps t = [t] := by
  have hsplit : t.splitOn '/' = [t] := List.splitOnP_eq_singleton fun c hc => by
    rw [beq_eq_false_iff_ne]
    rintro rfl
    exact h hc
  rw [steps, hsplit]
  simp [hne, hdot]

/-- A slash at the end is no step. -/
theorem steps_reverse_slash (t : List Char) : steps ('/' :: t).reverse = steps t.reverse := by
  rw [List.reverse_cons, steps_append_slash]
  exact List.append_nil _

theorem steps_dropIdle (t : List Char) : steps (dropIdle t).reverse = steps t.reverse := by
  fun_induction dropIdle t with
  | case1 => rfl
  | case2 c t hidle ih =>
    rw [ih]
    rcases endsIdle_cons_iff.mp hidle with ⟨rfl, -⟩ | ⟨rfl, hhead⟩
    · exact (steps_reverse_slash t).symm
    · -- a dot behind a slash
      obtain ⟨u, rfl⟩ := List.head?_eq_some_iff.mp hhead
      rw [steps_reverse_slash, List.reverse_cons, List.reverse_cons, List.append_assoc, List.singleton_append,
        steps_append_slash]
      exact (List.append_nil _).symm
  | case3 => rfl

/-- The steps of a name that is read from its end are those in front of the last slash, and what
stands behind it. -/
theorem steps_reverse (t : List Char) : steps t.reverse =
    steps (t.dropWhile (· ≠ '/')).reverse ++ steps (t.takeWhile (· ≠ '/')).reverse := by
  have hcut : t.takeWhile (· ≠ '/') ++ t.dropWhile (· ≠ '/') = t :=
    List.takeWhile_append_dropWhile
  cases hrest : t.dropWhile (· ≠ '/') with
  | nil =>
    rw [hrest, List.append_nil] at hcut
    rw [hcut]
    rfl
  | cons c rest =>
    obtain rfl : c = '/' := by
      have hhead := List.head?_dropWhile_not (· ≠ '/') t
      rw [hrest] at hhead
      simpa using hhead
    conv_lhs => rw [← hcut, hrest, List.reverse_append, List.reverse_cons, List.append_assoc,
      List.singleton_append, steps_append_slash]
    rw [steps_reverse_slash]

/-- A child has the steps of its directory and its name behind them. -/
theorem steps_of_isChild (h : IsChild dir p) :
    steps p.toList = steps dir.toList ++ [(last p).reverse] := by
  obtain ⟨-, -, hupper⟩ := parent?_eq_some_iff.mp h.parent
  obtain ⟨hnil, hdot, -⟩ := isSome_fileName?_iff.mp h.named
  have hname : steps (last p).reverse = [(last p).reverse] := by
    refine steps_of_notMem (fun hmem => ?_) (by simpa using hnil)
      (by simpa [List.reverse_eq_iff] using hdot)
    rw [List.mem_reverse, last] at hmem
    have hfree := List.mem_takeWhile_imp hmem
    simp at hfree
  calc steps p.toList
    _ = steps (tail p).reverse := by rw [tail, steps_dropIdle, List.reverse_reverse]
    _ = steps ((tail p).dropWhile (· ≠ '/')).reverse ++ steps (last p).reverse := steps_reverse _
    _ = steps (upper p).reverse ++ [(last p).reverse] := by rw [hname, upper, steps_dropIdle]
    _ = steps dir.toList ++ [(last p).reverse] := by rw [hupper, List.reverse_reverse]

theorem filter_parts (p : String) :
    (parts p).filter (· ≠ ".") = (steps p.toList).map String.ofList := by
  have hdot : ∀ x : List Char, String.ofList x = "." ↔ x = ['.'] := by
    intro x
    rw [← String.toList_inj, String.toList_ofList]
    rfl
  rw [parts, List.filter_map, List.filter_filter, steps]
  congr 1
  refine List.filter_congr fun x _ => ?_
  simp [hdot, Bool.and_comm]

end CodeAtlas.PathName

namespace CodeAtlas.Tree

open PathName

variable {t : Tree} {d dir : Place} {name p v : String}

/-- Single dots lead nowhere. -/
theorem descend_filter (t : Tree) (d : Place) (parts : List String) :
    t.descend d (parts.filter (· ≠ ".")) = t.descend d parts := by
  induction parts generalizing d with
  | nil => rfl
  | cons part parts ih =>
    by_cases hdot : part = "."
    · subst hdot
      rw [List.filter_cons_of_neg (by simp), ih, descend, if_pos rfl]
    · rw [List.filter_cons_of_pos (by simpa using hdot), descend, descend, if_neg hdot, if_neg hdot,
        ih]
      split
      · rfl
      · split
        · rfl
        · split
          · rfl
          · rfl
          · exact ih _

theorem descend_append {front back : List String} :
    t.descend dir (front ++ back) = .ok d ↔
      ∃ d', t.descend dir front = .ok d' ∧ t.descend d' back = .ok d := by
  induction front generalizing dir with
  | nil => simp [descend]
  | cons part front ih =>
    rw [List.cons_append, descend, descend]
    split
    · exact ih
    · split
      · exact ih
      · split
        · simp
        · split
          · simp
          · simp
          · exact ih

/-- A path name of which all parts lead through directories leads to a directory. -/
theorem find_of_descend (hname : nameFault? v = none) (h : t.descend [] (parts v) = .ok d) :
    t.find v = .ok (d, .dir) := by
  rcases List.eq_nil_or_concat (parts v) with hnil | ⟨front, last, hparts⟩
  · rw [hnil] at h
    cases h
    refine find_here (target_eq_ok.mpr ⟨hname, [], ?_, ?_⟩)
    · rw [hnil]
      rfl
    · rw [hnil]
      rfl
  · rw [List.concat_eq_append] at hparts
    rw [hparts] at h
    -- the last part is taken by another reader, which asks for the same
    obtain ⟨d', hfront, hlast⟩ := descend_append.mp h
    have htarget : ∀ {x}, lastTarget d' (some last) = .ok x → t.target v = .ok x := fun hx =>
      target_eq_ok.mpr ⟨hname, d', by rwa [hparts, List.dropLast_concat],
        by rwa [hparts, List.getLast?_concat]⟩
    rw [descend] at hlast
    split at hlast
    case isTrue hdot =>
      cases hlast
      exact find_here (htarget (by rw [lastTarget, if_pos hdot]))
    case isFalse hdot =>
      split at hlast
      case isTrue hdots =>
        cases hlast
        exact find_here (htarget (by rw [lastTarget, if_neg hdot, if_pos hdots]))
      case isFalse hdots =>
        split at hlast
        case isTrue => cases hlast
        case isFalse hshort =>
          split at hlast
          case h_1 => cases hlast
          case h_2 => cases hlast
          case h_3 hthere =>
            cases hlast
            refine find_dir (htarget ?_) hthere
            rw [lastTarget, if_neg hdot, if_neg hdots, if_neg hshort]

theorem nameFault?_of_isPrefix (hne : v ≠ "") (hstart : v.toList <+: p.toList)
    (h : nameFault? p = none) : nameFault? v = none := by
  obtain ⟨rest, hrest⟩ := hstart
  have hp : p = v ++ String.ofList rest := by
    rw [← String.toList_inj, String.toList_append, String.toList_ofList, hrest]
  have hsize : v.utf8ByteSize ≤ p.utf8ByteSize := by
    rw [hp, String.utf8ByteSize_append]
    exact Nat.le_add_right _ _
  -- each fault of the beginning is one of the whole name, and to be empty is excluded
  unfold nameFault? at h ⊢
  split at h
  case isTrue => cases h
  case isFalse hzero =>
    split at h
    case isTrue => cases h
    case isFalse =>
      split at h
      case isTrue => cases h
      case isFalse hshort =>
        rw [if_neg, if_neg, if_neg]
        · omega
        · exact fun hempty => hne (String.isEmpty_iff.mp hempty)
        · intro hmem
          rw [List.contains_iff_mem] at hmem hzero
          exact hzero (hrest ▸ List.mem_append_left rest hmem)

theorem lastTarget_eq_named {last : Option String}
    (h : lastTarget d last = .ok (.named dir name)) : d = dir ∧ last = some name ∧ name ≠ "." := by
  refine ⟨lastTarget_named h, ?_⟩
  cases last with
  | none => cases h
  | some last =>
    rw [lastTarget] at h
    split at h
    case isTrue => cases h
    case isFalse hdot =>
      split at h
      case isTrue => cases h
      case isFalse =>
        split at h
        case isTrue => cases h
        case isFalse =>
          cases h
          exact ⟨rfl, hdot⟩

/-- The child of a directory stands in the directory, under its last part. -/
theorem find_parent_of_named (hchild : IsChild v p) (hne : v ≠ "")
    (h : t.target p = .ok (.named d name)) : t.find v = .ok (d, .dir) ∧ fileName? p = some name := by
  obtain ⟨hname, d', hd, hlast⟩ := target_eq_ok.mp h
  obtain ⟨rfl, hlast, hdot⟩ := lastTarget_eq_named hlast
  obtain ⟨front, hparts⟩ := List.getLast?_eq_some_iff.mp hlast
  rw [hparts, List.dropLast_concat] at hd
  -- up to single dots the two names have the same parts, but for the last one
  have hsteps : front.filter (· ≠ ".") ++ [name] =
      (parts v).filter (· ≠ ".") ++ [String.ofList (last p).reverse] := by
    have hfilter : front.filter (· ≠ ".") ++ [name] = (parts p).filter (· ≠ ".") := by
      rw [hparts, List.filter_append, List.filter_cons_of_pos (by simpa using hdot),
        List.filter_nil]
    rw [hfilter, filter_parts, filter_parts, steps_of_isChild hchild, List.map_append,
      List.map_singleton]
  obtain ⟨hfront, hsame⟩ := List.append_inj' hsteps rfl
  constructor
  · refine find_of_descend (nameFault?_of_isPrefix hne (prefix_of_parent? hchild.parent) hname) ?_
    rw [← descend_filter, ← hfront, descend_filter]
    exact hd
  · rw [fileName?_eq hchild.named, (List.cons.inj hsame).1]

end CodeAtlas.Tree
