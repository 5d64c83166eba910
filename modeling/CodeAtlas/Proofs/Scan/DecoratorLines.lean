/-
Decorators as they are written.

A class or a method may have lines in front of it that are decorators, the further lines of their
arguments, comments and blank lines. Comments and blank lines are set apart first (`codeLines`), by
a flag for the comment that goes on and without the state of a scan.

Of the lines of code that are left, only curly brackets count. A decorator is held if all its
further lines stand inside of brackets that it opened itself. Of decorators that are held, no line
but their first ones stands outside of brackets (`KeepsPending.of_forall_held`); of a decorator that
is not held, some further line does, and the lines in front of it do not tell the two apart
(`Decorator.exists_of_not_held`).
-/
import CodeAtlas.Proofs.Header.Export
import CodeAtlas.Proofs.Scan.Depth
import CodeAtlas.Proofs.Scan.Taken

set_option autoImplicit false

namespace CodeAtlas

open Pattern

namespace Brace

/-! ## Lines of code -/

/-- The line is blank or stands in a comment; `inside` says whether a comment goes on from the
lines in front. -/
def isSilent (inside : Bool) (l : Line) : Bool :=
  inside || Text.starts "/*" (Text.trim l) || Text.starts "//" (Text.trim l) ||
    (Text.trim l).isEmpty

/-- Does a comment go on behind the line? -/
def insideBehind (inside : Bool) (l : Line) : Bool :=
  (inside || Text.starts "/*" (Text.trim l)) && !DocBuffer.closes (Text.trim l)

/-- Does a comment go on behind the lines? -/
def insideAfter (inside : Bool) (ls : List Line) : Bool := ls.foldl insideBehind inside

/-- The lines without comments and blank lines. -/
def codeLines : Bool → List Line → List Line
  | _, [] => []
  | inside, l :: ls =>
    if isSilent inside l then codeLines (insideBehind inside l) ls
    else l :: codeLines (insideBehind inside l) ls

section

variable {inside : Bool} {l : Line} {ls : List Line}

theorem codeLines_of_isSilent (h : isSilent inside l = true) :
    codeLines inside (l :: ls) = codeLines (insideBehind inside l) ls := by
  rw [codeLines, if_pos h]

/-- No comment is open at a line of code, and none begins. -/
theorem of_not_isSilent (h : isSilent inside l = false) : inside = false ∧
    Text.starts "/*" (Text.trim l) = false ∧ Text.starts "//" (Text.trim l) = false ∧
    Text.trim l ≠ [] := by
  simp only [isSilent, Bool.or_eq_false_iff, List.isEmpty_eq_false_iff] at h
  obtain ⟨⟨⟨hinside, hblock⟩, hslashes⟩, hblank⟩ := h
  exact ⟨hinside, hblock, hslashes, hblank⟩

theorem insideBehind_of_code (h : isSilent inside l = false) : insideBehind inside l = false := by
  obtain ⟨rfl, hblock, -, -⟩ := of_not_isSilent h
  rw [insideBehind, hblock]
  rfl

theorem codeLines_of_code (h : isSilent inside l = false) :
    codeLines inside (l :: ls) = l :: codeLines false ls := by
  rw [codeLines, h, insideBehind_of_code h]
  rfl

theorem codeLines_sublist (inside : Bool) (ls : List Line) : (codeLines inside ls).Sublist ls := by
  induction ls generalizing inside with
  | nil => exact List.Sublist.refl _
  | cons l ls ih =>
    rw [codeLines]
    split
    · exact (ih _).cons l
    · exact (ih _).cons_cons l

/-- Where the lines of code are taken apart in front of one of them, so are the lines. -/
theorem exists_of_codeLines_eq_append {front back : List Line}
    (h : codeLines inside ls = front ++ l :: back) : ∃ xs ys, ls = xs ++ l :: ys ∧
      codeLines inside xs = front ∧ isSilent (insideAfter inside xs) l = false := by
  induction ls generalizing inside front with
  | nil => simp [codeLines] at h
  | cons k ls ih =>
    cases hk : isSilent inside k with
    | true =>
      rw [codeLines_of_isSilent hk] at h
      obtain ⟨xs, ys, rfl, hfront, hcode⟩ := ih h
      exact ⟨k :: xs, ys, rfl, by rw [codeLines_of_isSilent hk, hfront], hcode⟩
    | false =>
      rw [codeLines_of_code hk] at h
      cases front with
      | nil =>
        obtain ⟨rfl, -⟩ := List.cons.inj h
        exact ⟨[], ls, rfl, rfl, hk⟩
      | cons f front =>
        obtain ⟨rfl, htail⟩ := List.cons.inj h
        obtain ⟨xs, ys, rfl, hfront, hcode⟩ := ih htail
        refine ⟨k :: xs, ys, rfl, by rw [codeLines_of_code hk, hfront], ?_⟩
        rw [insideAfter, List.foldl_cons, insideBehind_of_code hk]
        exact hcode

end

/-! ## Decorators -/

/-- A decorator as it is written: on its first line the mark and its name, with what stands behind
the name there, and the further lines of its arguments. It opens the curly brackets that it
closes. -/
structure Decorator where
  name : List Char
  rest : List Char
  first : Line
  further : List Line
  isName : IsNameOf Text.isNameStart Text.isNameChar name
  marked : Text.trim first = '@' :: (name ++ rest)
  opened : ∀ k ≤ further.length, 0 ≤ netDelta (first :: further.take k)
  closed : netDelta (first :: further) = 0

namespace Decorator

variable (d : Decorator)

def lines : List Line := d.first :: d.further

/-- What is recorded of the decorator: its name, with what follows on its line. -/
def entry : String := String.ofList (d.name ++ d.rest)

/-- All further lines stand inside of a bracket of the decorator. -/
def Held : Prop := ∀ k < d.further.length, 0 < netDelta (d.first :: d.further.take k)

instance : Decidable d.Held := inferInstanceAs (Decidable (∀ k < d.further.length, _))

theorem trimmedText_eq : trimmedText (d.name ++ d.rest) = d.entry := by
  obtain ⟨c, u, hname, hc, -⟩ := d.isName
  have hblack := Text.isBlankChar_of_isNameChar (Text.isNameChar_of_isNameStart hc)
  have hend := Text.trimEnd_trim d.first
  have hsplit : '@' :: (d.name ++ d.rest) = ['@'] ++ c :: (u ++ d.rest) := by rw [hname]; rfl
  -- the line is trimmed, so its text ends where the line ends
  rw [d.marked, hsplit, Text.trimEnd_append_cons hblack, List.append_cancel_left_eq] at hend
  have htrim : Text.trim ([] ++ c :: (u ++ d.rest)) = [] ++ c :: Text.trimEnd (u ++ d.rest) :=
    Text.trim_append_cons rfl hblack _
  rw [hend] at htrim
  have htext : d.name ++ d.rest = c :: (u ++ d.rest) := by rw [hname]; rfl
  rw [trimmedText, entry, htext]
  exact congrArg String.ofList htrim

theorem isMarked_first : isMarked d.first = true := by
  rw [isMarked, d.marked]
  rfl

theorem delta_nonneg : 0 ≤ braceDelta d.first := by
  have h := d.opened 0 (Nat.zero_le _)
  rwa [List.take_zero, netDelta_cons, netDelta_nil, Int.add_zero] at h

end Decorator

/-! ## Lines that keep what is pending -/

/-- The lines of code lead from one number of open brackets to another, no line that stands outside
of brackets is other than a decorator, and the texts are those of these decorators. -/
inductive KeepsPending : Int → List Line → Int → List String → Prop where
  | nil (height : Int) : KeepsPending height [] height []
  | decorator {l : Line} {t : List Char} {ls : List Line} {height : Int} {texts : List String} :
      Text.trim l = '@' :: t → 0 ≤ braceDelta l → KeepsPending (braceDelta l) ls height texts →
      KeepsPending 0 (l :: ls) height (trimmedText t :: texts)
  | argument {l : Line} {ls : List Line} {height height' : Int} {texts : List String} :
      0 < height → 0 ≤ height + braceDelta l →
      KeepsPending (height + braceDelta l) ls height' texts →
      KeepsPending height (l :: ls) height' texts

namespace KeepsPending

variable {height height' height'' : Int} {ls ls' : List Line} {texts texts' : List String}

theorem append (h : KeepsPending height ls height' texts)
    (h' : KeepsPending height' ls' height'' texts') :
    KeepsPending height (ls ++ ls') height'' (texts ++ texts') := by
  induction h with
  | nil => exact h'
  | decorator hline hdelta _ ih => exact .decorator hline hdelta (ih h')
  | argument hpos hdelta _ ih => exact .argument hpos hdelta (ih h')

/-- Lines inside of brackets keep what is pending. -/
theorem of_inside (hpos : ∀ k < ls.length, 0 < height + netDelta (ls.take k))
    (hopen : ∀ k ≤ ls.length, 0 ≤ height + netDelta (ls.take k)) :
    KeepsPending height ls (height + netDelta ls) [] := by
  induction ls generalizing height with
  | nil =>
    rw [netDelta_nil, Int.add_zero]
    exact .nil height
  | cons l ls ih =>
    have hstep : ∀ k, height + netDelta ((l :: ls).take (k + 1)) =
        height + braceDelta l + netDelta (ls.take k) := by
      intro k
      rw [List.take_succ_cons, netDelta_cons, Int.add_assoc]
    rw [netDelta_cons, ← Int.add_assoc]
    refine .argument ?_ ?_ (ih (fun k hk => ?_) fun k hk => ?_)
    · simpa using hpos 0 (Nat.succ_pos _)
    · simpa [netDelta_cons] using hopen 1 (by simp)
    · rw [← hstep]
      exact hpos (k + 1) (Nat.succ_lt_succ hk)
    · rw [← hstep]
      exact hopen (k + 1) (Nat.succ_le_succ hk)

/-- A decorator keeps what is pending up to a line in front of which all lines stand inside of its
brackets. -/
theorem of_decorator (d : Decorator) {n : Nat} (hn : n ≤ d.further.length)
    (hpos : ∀ k < n, 0 < netDelta (d.first :: d.further.take k)) :
    KeepsPending 0 (d.first :: d.further.take n) (netDelta (d.first :: d.further.take n))
      [d.entry] := by
  have hstep : ∀ k, (d.further.take n).take k = d.further.take (min k n) := fun k =>
    List.take_take
  have hrest : KeepsPending (braceDelta d.first) (d.further.take n)
      (braceDelta d.first + netDelta (d.further.take n)) [] := by
    refine of_inside (fun k hk => ?_) fun k _ => ?_
    · rw [List.length_take] at hk
      rw [hstep, ← netDelta_cons]
      exact hpos _ (by omega)
    · rw [hstep, ← netDelta_cons]
      exact d.opened _ (by omega)
  rw [netDelta_cons, ← d.trimmedText_eq]
  exact .decorator d.marked d.delta_nonneg hrest

theorem of_held {d : Decorator} (h : d.Held) : KeepsPending 0 d.lines 0 [d.entry] := by
  have hkeeps := of_decorator d (Nat.le_refl _) h
  rwa [List.take_length, d.closed] at hkeeps

theorem of_forall_held {ds : List Decorator} (h : ∀ d ∈ ds, d.Held) :
    KeepsPending 0 (ds.flatMap (·.lines)) 0 (ds.map (·.entry)) := by
  induction ds with
  | nil => exact .nil 0
  | cons d ds ih =>
    rw [List.forall_mem_cons] at h
    exact (of_held h.1).append (ih h.2)

end KeepsPending

/-- Of a decorator that is not held, the lines in front of some further line are kept, and that
line stands outside of brackets. -/
theorem Decorator.exists_of_not_held {d : Decorator} (h : ¬ d.Held) : ∃ pre l post,
    d.further = pre ++ l :: post ∧ KeepsPending 0 (d.first :: pre) 0 [d.entry] := by
  simp only [Decorator.Held, not_forall] at h
  -- the first such line
  have hex : ∃ k, k < d.further.length ∧ ¬ 0 < netDelta (d.first :: d.further.take k) := by
    obtain ⟨k, hk, hout⟩ := h
    exact ⟨k, hk, hout⟩
  obtain ⟨hlt, hout⟩ := Nat.find_spec hex
  have hbefore := fun k (hk : k < Nat.find hex) => Nat.find_min hex hk
  generalize Nat.find hex = n at hlt hout hbefore
  have hzero : netDelta (d.first :: d.further.take n) = 0 :=
    Int.le_antisymm (by omega) (d.opened n (Nat.le_of_lt hlt))
  have hkeeps : KeepsPending 0 (d.first :: d.further.take n) 0 [d.entry] := by
    have hpos : ∀ k < n, 0 < netDelta (d.first :: d.further.take k) := by
      intro k hk
      by_contra hnot
      exact hbefore k hk ⟨by omega, hnot⟩
    have h := KeepsPending.of_decorator d (Nat.le_of_lt hlt) hpos
    rwa [hzero] at h
  refine ⟨d.further.take n, d.further[n], d.further.drop (n + 1), ?_, hkeeps⟩
  rw [← List.drop_eq_getElem_cons hlt, List.take_append_drop]

end Brace

end CodeAtlas
