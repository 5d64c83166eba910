/-
Headers in a text that goes on.

The header of a function is read up to its bracket, or to its arrow, and then what follows is read
by others. So a header that is found is found as it is, whatever is put behind the text
(`Settled`). For most headers the first bracket is a place that nothing in front of it can pass.
Two of them have parts that may take a bracket, and there the place is another one: the square
bracket that closes the type parameters, the equals sign behind the type of a variable, and the
angle bracket that closes type parameters or ends the arrow. What may be tried at such a part when
it is missing fails at its first character.
-/
import CodeAtlas.Proofs.Header.Parens
import CodeAtlas.Proofs.Pattern.Extend
import CodeAtlas.Proofs.Pattern.Word

set_option autoImplicit false

namespace CodeAtlas

open Pattern

/-- What the pattern finds in a text it finds in the same way when more is put behind it. -/
def Settled (p : Pattern) : Prop :=
  ∀ ⦃t : List Char⦄ ⦃m : Match⦄, p.match? t = some m → ∀ e : List Char,
    p.match? (t ++ e) = some (m.map (Spot.extend e))

variable {e t u o : List Char} {m : Spot} {d : Char}

theorem settled_of_bracket {front : Pattern} (hfront : front.takes '(' = false) :
    Settled (front ++ lit "(") := by
  intro t m h e
  obtain ⟨l, rfl⟩ := exists_append_paren h
  have hmem : '(' ∈ l ++ '(' :: m.rest := List.mem_append_right l List.mem_cons_self
  rw [match?_append rfl hfront hmem, h]
  rfl

theorem Brace.settled_functionHeader : Settled Brace.functionHeader :=
  settled_of_bracket (by decide)

theorem Brace.settled_methodHeader : Settled Brace.methodHeader :=
  settled_of_bracket (by decide)

/-! ## Type parameters in square brackets -/

namespace Indent

/-- A definition up to its type parameters. -/
def defFront : Pattern :=
  flag .asynchronous "async" ++ word "def" ++ keep .name name ++ blanks

/-- The bracket of the parameter list behind any blanks. -/
def openList : Pattern := blanks ++ lit "("

theorem defHeader_eq : defHeader = defFront ++ (typeParams ++ openList) := rfl

theorem persists_openList (hm : m.Exact) (hd : d ∈ m.rest) (hblack : Text.isBlankChar d = false) :
    Persists e (Spot.extend e) (openList.run done) (openList.run done) m := by
  obtain ⟨u, o, hsplit⟩ := List.append_of_mem hd
  refine persists_append (persists_run ?_ (fun _ _ => rfl) hblack (hm.inFront hsplit))
  exact fun m hm =>
    persists_sign rfl hm.exact (List.ne_nil_of_mem hm.mem) fun _ _ => persists_done e _

/-- Without type parameters, in front of the bracket of the list. -/
theorem persists_typeParams_nothing (hu : '[' ∉ u) (hm : m.InFront u ('(' :: o)) :
    Persists e (Spot.extend e) ((typeParams ++ openList).run done)
      ((typeParams ++ openList).run done) m := by
  have hnext := persists_openList (e := e) hm.exact hm.mem rfl
  refine persists_append (persists_opt (persists_append (persists_append ?_)) hnext)
  refine persists_sign rfl hm.exact (List.ne_nil_of_mem hm.mem) ?_
  exact fun rest hrest => absurd (hm.next hrest) (not_or.mpr ⟨hu, by decide⟩)

/-- In front of the bracket that closes the type parameters. -/
theorem persists_typeParams (ho : '(' ∈ o) (hm : m.InFront u (']' :: o)) :
    Persists e (Spot.extend e) ((typeParams ++ openList).run done)
      ((typeParams ++ openList).run done) m := by
  have hnext := persists_openList (e := e) hm.exact hm.mem rfl
  refine persists_append (persists_opt (persists_append (persists_run ?_ (fun _ _ => rfl)
    (by decide) hm)) hnext)
  intro m hm
  refine persists_sign rfl hm.exact (List.ne_nil_of_mem hm.mem) ?_
  exact fun rest hrest =>
    persists_openList (hm.exact.behind hrest) ((hm.suffix hrest).subset ho) rfl

theorem settled_defHeader : Settled defHeader := by
  intro t m h e
  rw [defHeader_eq] at h ⊢
  obtain ⟨m₁, ms₁, ms₂, hfront, hmore, -⟩ := matches_append_iff.mp (matches_of_match? h)
  obtain ⟨m₂, ms₃, ms₄, hparams, hend, -⟩ := matches_append_iff.mp hmore
  obtain ⟨m₃, ms₅, ms₆, hblanks, hopen, -⟩ := matches_append_iff.mp hend
  obtain ⟨u, hu, -, hsquare⟩ := hfront.avoids (avoids_of_takes (d := '[') (by decide))
  obtain ⟨g, hg, hblank, -⟩ := hblanks.of_blanks
  have hlist : m₂.rest = g ++ '(' :: m.rest := by
    rw [hblank, hopen.rest_of_lit]
    rfl
  have htext : t = u ++ m₁.rest := hu
  suffices hpersists : Persists e (Spot.extend e)
      ((defFront ++ (typeParams ++ openList)).run done)
      ((defFront ++ (typeParams ++ openList)).run done) (.start t) by
    rw [match?_extend hpersists, h]
    rfl
  -- the last sign that can be taken in vain: the bracket behind the type parameters, or the list's
  rcases hparams.of_opt with hsome | ⟨hnone, -⟩
  · obtain ⟨w, hw⟩ := hsome.exists_append_of_lit
    have hclose : t = (u ++ w) ++ ']' :: m₂.rest := by
      rw [htext, hw, List.append_assoc, List.append_assoc]
      rfl
    have hparen : '(' ∈ m₂.rest := by
      rw [hlist]
      exact List.mem_append_right g List.mem_cons_self
    rw [hclose]
    exact persists_append (persists_run (fun m hm => persists_typeParams hparen hm)
      (fun _ _ => rfl) (by decide) (Spot.inFront_start _ _))
  · have hclose : t = (u ++ g) ++ '(' :: m.rest := by
      rw [htext, hnone, hlist, List.append_assoc]
    have hnot : '[' ∉ u ++ g := by
      intro hmem
      rcases List.mem_append.mp hmem with hmem | hmem
      · exact of_decide_eq_false (hsquare _ hmem) rfl
      · cases hg _ hmem
    rw [hclose]
    exact persists_append (persists_run (fun m hm => persists_typeParams_nothing hnot hm)
      (fun _ _ => rfl) (by decide) (Spot.inFront_start _ _))

end Indent

/-! ## Bound functions -/

namespace Brace

/-- A variable up to the equals sign behind it. -/
def boundName : Pattern :=
  flag .exported "export" ++ oneOf ["const", "let", "var"] ++ gap ++ keep .name name ++ blanks ++
    opt (lit ":" ++ blanks ++ few1 (noneOf "=")) ++ blanks

/-- Type parameters in front of an arrow function. -/
def arrowParams : Pattern := opt (lit "<" ++ many (noneOf ">(") ++ lit ">" ++ blanks)

/-- A function with its keyword, up to its parameter list. -/
def keywordFunction : Pattern :=
  lit "function" ++ edge ++ blanks ++ opt (lit "*") ++ blanks ++ many Text.isNameChar ++ blanks

/-- What a variable is bound to, up to its parameter list or its arrow. -/
def boundTo : Pattern :=
  keep .function (keywordFunction ++ lit "(") <|> keep .group (lit "(") <|> bareArrow

theorem arrowHeader_eq : arrowHeader =
    boundName ++ (lit "=" ++
      ((blanks ++ flag .asynchronous "async") ++ (arrowParams ++ boundTo))) := rfl

/-- In front of a bracket that opens a list, or of the head of an arrow. -/
theorem persists_boundTo (hsign : d = '(' ∨ d = '>') (hm : m.Exact) (hd : d ∈ m.rest) :
    Persists e (Spot.extend e) (boundTo.run done) (boundTo.run done) m := by
  obtain ⟨u, o, hsplit⟩ := List.append_of_mem hd
  have hfront := hm.inFront hsplit
  have hopen : ∀ (s : Slot) (m : Spot), m.InFront u (d :: o) →
      Persists e (Spot.extend e) ((lit "(").run ((mark s).run done))
        ((lit "(").run ((mark s).run done)) m := by
    intro s m hm
    exact persists_sign rfl hm.exact (List.ne_nil_of_mem hm.mem) fun _ _ =>
      persists_mark s rfl (persists_done e _)
  have htakes : keywordFunction.takes d = false ∧ (keep .bare name ++ blanks).takes d = false ∧
      d ∉ ("=>".toList).dropLast := by
    rcases hsign with rfl | rfl <;> decide
  refine persists_or ?_ (persists_or ?_ ?_)
  · exact persists_keep .function rfl
      (persists_append (persists_run (hopen .function) (fun _ _ => rfl) htakes.1 hfront))
  · exact persists_keep .group rfl (hopen .group m hfront)
  · refine persists_append (persists_run ?_ (fun _ _ => rfl) htakes.2.1 hfront)
    exact fun m hm => persists_runText hm.exact hm.mem htakes.2.2 fun _ _ => persists_done e _

/-- Without type parameters, in front of the head of the arrow. -/
theorem persists_arrowParams_nothing (hu : '<' ∉ u) (hm : m.InFront u ('>' :: o)) :
    Persists e (Spot.extend e) ((arrowParams ++ boundTo).run done)
      ((arrowParams ++ boundTo).run done) m := by
  have hnext := persists_boundTo (e := e) (.inr rfl) hm.exact hm.mem
  refine persists_append (persists_opt (persists_append (persists_append (persists_append ?_)))
    hnext)
  refine persists_sign rfl hm.exact (List.ne_nil_of_mem hm.mem) ?_
  exact fun rest hrest => absurd (hm.next hrest) (not_or.mpr ⟨hu, by decide⟩)

/-- In front of the bracket that closes the type parameters. -/
theorem persists_arrowParams (ho : '>' ∈ o) (hm : m.InFront u ('>' :: o)) :
    Persists e (Spot.extend e) ((arrowParams ++ boundTo).run done)
      ((arrowParams ++ boundTo).run done) m := by
  have hnext := persists_boundTo (e := e) (.inr rfl) hm.exact hm.mem
  refine persists_append (persists_opt (persists_append (persists_append (persists_run ?_
    (fun _ _ => rfl) (by decide) hm))) hnext)
  intro m hm
  refine persists_sign rfl hm.exact (List.ne_nil_of_mem hm.mem) ?_
  intro rest hrest
  obtain ⟨u', o', hsplit⟩ := List.append_of_mem ((hm.suffix hrest).subset ho)
  exact persists_run (fun m hm => persists_boundTo (.inr rfl) hm.exact hm.mem) (fun _ _ => rfl)
    (by decide) ((hm.exact.behind hrest).inFront hsplit)

/-- Up to the equals sign, if what follows it persists. -/
theorem persists_arrowHeader {v w : List Char} (hv : '=' ∉ v)
    (h : ∀ m : Spot, m.Exact → m.rest = w → Persists e (Spot.extend e)
      (((blanks ++ flag .asynchronous "async") ++ (arrowParams ++ boundTo)).run done)
      (((blanks ++ flag .asynchronous "async") ++ (arrowParams ++ boundTo)).run done) m) :
    Persists e (Spot.extend e) (arrowHeader.run done) (arrowHeader.run done)
      (.start (v ++ '=' :: w)) := by
  rw [arrowHeader_eq]
  refine persists_append (persists_run ?_ (fun _ _ => rfl) (by decide) (Spot.inFront_start v _))
  intro m hm
  refine persists_append (persists_sign rfl hm.exact (List.ne_nil_of_mem hm.mem) ?_)
  intro rest hrest
  obtain ⟨v', hv', hsplit⟩ := hm.rest
  rw [hrest] at hsplit
  cases v' with
  | nil => exact h _ (hm.exact.behind hrest) (List.cons.inj hsplit).2
  | cons c v' =>
    obtain rfl : '=' = c := (List.cons.inj hsplit).1
    exact absurd (hv'.subset List.mem_cons_self) hv

/-- A list opens with its bracket, and a bare parameter stands in front of an arrow. -/
theorem exists_sign_of_boundTo {m m' : Spot} {ms : List (Slot × Spot)}
    (h : Matches boundTo m m' ms) :
    '(' ∈ m.rest ∨ ∃ w, '<' ∉ w ∧ m.rest = w ++ '>' :: m'.rest := by
  cases h with
  | left hfunction =>
    obtain ⟨ms', hfunction, -⟩ := hfunction.exists_of_keep
    obtain ⟨w, hw⟩ := hfunction.exists_append_of_lit
    refine .inl ?_
    rw [hw]
    exact List.mem_append_left _ (List.mem_append_right w List.mem_cons_self)
  | right h =>
    cases h with
    | left hgroup =>
      obtain ⟨ms', hgroup, -⟩ := hgroup.exists_of_keep
      refine .inl ?_
      rw [hgroup.rest_of_lit]
      exact List.mem_cons_self
    | right hbare =>
      obtain ⟨m₁, ms₁, ms₂, hname, harrow, -⟩ := matches_append_iff.mp hbare
      obtain ⟨w, hw, -, hclean⟩ := hname.avoids (avoids_of_takes (d := '<') (by decide))
      refine .inr ⟨w ++ ['='], ?_, ?_⟩
      · rw [List.mem_append, List.mem_singleton, not_or]
        exact ⟨fun hmem => of_decide_eq_false (hclean _ hmem) rfl, by decide⟩
      · rw [hw, harrow.rest_of_lit, List.append_assoc]
        rfl

/-- What is matched behind the equals sign is followed alike in a text that goes on: the sign
that ends the parameters has been read, and what is tried behind it is tried there too. -/
theorem persists_behindEquals {m m₀ m' : Spot} {ms : List (Slot × Spot)} {e : List Char}
    (h : Matches (blanks ++ flag .asynchronous "async" ++ (arrowParams ++ boundTo)) m m₀ ms)
    (hexact : m'.Exact) (hrest : m'.rest = m.rest) :
    Persists e (Spot.extend e)
      ((blanks ++ flag .asynchronous "async" ++ (arrowParams ++ boundTo)).run done)
      ((blanks ++ flag .asynchronous "async" ++ (arrowParams ++ boundTo)).run done) m' := by
  obtain ⟨m₃, ms₁, ms₂, hasync, hmore, -⟩ := matches_append_iff.mp h
  obtain ⟨m₄, ms₃, ms₄, hparams, hbound, -⟩ := matches_append_iff.mp hmore
  obtain ⟨u, hu, -, hclean⟩ := hasync.avoids (avoids_of_takes (d := '<') (by decide))
  obtain ⟨x, hx, -⟩ := hparams.exists_behind
  rcases exists_sign_of_boundTo hbound with hlist | ⟨w, hw, harrow⟩
  · have hmem : '(' ∈ m'.rest := by
      rw [hrest, hu, hx]
      exact List.mem_append_right u (List.mem_append_right x hlist)
    obtain ⟨y, o, hsplit⟩ := List.append_of_mem hmem
    refine persists_append (persists_run ?_ (fun _ _ => rfl) (by decide) (hexact.inFront hsplit))
    intro m hm
    exact persists_append (persists_run (fun m hm => persists_boundTo (.inl rfl) hm.exact hm.mem)
      (fun _ _ => rfl) (by decide) hm)
  -- a parameter without brackets: the arrow is found, with type parameters in front or without
  · rcases hparams.of_opt with hsome | ⟨hnone, -⟩
    · obtain ⟨m₅, ms₅, ms₆, hangled, hblanks, -⟩ := matches_append_iff.mp hsome
      obtain ⟨y, hy⟩ := hangled.exists_append_of_lit
      obtain ⟨g, -, hg, -⟩ := hblanks.of_blanks
      have hsplit : m'.rest = (u ++ y) ++ '>' :: m₅.rest := by
        rw [hrest, hu, hy, List.append_assoc, List.append_assoc]
        rfl
      have hmem : '>' ∈ m₅.rest := by
        rw [hg, harrow]
        exact List.mem_append_right g (List.mem_append_right w List.mem_cons_self)
      exact persists_append (persists_run (fun m hm => persists_arrowParams hmem hm)
        (fun _ _ => rfl) (by decide) (hexact.inFront hsplit))
    · have hsplit : m'.rest = (u ++ w) ++ '>' :: m₀.rest := by
        rw [hrest, hu, hnone, harrow, List.append_assoc]
      have hnot : '<' ∉ u ++ w := by
        intro hmem
        rcases List.mem_append.mp hmem with hmem | hmem
        · exact of_decide_eq_false (hclean _ hmem) rfl
        · exact hw hmem
      exact persists_append (persists_run (fun m hm => persists_arrowParams_nothing hnot hm)
        (fun _ _ => rfl) (by decide) (hexact.inFront hsplit))

theorem settled_arrowHeader : Settled arrowHeader := by
  intro t m h e
  rw [arrowHeader_eq] at h
  obtain ⟨m₁, ms₁, ms₂, hname, hmore, -⟩ := matches_append_iff.mp (matches_of_match? h)
  obtain ⟨m₂, ms₃, ms₄, hequals, hmore, -⟩ := matches_append_iff.mp hmore
  obtain ⟨v, hv, -, hclean⟩ := hname.avoids (avoids_of_takes (d := '=') (by decide))
  have hequals : m₁.rest = '=' :: m₂.rest := hequals.rest_of_lit
  have htext : t = v ++ '=' :: m₂.rest := by
    rw [← hequals]
    exact hv
  have hfree : '=' ∉ v := fun hmem => of_decide_eq_false (hclean _ hmem) rfl
  rw [← arrowHeader_eq] at h
  have hall := persists_arrowHeader (e := e) hfree fun m' => persists_behindEquals hmore
  rw [← htext] at hall
  rw [match?_extend hall, h]
  rfl

end Brace

end CodeAtlas
