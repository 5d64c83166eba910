/-
Headers over several lines.

The readers of function headers look at the joined text of the header. The words that one of
them asks for on the first line are in front of the first round bracket, and a line is joined
only behind an open one, so that these words are on the first line of any lines that are joined
to the same text. Hence two headers with the same joined text have the same answer, except for
the number of lines (`ReadsJoined`).

A header that is written on one line can be broken wherever a round bracket is open outside
literals, as long as the join puts back what the break took away (`BreaksAt`): one space, or
nothing behind an opening bracket or in front of a closing one. The induction is on the broken
lines. Its invariant is that the text joined so far is what the header has in front of the
break; it is open there, so that the next line is joined, and the whole header is closed, so
that nothing behind the last line is.
-/
import CodeAtlas.Proofs.Extent.Join
import CodeAtlas.Proofs.Text.Search

set_option autoImplicit false

namespace CodeAtlas

/-- The header on a line and `n` further ones. -/
def Construct.over (n : Nat) : Construct → Construct
  | .function head => .function { head with further := n }
  | .method head => .method { head with further := n }
  | c => c

/-- The readers of headers that may take several lines. -/
def signatureReaders : List Recogniser :=
  [Brace.functionDeclaration?, Brace.arrowDeclaration?, Brace.methodDeclaration?,
    Indent.defDeclaration?]

/-! ## Answers to a joined text -/

/-- What the reader says of a header, it says of any lines with the same joined text, up to
the number of lines. -/
def ReadsJoined (R : Recogniser) : Prop :=
  ∀ ⦃ls ls' : List Line⦄ ⦃c : Construct⦄, (joinSignature ls').text = (joinSignature ls).text →
    R ls = some c → R ls' = some (c.over (joinSignature ls').further)

/-- What stands at the begin of the first line, and has no round bracket, stands at the begin of
the first line of a header whose joined text goes on where that of these lines ends. -/
theorem starts_of_joined {ls ls' : List Line}
    (htext : (joinSignature ls).text <+: (joinSignature ls').text) {word : String}
    (hnone : '(' ∉ word.toList) (h : Text.starts word (firstTrimmed ls) = true) :
    Text.starts word (firstTrimmed ls') = true := by
  have hbegin : word.toList <+: firstTrimmed ls := List.isPrefixOf_iff_prefix.mp h
  have hjoined : word.toList <+: (joinSignature ls').text :=
    (hbegin.trans (prefix_joinOpen _ _ _)).trans htext
  exact List.isPrefixOf_iff_prefix.mpr (prefix_firstTrimmed hjoined hnone)

open Pattern

/-- A word of a joined header in front of its first round bracket is on the first line. -/
theorem has_firstTrimmed {front back : Pattern} {word : String} {ls : List Line} {m : Match}
    (h : (front ++ (lit word ++ back)).match? (joinSignature ls).text = some m)
    (hfront : front.takes '(' = false) (hword : '(' ∉ word.toList) :
    Text.has word (firstTrimmed ls) = true := by
  obtain ⟨m₁, ms₁, ms₂, hbefore, hmore, -⟩ := matches_append_iff.mp (matches_of_match? h)
  obtain ⟨m₂, ms₃, ms₄, hlit, -, -⟩ := matches_append_iff.mp hmore
  obtain ⟨u, hu, -, hclean⟩ := hbefore.avoids (avoids_of_takes hfront)
  have hstart : (Spot.start (joinSignature ls).text).rest = (joinSignature ls).text := rfl
  rw [hstart, hlit.rest_of_lit, ← List.append_assoc] at hu
  have hprefix : u ++ word.toList <+: firstTrimmed ls := by
    refine prefix_firstTrimmed ⟨m₂.rest, hu.symm⟩ ?_
    intro hmem
    rcases List.mem_append.mp hmem with hmem | hmem
    · exact of_decide_eq_false (hclean _ hmem) rfl
    · exact hword hmem
  exact Text.has_of_infix ((List.suffix_append u _).isInfix.trans hprefix.isInfix)

/-- The keyword of a function is on its first line. -/
theorem has_function_of_match? {ls : List Line} {m : Match}
    (h : Brace.functionHeader.match? (joinSignature ls).text = some m) :
    Text.has "function" (firstTrimmed ls) = true := by
  have hsplit : ∃ back, Brace.functionHeader =
      (flag .exported "export" ++ flag .byDefault "default" ++ opt (word "declare") ++
        flag .asynchronous "async") ++ (lit "function" ++ back) := ⟨_, rfl⟩
  obtain ⟨back, hback⟩ := hsplit
  exact has_firstTrimmed (hback ▸ h) (by decide) (by decide)

theorem any_starts_of_joined {ls ls' : List Line}
    (htext : (joinSignature ls).text <+: (joinSignature ls').text) {words : List String}
    (hnone : ∀ w ∈ words, '(' ∉ w.toList)
    (h : words.any (Text.starts · (firstTrimmed ls)) = true) :
    words.any (Text.starts · (firstTrimmed ls')) = true := by
  obtain ⟨word, hmem, hstarts⟩ := List.any_eq_true.mp h
  exact List.any_eq_true.mpr ⟨word, hmem, starts_of_joined htext (hnone word hmem) hstarts⟩

theorem starts_def_of_joined {ls ls' : List Line}
    (htext : (joinSignature ls).text <+: (joinSignature ls').text)
    (h : (Text.starts "def " (firstTrimmed ls) || Text.starts "async " (firstTrimmed ls)) = true) :
    (Text.starts "def " (firstTrimmed ls') || Text.starts "async " (firstTrimmed ls')) = true := by
  rcases Bool.or_eq_true_iff.mp h with hdef | hasync
  · exact Bool.or_eq_true_iff.mpr (.inl (starts_of_joined htext (by decide) hdef))
  · exact Bool.or_eq_true_iff.mpr (.inr (starts_of_joined htext (by decide) hasync))

theorem readsJoined_functionDeclaration? : ReadsJoined Brace.functionDeclaration? := by
  intro ls ls' c htext h
  simp only [Brace.functionDeclaration?, Option.bind_eq_bind, Option.bind_eq_some_iff,
    Option.guard_eq_some'] at h ⊢
  obtain ⟨-, -, m, hm, ⟨params, tail⟩, hparams, h⟩ := h
  cases h
  rw [← htext] at hm
  exact ⟨(), has_function_of_match? hm, m, hm, _, hparams, rfl⟩

theorem readsJoined_arrowDeclaration? : ReadsJoined Brace.arrowDeclaration? := by
  intro ls ls' c htext h
  simp only [Brace.arrowDeclaration?, Option.bind_eq_bind, Option.bind_eq_some_iff,
    Option.guard_eq_some'] at h ⊢
  obtain ⟨-, hguard, m, hm, ⟨kind, params, returnType, body⟩, hbound, h⟩ := h
  cases h
  have hword := any_starts_of_joined ⟨[], by rw [List.append_nil, htext]⟩ (by decide) hguard
  exact ⟨(), hword, m, htext ▸ hm, _, hbound, rfl⟩

theorem readsJoined_methodDeclaration? : ReadsJoined Brace.methodDeclaration? := by
  intro ls ls' c htext h
  simp only [Brace.methodDeclaration?, Option.bind_eq_bind, Option.bind_eq_some_iff,
    Option.guard_eq_some'] at h ⊢
  obtain ⟨m, hm, -, hname, ⟨params, tail⟩, hparams, h⟩ := h
  cases h
  exact ⟨m, htext ▸ hm, (), hname, _, hparams, rfl⟩

theorem readsJoined_defDeclaration? : ReadsJoined Indent.defDeclaration? := by
  intro ls ls' c htext h
  simp only [Indent.defDeclaration?, Option.bind_eq_bind, Option.bind_eq_some_iff,
    Option.guard_eq_some'] at h ⊢
  obtain ⟨-, hguard, m, hm, ⟨inner, rest⟩, hgroup, tail, htail, h⟩ := h
  cases h
  have hword := starts_def_of_joined ⟨[], by rw [List.append_nil, htext]⟩ hguard
  exact ⟨(), hword, m, htext ▸ hm, _, hgroup, tail, htail, rfl⟩

/-- Two headers with one joined text have one answer. -/
theorem readsJoined {R : Recogniser} (hR : R ∈ signatureReaders) : ReadsJoined R := by
  simp only [signatureReaders, List.mem_cons, List.not_mem_nil, or_false] at hR
  rcases hR with rfl | rfl | rfl | rfl
  · exact readsJoined_functionDeclaration?
  · exact readsJoined_arrowDeclaration?
  · exact readsJoined_methodDeclaration?
  · exact readsJoined_defDeclaration?

/-! ## Breaking a line -/

/-- A line may be broken between `front` and `behind`, where `gap` is left out: outside
literals, inside round brackets, next to no other blank, and in place of what the join adds. -/
structure BreaksAt (front gap behind : List Char) : Prop where
  outside : Quoting.code.after front = .code
  inside : 0 < parenBalance front
  before : ∃ c, front.getLast? = some c ∧ Text.isBlankChar c = false
  beyond : ∃ c, behind.head? = some c ∧ Text.isBlankChar c = false
  left : gap = [' '] ∧ front.getLast? ≠ some '(' ∧ behind.head? ≠ some ')' ∨
    gap = [] ∧ (front.getLast? = some '(' ∨ behind.head? = some ')')

/-- The text is broken into the lines, each with any blanks around its piece; `front` stands
in front of the text. -/
inductive Spread : List Char → List Char → List Line → Prop where
  | last {front text : List Char} {l : Line} : Text.trim l = text → Spread front text [l]
  | more {u p g t : List Char} {l : Line} {ls : List Line} : p ≠ [] → Text.trim l = p →
      BreaksAt (u ++ p) g t → Spread (u ++ p ++ g) t ls → Spread u (p ++ g ++ t) (l :: ls)

theorem Spread.ne_nil {front text : List Char} {ls : List Line} (h : Spread front text ls) :
    ls ≠ [] := by
  cases h <;> exact List.cons_ne_nil _ _

/-- The first of the lines begins as the text does. -/
theorem Spread.head?_trim {front text : List Char} {l : Line} {ls : List Line}
    (h : Spread front text (l :: ls)) : (Text.trim l).head? = text.head? := by
  cases h with
  | last htrim => rw [htrim]
  | more hne htrim =>
    obtain ⟨c, piece, rfl⟩ := List.exists_cons_of_ne_nil hne
    rw [htrim]
    rfl

/-- The lines are joined to the text, and nothing behind them is. -/
theorem Spread.joinOpen_eq {front text : List Char} {l : Line} {ls : List Line}
    (h : Spread front text (l :: ls)) (hclosed : parenBalance (front ++ text) ≤ 0) {n : Nat}
    (hfit : n + ls.length ≤ maxLookahead) (after : List Line) :
    joinOpen (front ++ Text.trim l) n (ls ++ after) = ⟨front ++ text, n + ls.length⟩ := by
  induction ls generalizing front text l n with
  | nil =>
    cases h with
    | last htrim =>
      rw [htrim]
      exact joinOpen_of_nonpos hclosed n after
    | more _ _ _ hmore => exact absurd rfl hmore.ne_nil
  | cons l' ls ih =>
    cases h with
    | @more _ piece gap text _ _ hne htrim hbreaks hmore =>
      rw [List.length_cons] at hfit
      -- the join puts back what the break left out
      have hgap : (if (front ++ piece).getLast? = some '(' ∨ (Text.trim l').head? = some ')'
          then [] else [' ']) = gap := by
        rw [hmore.head?_trim]
        rcases hbreaks.left with ⟨rfl, hopen, hclose⟩ | ⟨rfl, hbracket⟩
        · rw [if_neg (not_or.mpr ⟨hopen, hclose⟩)]
        · rw [if_pos hbracket]
      have hwhole : front ++ (piece ++ gap ++ text) = front ++ piece ++ gap ++ text := by
        simp only [List.append_assoc]
      rw [hwhole] at hclosed ⊢
      have hrest := ih hmore hclosed (n := n + 1) (by omega)
      rw [htrim, List.cons_append, joinOpen_cons_of_pos hbreaks.inside (by omega), hgap, hrest,
        List.length_cons, Nat.add_assoc, Nat.add_comm 1]

/-- A header that is broken into lines is joined to what stood on one line. -/
theorem Spread.joinSignature_eq {text : List Char} {ls : List Line} (h : Spread [] text ls)
    (hclosed : parenBalance text ≤ 0) (hfit : ls.length ≤ maxLookahead + 1) (after : List Line) :
    joinSignature (ls ++ after) = ⟨text, ls.length - 1⟩ := by
  obtain ⟨l, ls, rfl⟩ := List.exists_cons_of_ne_nil h.ne_nil
  rw [List.length_cons] at hfit
  have hjoined := h.joinOpen_eq hclosed (n := 0) (by omega) after
  rw [List.nil_append, List.nil_append, Nat.zero_add] at hjoined
  exact hjoined

/-- A header on one line has the same answer when it is broken into lines, whatever stands
behind it; only the number of lines differs. -/
theorem same_header_of_spread {R : Recogniser} (hR : R ∈ signatureReaders) {l : Line}
    {behind : List Line} {c : Construct} (h : R (l :: behind) = some c)
    (hclosed : parenBalance (Text.trim l) = 0) {ls : List Line}
    (hspread : Spread [] (Text.trim l) ls) (hfit : ls.length ≤ maxLookahead + 1)
    (after : List Line) : R (ls ++ after) = some (c.over (ls.length - 1)) := by
  have hone : joinSignature (l :: behind) = ⟨Text.trim l, 0⟩ :=
    joinOpen_of_nonpos (Int.le_of_eq hclosed) 0 behind
  have hmany : joinSignature (ls ++ after) = ⟨Text.trim l, ls.length - 1⟩ :=
    hspread.joinSignature_eq (Int.le_of_eq hclosed) hfit after
  have hsame : (joinSignature (ls ++ after)).text = (joinSignature (l :: behind)).text := by
    rw [hone, hmany]
  have hanswer := readsJoined hR hsame h
  rwa [hmany] at hanswer

/-- A function with a callback among its parameters, broken behind the bracket, at the space
between the parameters and in front of the bracket that closes. -/
theorem same_header_of_spread_callback :
    Brace.functionDeclaration?
        ["function f(".toList, "  a: string,".toList, "  cb: (x: number) => void ".toList,
          "): void \x7b".toList, "  cb(1)".toList] =
      some (.function
        { name := "f", kind := .function,
          params := [{ name := "a", typeText := some "string" },
            { name := "cb", typeText := some "(x: number) => void" }],
          returnType := some "void", further := 3 }) := by
  have hspread : Spread []
      (Text.trim "function f(a: string, cb: (x: number) => void): void \x7b".toList)
      ["function f(".toList, "  a: string,".toList, "  cb: (x: number) => void ".toList,
        "): void \x7b".toList] := by
    have hclose : Spread "function f(a: string, cb: (x: number) => void".toList
        "): void \x7b".toList ["): void \x7b".toList] := .last (by decide)
    have hcallback := Spread.more (u := "function f(a: string, ".toList) (g := [])
      (l := "  cb: (x: number) => void ".toList) (by decide) rfl
      ⟨by decide, by decide, ⟨'d', by decide⟩, ⟨')', by decide⟩, by decide⟩ hclose
    have hfirst := Spread.more (u := "function f(".toList) (g := [' '])
      (l := "  a: string,".toList) (by decide) rfl
      ⟨by decide, by decide, ⟨',', by decide⟩, ⟨'c', by decide⟩, by decide⟩ hcallback
    exact Spread.more (u := []) (g := []) (l := "function f(".toList) (by decide) rfl
      ⟨by decide, by decide, ⟨'(', by decide⟩, ⟨'a', by decide⟩, by decide⟩ hfirst
  have hone : Brace.functionDeclaration?
      ["function f(a: string, cb: (x: number) => void): void \x7b".toList] =
        some (.function
          { name := "f", kind := .function,
            params := [{ name := "a", typeText := some "string" },
              { name := "cb", typeText := some "(x: number) => void" }],
            returnType := some "void", further := 0 }) := by decide +kernel
  exact same_header_of_spread (by simp [signatureReaders]) hone (by decide) hspread (by decide)
    ["  cb(1)".toList]

end CodeAtlas
