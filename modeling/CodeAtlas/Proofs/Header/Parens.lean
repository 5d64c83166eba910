/-
Where a parameter list begins.

A recogniser takes the parameter list from the round bracket with which the pattern of
the header ends, and hands on that bracket with what follows the match. So there has to
be such a bracket in the text, right in front of what follows. For most headers it is
the last construct of the pattern; the header of a bound function has three ways to go
on behind its equals sign, and the third one, a bare parameter, has no bracket. The
slots `function` and `group` tell the ways apart.
-/
import CodeAtlas.Header.Brace.Function
import CodeAtlas.Header.Brace.Interface
import CodeAtlas.Header.Indent.Function
import CodeAtlas.Proofs.Pattern.Parts

set_option autoImplicit false

namespace CodeAtlas

open Pattern

/-- The headers that end with the bracket of their parameter list. -/
def parenHeaders : List Pattern :=
  [Brace.functionHeader, Brace.methodHeader, Brace.interfaceMethod, Indent.defHeader]

theorem exists_append_paren {p : Pattern} {t : List Char} {m : Match}
    (h : (p ++ lit "(").match? t = some m) : ∃ l, t = l ++ '(' :: m.rest := by
  obtain ⟨l, hl⟩ := (matches_of_match? h).exists_append_of_lit
  refine ⟨l, ?_⟩
  have hstart : (Spot.start t).rest = t := rfl
  rw [hstart] at hl
  rw [hl, List.append_assoc]
  rfl

/-- The text behind such a header is the text behind the bracket. -/
theorem exists_append_of_parenHeaders {p : Pattern} (hp : p ∈ parenHeaders) {t : List Char}
    {m : Match} (h : p.match? t = some m) : ∃ l, t = l ++ '(' :: m.rest := by
  simp only [parenHeaders, List.mem_cons, List.not_mem_nil, or_false] at hp
  rcases hp with rfl | rfl | rfl | rfl
  · exact exists_append_paren h
  · exact exists_append_paren h
  · exact exists_append_paren h
  · exact exists_append_paren h

/-! ## Bound functions -/

namespace Brace

/-- The header of a bound function, up to what it is bound to. -/
def arrowFront : Pattern :=
  flag .exported "export" ++ oneOf ["const", "let", "var"] ++ gap ++ keep .name name ++ blanks ++
    opt (lit ":" ++ blanks ++ few1 (noneOf "=")) ++ blanks ++ lit "=" ++ blanks ++
    flag .asynchronous "async" ++ opt (lit "<" ++ many (noneOf ">(") ++ lit ">" ++ blanks)

/-- A function without a parameter list, up to its arrow. -/
def bareArrow : Pattern := keep .bare name ++ blanks ++ lit "=>"

theorem not_has_of_bareArrow {m m' m'' : Spot} {ms ms' : List (Slot × Spot)}
    (hfront : Matches arrowFront m m' ms) (hbare : Matches bareArrow m' m'' ms') {s : Slot}
    (hs : s = .function ∨ s = .group) : s ∉ (ms ++ ms').map (·.1) := by
  intro hmem
  have hslots := (matches_append_iff.mpr ⟨_, _, _, hfront, hbare, rfl⟩).mem_slots hmem
  rcases hs with rfl | rfl
  · exact absurd hslots (by decide)
  · exact absurd hslots (by decide)

/-- A bound function that has a parameter list has its bracket in front of what follows
the match. -/
theorem exists_append_of_arrowHeader {t : List Char} {m : Match}
    (h : arrowHeader.match? t = some m) (hhas : m.has .function = true ∨ m.has .group = true) :
    ∃ l, t = l ++ '(' :: m.rest := by
  obtain ⟨m₁, ms₁, ms₂, hfront, hend, hmarks⟩ := matches_append_iff.mp (matches_of_match? h)
  obtain ⟨w, hw, -⟩ := hfront.exists_behind
  have hparen : (∃ w', m₁.rest = w' ++ "(".toList ++ m.stop.rest) →
      ∃ l, t = l ++ '(' :: m.rest := by
    rintro ⟨w', hw'⟩
    have ht : t = w ++ m₁.rest := hw
    refine ⟨w ++ w', ?_⟩
    rw [ht, hw', List.append_assoc, List.append_assoc]
    rfl
  cases hend with
  | left hfunction =>
    obtain ⟨ms', hp, -⟩ := hfunction.exists_of_keep
    exact hparen hp.exists_append_of_lit
  | right hend =>
    cases hend with
    | left hgroup =>
      obtain ⟨ms', hp, -⟩ := hgroup.exists_of_keep
      exact hparen ⟨[], hp.rest_of_lit⟩
    | right hbare =>
      -- a bare parameter leaves neither mark
      have hnot : ∀ s, s = .function ∨ s = .group → m.has s = false := by
        intro s hs
        have hmem := not_has_of_bareArrow hfront hbare hs
        rw [← hmarks] at hmem
        simp only [Match.has, List.any_eq_false, decide_eq_true_eq]
        rintro mark hmark rfl
        exact hmem (List.mem_map_of_mem hmark)
      rcases hhas with hhas | hhas
      · rw [hnot _ (.inl rfl)] at hhas
        cases hhas
      · rw [hnot _ (.inr rfl)] at hhas
        cases hhas

end Brace

end CodeAtlas
