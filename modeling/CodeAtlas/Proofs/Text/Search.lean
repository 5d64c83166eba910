/-
Looking for a text in a text.

`occurs` says whether a needle occurs, `cut?` where it first does. Both try the needle at one place
after another, so that nothing is found where its first character is missing.
-/
import CodeAtlas.Text.Basic
import Mathlib.Data.List.Infix

set_option autoImplicit false

namespace CodeAtlas.Text

variable {c : Char} {u : List Char}

theorem has_of_infix {word : String} {t : List Char} (h : word.toList <:+: t) :
    has word t = true := by
  rw [has]
  induction t with
  | nil =>
    have hnil : word.toList = [] := List.infix_nil.mp h
    rw [hnil, occurs, List.isEmpty_nil]
  | cons c t ih =>
    rw [occurs, Bool.or_eq_true]
    rcases List.infix_cons_iff.mp h with hbegin | hlater
    · exact .inl (List.isPrefixOf_iff_prefix.mpr hbegin)
    · exact .inr (ih hlater)

/-- Without the text at its end there is nothing to drop. -/
theorem dropClose_of_not_has {close : String} {t : List Char} (h : has close t = false) :
    dropClose close t = t := by
  have hnone : after? close.toList.reverse t.reverse = none := by
    rw [Option.eq_none_iff_forall_ne_some]
    intro rest hafter
    have hsplit := congrArg List.reverse (after?_eq_some_iff.mp hafter)
    rw [List.reverse_reverse, List.reverse_append, List.reverse_reverse] at hsplit
    rw [hsplit, has_of_infix (List.suffix_append _ _).isInfix] at h
    cases h
  rw [dropClose, hnone]
  rfl

theorem isSome_cut? {needle : List Char} (hne : needle ≠ []) (t : List Char) :
    (cut? needle t).isSome = occurs needle t := by
  induction t with
  | nil => simp [cut?, occurs, hne]
  | cons c t ih =>
    rw [cut?, occurs, ← ih]
    cases hafter : after? needle (c :: t) with
    | some rest =>
      have hstarts : needle.isPrefixOf (c :: t) = true :=
        List.isPrefixOf_iff_prefix.mpr ⟨rest, (after?_eq_some_iff.mp hafter).symm⟩
      rw [hstarts, Bool.true_or]
      rfl
    | none =>
      have hstarts : needle.isPrefixOf (c :: t) = false := by
        refine Bool.eq_false_iff.mpr fun hstarts => ?_
        obtain ⟨rest, hrest⟩ := List.isPrefixOf_iff_prefix.mp hstarts
        rw [after?_eq_some_iff.mpr hrest.symm] at hafter
        cases hafter
      rw [hstarts, Bool.false_or]
      exact Option.isSome_map

/-- A needle is not looked for where its first character is missing. -/
theorem cut?_append_of_notMem (h : c ∉ u) (needle t : List Char) :
    cut? (c :: needle) (u ++ t) =
      (cut? (c :: needle) t).map fun (before, rest) => (u ++ before, rest) := by
  induction u with
  | nil => simp
  | cons d u ih =>
    obtain ⟨hne, hmore⟩ := not_or.mp (List.mem_cons.not.mp h)
    have hother : after? (c :: needle) (d :: (u ++ t)) = none := by simp [after?, hne]
    rw [List.cons_append, cut?, hother, ih hmore]
    simp [Function.comp_def]

/-- A cut at a text leaves out that text and nothing else. -/
theorem append_of_cut? {needle t before rest : List Char}
    (h : cut? needle t = some (before, rest)) : t = before ++ needle ++ rest := by
  induction t generalizing before with
  | nil =>
    -- in front of the end only the empty text is found
    simp only [cut?] at h
    split at h
    · rename_i hempty
      obtain ⟨rfl, rfl⟩ := Prod.mk.inj (Option.some.inj h)
      rw [List.isEmpty_iff.mp hempty]
      rfl
    · simp at h
  | cons c t ih =>
    simp only [cut?] at h
    split at h
    · rename_i hafter
      obtain ⟨rfl, rfl⟩ := Prod.mk.inj (Option.some.inj h)
      exact after?_eq_some_iff.mp hafter
    · obtain ⟨⟨before', rest'⟩, hcut, heq⟩ := Option.map_eq_some_iff.mp h
      obtain ⟨rfl, rfl⟩ := Prod.mk.inj heq
      rw [ih hcut, List.cons_append, List.cons_append]

end CodeAtlas.Text
