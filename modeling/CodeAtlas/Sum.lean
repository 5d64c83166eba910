/-
Sums over lists.

Counts add up over the characters of a text, the lines of a body, the states of an
automaton and the outlines of a report. Each of these sums is `sumOf` of what one member
counts, as a natural number or as an integer.
-/

set_option autoImplicit false

namespace CodeAtlas

/-- The sum of what each member counts. -/
def sumOf {α β : Type} [Add β] [OfNat β 0] (count : α → β) (xs : List α) : β :=
  xs.foldr (fun x rest => count x + rest) 0

section

variable {α β : Type} [Add β] [OfNat β 0] (count : α → β)

@[simp] theorem sumOf_nil : sumOf count [] = 0 := rfl

@[simp] theorem sumOf_cons (x : α) (xs : List α) :
    sumOf count (x :: xs) = count x + sumOf count xs := rfl

theorem sumOf_map {γ : Type} (f : γ → α) (xs : List γ) :
    sumOf count (xs.map f) = sumOf (fun x => count (f x)) xs := List.foldr_map

end

section

variable {α : Type}

theorem sumOf_append (count : α → Nat) (xs ys : List α) :
    sumOf count (xs ++ ys) = sumOf count xs + sumOf count ys := by
  induction xs with
  | nil => rw [List.nil_append, sumOf_nil, Nat.zero_add]
  | cons x xs ih => rw [List.cons_append, sumOf_cons, sumOf_cons, ih, Nat.add_assoc]

theorem sumOf_le_sumOf {f g : α → Nat} {xs : List α} (h : ∀ x ∈ xs, f x ≤ g x) :
    sumOf f xs ≤ sumOf g xs := by
  induction xs with
  | nil => exact Nat.le_refl _
  | cons x xs ih =>
    obtain ⟨hx, hxs⟩ := List.forall_mem_cons.mp h
    exact Nat.add_le_add hx (ih hxs)

/-- Where each member counts at most once, the sum is at most their number. -/
theorem sumOf_le_length {f : α → Nat} {xs : List α} (h : ∀ x ∈ xs, f x ≤ 1) :
    sumOf f xs ≤ xs.length := by
  induction xs with
  | nil => exact Nat.le_refl _
  | cons x xs ih =>
    obtain ⟨hx, hxs⟩ := List.forall_mem_cons.mp h
    rw [sumOf_cons, List.length_cons, Nat.add_comm]
    exact Nat.add_le_add (ih hxs) hx

theorem sumOf_le_of_sublist (f : α → Nat) {xs ys : List α} (h : xs.Sublist ys) :
    sumOf f xs ≤ sumOf f ys := by
  induction h with
  | slnil => exact Nat.le_refl _
  | cons y _ ih => exact Nat.le_add_left_of_le ih
  | cons_cons x _ ih => exact Nat.add_le_add_left ih _

end

end CodeAtlas
