/-
Lists without repetition.

`Text.insertAll xs ys` is `xs` and behind it what `ys` has that `xs` has not, each item once
and where it first occurs (`insertAll_eq_append`). So the items are those of the list, each of
them once, and leaving items out can be done in front or behind.
-/
import CodeAtlas.Text.Basic
import Mathlib.Data.List.Basic
import Mathlib.Data.List.Induction
import Mathlib.Data.List.Nodup

set_option autoImplicit false

namespace CodeAtlas.Text

variable {α : Type} [BEq α] [LawfulBEq α] {x y : α} {xs ys : List α}

theorem insertLast_of_mem (h : x ∈ xs) : insertLast xs x = xs :=
  if_pos (List.contains_iff_mem.mpr h)

theorem insertLast_of_notMem (h : x ∉ xs) : insertLast xs x = xs ++ [x] :=
  if_neg (mt List.contains_iff_mem.mp h)

theorem insertLast_cons_of_ne (h : y ≠ x) : insertLast (y :: xs) x = y :: insertLast xs x := by
  by_cases hx : x ∈ xs
  · rw [insertLast_of_mem hx, insertLast_of_mem (List.mem_cons_of_mem y hx)]
  · have hnew : x ∉ y :: xs := fun hmem => hx (List.mem_of_ne_of_mem h.symm hmem)
    rw [insertLast_of_notMem hx, insertLast_of_notMem hnew, List.cons_append]

theorem mem_insertLast : y ∈ insertLast xs x ↔ y ∈ xs ∨ y = x := by
  unfold insertLast
  split
  · rename_i hthere
    rw [List.contains_iff_mem] at hthere
    refine ⟨.inl, ?_⟩
    rintro (hy | rfl)
    · exact hy
    · exact hthere
  · rw [List.mem_append, List.mem_singleton]

theorem mem_insertAll : y ∈ insertAll xs ys ↔ y ∈ xs ∨ y ∈ ys := by
  induction ys generalizing xs with
  | nil => simp [insertAll]
  | cons z ys ih =>
    have hstep : insertAll xs (z :: ys) = insertAll (insertLast xs z) ys := rfl
    rw [hstep, ih, mem_insertLast, List.mem_cons, or_assoc]

@[simp] theorem mem_unrepeated : y ∈ unrepeated ys ↔ y ∈ ys := by
  simp [unrepeated, mem_insertAll]

theorem nodup_insertLast (h : xs.Nodup) : (insertLast xs x).Nodup := by
  unfold insertLast
  split
  · exact h
  · rename_i hnew
    rw [List.contains_iff_mem] at hnew
    refine List.nodup_append.mpr ⟨h, List.nodup_singleton x, fun a ha b hb heq => hnew ?_⟩
    rwa [← List.mem_singleton.mp hb, ← heq]

theorem nodup_insertAll (h : xs.Nodup) : (insertAll xs ys).Nodup := by
  induction ys generalizing xs with
  | nil => exact h
  | cons z ys ih => exact ih (nodup_insertLast h)

theorem nodup_unrepeated (ys : List α) : (unrepeated ys).Nodup := nodup_insertAll .nil

omit [LawfulBEq α] in
theorem unrepeated_append_singleton (ys : List α) (x : α) :
    unrepeated (ys ++ [x]) = insertLast (unrepeated ys) x := List.foldl_append

/-- Items stand in the order in which they first occur in another list, and go on to do so where
an item is added to both. -/
theorem pairwise_idxOf_insertLast (hmem : ∀ y ∈ xs, y ∈ ys)
    (h : xs.Pairwise fun a b => ys.idxOf a < ys.idxOf b) (hall : x ∈ ys → x ∈ xs) :
    (insertLast xs x).Pairwise fun a b => (ys ++ [x]).idxOf a < (ys ++ [x]).idxOf b := by
  have hsame : ∀ y ∈ xs, (ys ++ [x]).idxOf y = ys.idxOf y := fun y hy =>
    List.idxOf_append_of_mem (hmem y hy)
  have hstill : xs.Pairwise fun a b => (ys ++ [x]).idxOf a < (ys ++ [x]).idxOf b := by
    refine h.imp_of_mem fun ha hb hlt => ?_
    rwa [hsame _ ha, hsame _ hb]
  by_cases hx : x ∈ xs
  · rwa [insertLast_of_mem hx]
  · rw [insertLast_of_notMem hx]
    refine List.pairwise_append.mpr ⟨hstill, List.pairwise_singleton _ x, fun a ha b hb => ?_⟩
    rw [List.mem_singleton.mp hb, hsame a ha, List.idxOf_append_of_notMem (mt hall hx)]
    exact Nat.lt_of_lt_of_le (List.idxOf_lt_length_of_mem (hmem a ha)) (Nat.le_add_right _ _)

/-! ## Leaving items out -/

theorem filter_insertLast (p : α → Bool) (xs : List α) (x : α) :
    (insertLast xs x).filter p = if p x then insertLast (xs.filter p) x else xs.filter p := by
  unfold insertLast
  by_cases hx : p x = true
  · have hcontains : (xs.filter p).contains x = xs.contains x := by
      rw [Bool.eq_iff_iff, List.contains_iff_mem, List.contains_iff_mem, List.mem_filter]
      exact and_iff_left hx
    rw [if_pos hx, hcontains]
    split
    · rfl
    · rw [List.filter_append, List.filter_singleton, hx]
      rfl
  · rw [if_neg hx]
    split
    · rfl
    · rw [List.filter_append, List.filter_cons_of_neg hx, List.filter_nil, List.append_nil]

theorem filter_insertAll (p : α → Bool) (xs ys : List α) :
    (insertAll xs ys).filter p = insertAll (xs.filter p) (ys.filter p) := by
  induction ys generalizing xs with
  | nil => rfl
  | cons z ys ih =>
    have hstep : insertAll xs (z :: ys) = insertAll (insertLast xs z) ys := rfl
    rw [hstep, ih, filter_insertLast]
    by_cases hz : p z = true
    · rw [if_pos hz, List.filter_cons_of_pos hz]
      rfl
    · rw [if_neg hz, List.filter_cons_of_neg hz]

/-- What is left of a list, each once, is what is left where each stands once. -/
theorem filter_unrepeated (p : α → Bool) (ys : List α) :
    (unrepeated ys).filter p = unrepeated (ys.filter p) :=
  filter_insertAll p [] ys

/-! ## Adding items -/

/-- What is added to a list are the items of the other list that it has not, each once. -/
theorem insertAll_eq_append (xs ys : List α) :
    insertAll xs ys = xs ++ (unrepeated ys).filter (!xs.contains ·) := by
  induction ys using List.reverseRecOn with
  | nil => simp [insertAll, unrepeated]
  | append_singleton ys y ih =>
    have hstep : insertAll xs (ys ++ [y]) = insertLast (insertAll xs ys) y := List.foldl_append
    rw [hstep, ih, unrepeated_append_singleton, filter_insertLast]
    by_cases hy : xs.contains y = true
    · have hthere : (xs ++ (unrepeated ys).filter (!xs.contains ·)).contains y = true := by
        rw [List.contains_iff_mem] at hy ⊢
        exact List.mem_append_left _ hy
      rw [insertLast, if_pos hthere, if_neg (by simpa using hy)]
    · rw [if_pos (by simpa using hy)]
      have hsame : (xs ++ (unrepeated ys).filter (!xs.contains ·)).contains y =
          ((unrepeated ys).filter (!xs.contains ·)).contains y := by
        rw [Bool.eq_iff_iff, List.contains_iff_mem, List.contains_iff_mem, List.mem_append,
          or_iff_right (by simpa using hy)]
      rw [insertLast, insertLast, hsame]
      split
      · rfl
      · rw [List.append_assoc]

/-- Each item stands where it first occurs: the library has the same from the other end. -/
theorem unrepeated_eq_eraseDups (ys : List α) : unrepeated ys = ys.eraseDups := by
  induction hlen : ys.length using Nat.strongRecOn generalizing ys with
  | ind n ih =>
    subst hlen
    cases ys with
    | nil => rfl
    | cons y ys =>
      have hfirst : unrepeated (y :: ys) = insertAll [y] ys := rfl
      have hshort : (ys.filter (!([y] : List α).contains ·)).length < (y :: ys).length :=
        Nat.lt_succ_of_le (List.length_filter_le _ _)
      rw [hfirst, insertAll_eq_append, filter_unrepeated, ih _ hshort _ rfl, List.eraseDups_cons]
      simp

theorem unrepeated_of_nodup (h : ys.Nodup) : unrepeated ys = ys := by
  induction ys using List.reverseRecOn with
  | nil => rfl
  | append_singleton ys y ih =>
    rw [List.nodup_append] at h
    have hnew : y ∉ ys := fun hy => h.2.2 y hy y (List.mem_singleton_self y) rfl
    rw [unrepeated_append_singleton, ih h.1, insertLast_of_notMem hnew]

/-- Where the first list has each item once, the items of the second that are new follow it. -/
theorem unrepeated_append (h : xs.Nodup) :
    unrepeated (xs ++ ys) = xs ++ (unrepeated ys).filter (!xs.contains ·) := by
  have hsplit : unrepeated (xs ++ ys) = insertAll (unrepeated xs) ys := List.foldl_append
  rw [hsplit, unrepeated_of_nodup h, insertAll_eq_append]

/-- Items are taken from one list by several tests after another, each item once. They stand in
the order of the first test that they pass, and for one test in that of the list. -/
theorem pairwise_unrepeated_flatMap {κ : Type} {before : α → α → Prop} (hnodup : xs.Nodup)
    (hxs : xs.Pairwise before) (test : κ → α → Bool) (ks : List κ) :
    (unrepeated (ks.flatMap fun k => xs.filter (test k))).Pairwise fun a b =>
      ks.findIdx (test · a) < ks.findIdx (test · b) ∨
        (ks.findIdx (test · a) = ks.findIdx (test · b) ∧ before a b) := by
  induction ks with
  | nil => exact .nil
  | cons k ks ih =>
    rw [List.flatMap_cons, unrepeated_append (hnodup.filter _)]
    have hfirst : ∀ a ∈ xs.filter (test k), (k :: ks).findIdx (test · a) = 0 := by
      intro a ha
      rw [List.findIdx_cons, (List.mem_filter.mp ha).2]
      rfl
    -- what is left for the later tests has failed the first one
    have hlater : ∀ b, b ∈ unrepeated (ks.flatMap fun k => xs.filter (test k)) →
        (!(xs.filter (test k)).contains b) = true →
        (k :: ks).findIdx (test · b) = ks.findIdx (test · b) + 1 := by
      intro b hb hnew
      obtain ⟨k', -, hk'⟩ := List.mem_flatMap.mp (mem_unrepeated.mp hb)
      have hfails : test k b = false := by
        rw [Bool.eq_false_iff]
        intro htest
        have hmem := List.mem_filter.mpr ⟨(List.mem_filter.mp hk').1, htest⟩
        rw [List.contains_iff_mem.mpr hmem] at hnew
        cases hnew
      rw [List.findIdx_cons, hfails]
      rfl
    refine List.pairwise_append.mpr ⟨?_, ?_, fun a ha b hb => ?_⟩
    · refine (hxs.filter _).imp_of_mem fun ha hb hbefore => .inr ⟨?_, hbefore⟩
      rw [hfirst _ ha, hfirst _ hb]
    · refine (ih.filter _).imp_of_mem fun ha hb hbefore => ?_
      rw [List.mem_filter] at ha hb
      rw [hlater _ ha.1 ha.2, hlater _ hb.1 hb.2]
      exact hbefore.imp Nat.succ_lt_succ (·.imp_left (congrArg Nat.succ))
    · rw [List.mem_filter] at hb
      rw [hfirst _ ha, hlater _ hb.1 hb.2]
      exact .inl (Nat.succ_pos _)

end CodeAtlas.Text
