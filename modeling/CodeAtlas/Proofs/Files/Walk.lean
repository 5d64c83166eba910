/-
What a walk finds.

A file is found if it stands below the directory and every name on the way down is let in
(`mem_files`, `reaches_iff`). Sorting is stable, so a walk that lets in less finds some of the
files of one that lets in more, in the same order (`files_eq_filter`). The names of a place
can be read back from the path with slashes if no name holds one (`splitOn_slashed`).
-/
import CodeAtlas.Files.Walk
import Mathlib.Data.List.Sort
import Mathlib.Data.String.Basic

set_option autoImplicit false

namespace CodeAtlas

/-! ## Stable sorting -/

section

variable {α : Type} {le : α → α → Bool}

/-- Items can be left out before a list is sorted, or afterwards. -/
theorem filter_mergeSort (htrans : ∀ a b c, le a b = true → le b c = true → le a c = true)
    (htotal : ∀ a b, (le a b || le b a) = true) (p : α → Bool) (l : List α) :
    (l.mergeSort le).filter p = (l.filter p).mergeSort le := by
  induction l with
  | nil => simp
  | cons a l ih =>
    obtain ⟨l₁, l₂, hsort, hrest, hbefore⟩ := List.mergeSort_cons htrans htotal a l
    by_cases ha : p a = true
    · obtain ⟨m₁, m₂, hsort', hrest', hbefore'⟩ :=
        List.mergeSort_cons htrans htotal a (l.filter p)
      -- both lists are cut where `a` is no longer greater
      have hbehind : ∀ b ∈ l₂, le a b = true := by
        have hsorted := List.pairwise_mergeSort htrans htotal (a :: l)
        rw [hsort, List.pairwise_append, List.pairwise_cons] at hsorted
        exact hsorted.2.1.1
      have hbehind' : ∀ b ∈ m₂, le a b = true := by
        have hsorted := List.pairwise_mergeSort htrans htotal (a :: l.filter p)
        rw [hsort', List.pairwise_append, List.pairwise_cons] at hsorted
        exact hsorted.2.1.1
      have hsame : m₁ ++ m₂ = l₁.filter p ++ l₂.filter p := by
        rw [← hrest', ← ih, hrest, List.filter_append]
      have hcut : ∀ u v : List α, (∀ b ∈ u, (!le a b) = true) → (∀ b ∈ v, le a b = true) →
          (u ++ v).filter (fun b => !le a b) = u := by
        intro u v hu hv
        rw [List.filter_append, List.filter_eq_self.mpr hu,
          List.filter_eq_nil_iff.mpr fun b hb => by simp [hv b hb], List.append_nil]
      have hfront : m₁ = l₁.filter p := by
        rw [← hcut m₁ m₂ hbefore' hbehind', hsame]
        exact hcut _ _ (fun b hb => hbefore b (List.mem_filter.mp hb).1)
          fun b hb => hbehind b (List.mem_filter.mp hb).1
      have hback : m₂ = l₂.filter p := by
        rw [hfront] at hsame
        exact List.append_cancel_left hsame
      rw [hsort, List.filter_append, List.filter_cons_of_pos ha, List.filter_cons_of_pos ha,
        hsort', hfront, hback]
    · rw [hsort, List.filter_append, List.filter_cons_of_neg ha, List.filter_cons_of_neg ha,
        ← ih, hrest, List.filter_append]

end

/-! ## Paths with slashes -/

theorem slashed_append {lead rest : List String} (hlead : lead ≠ []) (hrest : rest ≠ []) :
    slashed (lead ++ rest) = slashed lead ++ '/' :: slashed rest := by
  rw [slashed, slashed, slashed, String.intercalate_append_of_ne_nil hlead hrest]
  simp

/-- A name as it can stand in a directory, without the character that counts as a slash. -/
def IsName (name : String) : Prop := name ≠ "" ∧ '/' ∉ name.toList ∧ '\\' ∉ name.toList

instance (name : String) : Decidable (IsName name) :=
  inferInstanceAs (Decidable (name ≠ "" ∧ '/' ∉ name.toList ∧ '\\' ∉ name.toList))

theorem slashed_singleton {name : String} (h : IsName name) : slashed [name] = name.toList := by
  rw [slashed, String.intercalate_singleton]
  have hkeep : ∀ c ∈ name.toList, (if c = '\\' then '/' else c) = c := by
    intro c hc
    rw [if_neg]
    rintro rfl
    exact h.2.2 hc
  rw [List.map_congr_left hkeep, List.map_id']

theorem slashed_of_isName {names : List String} (h : ∀ name ∈ names, IsName name) :
    slashed names = ['/'].intercalate (names.map String.toList) := by
  induction names with
  | nil => rfl
  | cons name rest ih =>
    obtain ⟨hname, hrest⟩ := List.forall_mem_cons.mp h
    cases rest with
    | nil => simp [slashed_singleton hname]
    | cons next rest =>
      rw [← List.singleton_append, slashed_append (List.cons_ne_nil _ _) (List.cons_ne_nil _ _),
        slashed_singleton hname, ih hrest]
      simp

theorem splitOn_slashed {names : List String} (h : ∀ name ∈ names, IsName name)
    (hne : names ≠ []) : (slashed names).splitOn '/' = names.map String.toList := by
  rw [slashed_of_isName h]
  refine List.splitOn_intercalate '/' (fun l hl => ?_) (by simpa using hne)
  obtain ⟨name, hname, rfl⟩ := List.mem_map.mp hl
  exact (h name hname).2.1

namespace Walk

/-- A place is reached if it is let in up to each of its names. -/
theorem reaches_iff {admits : List String → Bool → Bool} {names : List String} :
    reaches admits names = true ↔ ∀ lead name rest, names = lead ++ name :: rest →
      admits (lead ++ [name]) (!rest.isEmpty) = true := by
  rw [reaches, List.all_eq_true]
  constructor
  · rintro h lead name rest rfl
    have hstep := h lead.length (by simp)
    rw [List.take_append, List.take_of_length_le (Nat.le_succ _)] at hstep
    cases rest <;> simpa using hstep
  · intro h k hk
    rw [List.mem_range] at hk
    have hsplit : names = names.take k ++ names[k] :: names.drop (k + 1) := by simp
    have hstep := h _ _ _ hsplit
    rw [List.take_append_getElem] at hstep
    rw [← hstep]
    congr 1
    rw [Bool.eq_iff_iff, decide_eq_true_eq, Bool.not_eq_true', List.isEmpty_eq_false_iff,
      List.ne_nil_iff_length_pos, List.length_drop, Nat.sub_pos_iff_lt]

theorem below?_eq_some_iff {dir : Place} {entry : Place × Entry} {f : Found} :
    below? dir entry = some f ↔ entry = (dir ++ f.names, .file f.bytes) ∧ f.names ≠ [] := by
  obtain ⟨p, entry⟩ := entry
  obtain ⟨names, bytes⟩ := f
  cases entry with
  | dir => simp [below?]
  | file content =>
    simp only [below?, Option.ite_none_right_eq_some, Option.some.injEq, Found.mk.injEq,
      Bool.and_eq_true, List.isPrefixOf_iff_prefix, decide_eq_true_eq, Prod.mk.injEq,
      Entry.file.injEq]
    constructor
    · rintro ⟨⟨⟨rest, rfl⟩, hlt⟩, hnames, rfl⟩
      rw [List.drop_left] at hnames
      subst hnames
      refine ⟨⟨rfl, rfl⟩, ?_⟩
      rintro rfl
      simp at hlt
    · rintro ⟨⟨rfl, rfl⟩, hne⟩
      have hlength := List.length_pos_iff.mpr hne
      exact ⟨⟨List.prefix_append _ _, by rw [List.length_append]; omega⟩, List.drop_left, rfl⟩

variable {t : Tree} {dir : Place} {admits admits' : List String → Bool → Bool}

theorem mem_files {f : Found} :
    f ∈ files t dir admits ↔ (dir ++ f.names, .file f.bytes) ∈ t.entries ∧ f.names ≠ [] ∧
      reaches admits f.names = true := by
  rw [files, List.mem_mergeSort, List.mem_filter, List.mem_filterMap]
  constructor
  · rintro ⟨⟨entry, hentry, hbelow⟩, hreached⟩
    obtain ⟨rfl, hne⟩ := below?_eq_some_iff.mp hbelow
    exact ⟨hentry, hne, hreached⟩
  · rintro ⟨hentry, hne, hreached⟩
    exact ⟨⟨_, hentry, below?_eq_some_iff.mpr ⟨rfl, hne⟩⟩, hreached⟩

/-! ## The order of a walk -/

theorem order_trans (a b c : Found) (hab : (!decide (b.names < a.names)) = true)
    (hbc : (!decide (c.names < b.names)) = true) : (!decide (c.names < a.names)) = true := by
  rw [Bool.not_eq_true', decide_eq_false_iff_not, not_lt] at *
  exact le_trans hab hbc

theorem order_total (a b : Found) :
    (!decide (b.names < a.names) || !decide (a.names < b.names)) = true := by
  rw [Bool.or_eq_true, Bool.not_eq_true', Bool.not_eq_true', decide_eq_false_iff_not,
    decide_eq_false_iff_not, not_lt, not_lt]
  exact le_total _ _

/-- A walk that lets in less finds some of the files that one finds which lets in more. -/
theorem files_eq_filter
    (h : ∀ names, reaches admits names = true → reaches admits' names = true) :
    files t dir admits = (files t dir admits').filter fun f => reaches admits f.names := by
  rw [files, files, filter_mergeSort order_trans order_total, List.filter_filter]
  congr 1
  refine List.filter_congr fun f _ => ?_
  rw [Bool.eq_iff_iff, Bool.and_eq_true]
  exact ⟨fun hf => ⟨hf, h _ hf⟩, And.left⟩

/-- The files stand in the order of their names, each place once. -/
theorem pairwise_files (h : (t.entries.map (·.1)).Nodup) :
    (files t dir admits).Pairwise fun a b => a.names < b.names := by
  have hdistinct : (files t dir admits).Pairwise fun a b => a.names ≠ b.names := by
    have hfound : (t.entries.filterMap (below? dir)).Pairwise fun a b => a.names ≠ b.names := by
      refine List.Pairwise.filterMap _ (fun e e' hne f hf f' hf' heq => hne ?_)
        (List.pairwise_map.mp h)
      obtain ⟨rfl, -⟩ := below?_eq_some_iff.mp hf
      obtain ⟨rfl, -⟩ := below?_eq_some_iff.mp hf'
      rw [heq]
    exact (List.mergeSort_perm _ _).symm.pairwise (hfound.filter _) fun hne => Ne.symm hne
  have hsorted : (files t dir admits).Pairwise fun a b => (!decide (b.names < a.names)) = true :=
    List.pairwise_mergeSort order_trans order_total _
  refine hsorted.imp₂ (fun a b hle hne => ?_) hdistinct
  rw [Bool.not_eq_true', decide_eq_false_iff_not, not_lt] at hle
  exact lt_of_le_of_ne hle hne

end Walk

end CodeAtlas
