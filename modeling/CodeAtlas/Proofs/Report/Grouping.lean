/-
Groups, and how the report accounts for its files.

Grouping is one pass over the items: an item goes to the end of the group of its key, or into a new
group behind all others (`insertInto`). What makes a grouping (`IsGrouping`) holds before the first
item and is kept by each of them, so it holds of the whole pass; and the five facts leave no choice,
so they are all that can be said of the groups (`isGrouping_iff`).

The report is written from such groups. One directory after another, it has one section for each
file, and its totals are sums, which do not depend on the order of the sections.
-/
import CodeAtlas.Report.Text
import CodeAtlas.Proofs.Text.Unrepeated
import Mathlib.Data.List.Count
import Mathlib.Data.List.Perm.Basic

set_option autoImplicit false

namespace CodeAtlas

section

variable {α β κ : Type} [BEq κ] [LawfulBEq κ] {key : α → κ} {k k' : κ} {x : α} {xs g : List α}
  {groups : List (κ × List α)}

/-! ## One item more -/

/-- Puts the item at the end of the first group with the key, or into a new group behind all
others. -/
def insertInto (k : κ) (x : α) : List (κ × List α) → List (κ × List α)
  | [] => [(k, [x])]
  | (k', g) :: groups =>
    if k' == k then (k', g ++ [x]) :: groups else (k', g) :: insertInto k x groups

theorem insertInto_cons_self (k : κ) (x : α) (g : List α) (groups : List (κ × List α)) :
    insertInto k x ((k, g) :: groups) = (k, g ++ [x]) :: groups := by
  rw [insertInto, if_pos (beq_self_eq_true k)]

theorem insertInto_cons_of_ne (h : k' ≠ k) (x : α) (g : List α) (groups : List (κ × List α)) :
    insertInto k x ((k', g) :: groups) = (k', g) :: insertInto k x groups := by
  rw [insertInto, if_neg (by simpa using h)]

theorem map_fst_insertInto (k : κ) (x : α) (groups : List (κ × List α)) :
    (insertInto k x groups).map (·.1) = Text.insertLast (groups.map (·.1)) k := by
  induction groups with
  | nil => rfl
  | cons group groups ih =>
    obtain ⟨k', g⟩ := group
    by_cases hk : k' = k
    · subst hk
      rw [insertInto_cons_self, List.map_cons, List.map_cons,
        Text.insertLast_of_mem List.mem_cons_self]
    · rw [insertInto_cons_of_ne hk, List.map_cons, List.map_cons, Text.insertLast_cons_of_ne hk, ih]

/-- A group that is there behind the item was there in front of it, or it has the item at its end
and was there without it, or is new. -/
theorem mem_insertInto (h : (k', g) ∈ insertInto k x groups) :
    (k', g) ∈ groups ∨
      (k' = k ∧ ∃ g', g = g' ++ [x] ∧ (g' = [] ∨ (k, g') ∈ groups)) := by
  induction groups with
  | nil =>
    obtain ⟨rfl, rfl⟩ := Prod.mk.inj (List.mem_singleton.mp h)
    exact .inr ⟨rfl, [], rfl, .inl rfl⟩
  | cons group groups ih =>
    obtain ⟨k₀, g₀⟩ := group
    by_cases hk : k₀ = k
    · subst hk
      rw [insertInto_cons_self] at h
      rcases List.mem_cons.mp h with heq | hmem
      · obtain ⟨rfl, rfl⟩ := Prod.mk.inj heq
        exact .inr ⟨rfl, g₀, rfl, .inr List.mem_cons_self⟩
      · exact .inl (List.mem_cons_of_mem _ hmem)
    · rw [insertInto_cons_of_ne hk] at h
      rcases List.mem_cons.mp h with heq | hmem
      · exact .inl (heq ▸ List.mem_cons_self)
      · rcases ih hmem with hold | ⟨rfl, g', rfl, hg'⟩
        · exact .inl (List.mem_cons_of_mem _ hold)
        · exact .inr ⟨rfl, g', rfl, hg'.imp_right (List.mem_cons_of_mem _)⟩

/-- No item is lost, and none comes in but the new one. -/
theorem flatMap_insertInto (k : κ) (x : α) (groups : List (κ × List α)) :
    ((insertInto k x groups).flatMap (·.2)).Perm (groups.flatMap (·.2) ++ [x]) := by
  induction groups with
  | nil => exact .refl _
  | cons group groups ih =>
    obtain ⟨k', g⟩ := group
    by_cases hk : k' = k
    · subst hk
      rw [insertInto_cons_self, List.flatMap_cons, List.flatMap_cons, List.append_assoc,
        List.append_assoc]
      exact List.perm_append_comm.append_left g
    · rw [insertInto_cons_of_ne hk, List.flatMap_cons, List.flatMap_cons, List.append_assoc]
      exact ih.append_left g

/-! ## The pass -/

/-- The groups of keys that are told beforehand, with one item more. -/
theorem insertInto_map {ks : List κ} (hnodup : ks.Nodup) (f : κ → List α) (hnew : k ∉ ks → f k = [])
    (x : α) :
    insertInto k x (ks.map fun k' => (k', f k')) =
      (Text.insertLast ks k).map fun k' => (k', f k' ++ if k == k' then [x] else []) := by
  induction ks with
  | nil =>
    rw [List.map_nil, insertInto]
    simp [Text.insertLast, hnew List.not_mem_nil]
  | cons k₀ ks ih =>
    obtain ⟨hfresh, hnodup⟩ := List.nodup_cons.mp hnodup
    by_cases hk : k₀ = k
    · subst hk
      -- the keys behind the first one are others
      have hrest : ∀ k' ∈ ks, (k', f k') = (k', f k' ++ if k₀ == k' then [x] else []) := by
        intro k' hk'
        rw [if_neg (by simpa using fun h : k₀ = k' => hfresh (h ▸ hk')), List.append_nil]
      rw [List.map_cons, insertInto_cons_self, Text.insertLast_of_mem List.mem_cons_self,
        List.map_cons, if_pos (beq_self_eq_true k₀), List.map_congr_left hrest]
    · have hstill : k ∉ ks → f k = [] := fun h => hnew fun hmem =>
        h (List.mem_of_ne_of_mem (Ne.symm hk) hmem)
      rw [List.map_cons, insertInto_cons_of_ne hk, ih hnodup hstill, Text.insertLast_cons_of_ne hk,
        List.map_cons, if_neg (by simpa using Ne.symm hk), List.append_nil]

theorem groupBy_append_singleton (key : α → κ) (xs : List α) (x : α) :
    groupBy key (xs ++ [x]) = insertInto (key x) x (groupBy key xs) := by
  have hnew : key x ∉ Text.unrepeated (xs.map key) → xs.filter (key · == key x) = [] := by
    rw [Text.mem_unrepeated, List.mem_map, List.filter_eq_nil_iff]
    intro hfresh y hy hsame
    exact hfresh ⟨y, hy, by simpa using hsame⟩
  rw [groupBy, groupBy, insertInto_map (Text.nodup_unrepeated _) _ hnew, List.map_append,
    List.map_singleton, Text.unrepeated_append_singleton]
  refine List.map_congr_left fun k _ => ?_
  rw [List.filter_append, List.filter_singleton]
  cases key x == k <;> rfl

/-- Grouping is one pass over the items. -/
theorem groupBy_eq_foldl (key : α → κ) (xs : List α) :
    groupBy key xs = xs.foldl (fun groups x => insertInto (key x) x groups) [] := by
  induction xs using List.reverseRecOn with
  | nil => rfl
  | append_singleton xs x ih =>
    rw [groupBy_append_singleton, ih, List.foldl_append]
    rfl

/-! ## Groupings -/

/-- The groups have different keys, in the order in which the keys first occur among the items. A
group has at least one item, only items of its key, and in the order of the items. All groups
together have the items, each as often as it occurs. -/
structure IsGrouping (key : α → κ) (xs : List α) (groups : List (κ × List α)) : Prop where
  distinct : (groups.map (·.1)).Nodup
  first : (groups.map (·.1)).Pairwise fun j k => (xs.map key).idxOf j < (xs.map key).idxOf k
  keyed : ∀ k g, (k, g) ∈ groups → g ≠ [] ∧ ∀ x ∈ g, key x = k
  ordered : ∀ k g, (k, g) ∈ groups → g.Sublist xs
  whole : (groups.flatMap (·.2)).Perm xs

omit [LawfulBEq κ] in
theorem isGrouping_nil (key : α → κ) : IsGrouping key [] [] where
  distinct := .nil
  first := .nil
  keyed _ _ h := absurd h List.not_mem_nil
  ordered _ _ h := absurd h List.not_mem_nil
  whole := .refl _

omit [LawfulBEq κ] in
theorem IsGrouping.mem_keys (h : IsGrouping key xs groups) :
    k ∈ groups.map (·.1) ↔ k ∈ xs.map key := by
  rw [List.mem_map, List.mem_map]
  constructor
  · rintro ⟨⟨k, g⟩, hmem, rfl⟩
    obtain ⟨hne, hkey⟩ := h.keyed k g hmem
    obtain ⟨x, hx⟩ := List.exists_mem_of_ne_nil g hne
    exact ⟨x, (h.ordered k g hmem).subset hx, hkey x hx⟩
  · rintro ⟨x, hx, rfl⟩
    obtain ⟨⟨k, g⟩, hmem, hxg⟩ := List.mem_flatMap.mp (h.whole.mem_iff.mpr hx)
    exact ⟨(k, g), hmem, ((h.keyed k g hmem).2 x hxg).symm⟩

/-- What an item more keeps. -/
theorem IsGrouping.insertInto (h : IsGrouping key xs groups) (x : α) :
    IsGrouping key (xs ++ [x]) (insertInto (key x) x groups) where
  distinct := by
    rw [map_fst_insertInto]
    exact Text.nodup_insertLast h.distinct
  first := by
    rw [map_fst_insertInto, List.map_append, List.map_singleton]
    exact Text.pairwise_idxOf_insertLast (fun k hk => h.mem_keys.mp hk) h.first
      fun hk => h.mem_keys.mpr hk
  -- a group is an old one, or the one that the item was put into
  keyed k g hmem := by
    rcases mem_insertInto hmem with hold | ⟨rfl, g', rfl, hg'⟩
    · exact h.keyed k g hold
    · refine ⟨by simp, fun y hy => ?_⟩
      rcases List.mem_append.mp hy with hy | hy
      · rcases hg' with rfl | hold
        · cases hy
        · exact (h.keyed _ _ hold).2 y hy
      · rw [List.mem_singleton.mp hy]
  ordered k g hmem := by
    rcases mem_insertInto hmem with hold | ⟨rfl, g', rfl, hg'⟩
    · exact (h.ordered k g hold).trans (List.sublist_append_left xs [x])
    · refine List.Sublist.append ?_ (List.Sublist.refl [x])
      rcases hg' with rfl | hold
      · exact List.nil_sublist xs
      · exact h.ordered _ _ hold
  whole := (flatMap_insertInto (key x) x groups).trans (h.whole.append_right [x])

theorem isGrouping_groupBy (key : α → κ) (xs : List α) : IsGrouping key xs (groupBy key xs) := by
  induction xs using List.reverseRecOn with
  | nil => exact isGrouping_nil key
  | append_singleton xs x ih =>
    rw [groupBy_append_singleton]
    exact ih.insertInto x

/-! ## No other grouping -/

/-- Of all items those of one key are those of its group. -/
theorem filter_flatMap_groups (hdistinct : (groups.map (·.1)).Nodup)
    (hkeyed : ∀ k g, (k, g) ∈ groups → ∀ x ∈ g, key x = k) (hmem : (k, g) ∈ groups) :
    (groups.flatMap (·.2)).filter (key · == k) = g := by
  induction groups with
  | nil => cases hmem
  | cons group groups ih =>
    obtain ⟨k₀, g₀⟩ := group
    rw [List.map_cons, List.nodup_cons] at hdistinct
    have hrest : ∀ k g, (k, g) ∈ groups → ∀ x ∈ g, key x = k := fun k g h =>
      hkeyed k g (List.mem_cons_of_mem _ h)
    have hhead : ∀ x ∈ g₀, key x = k₀ := hkeyed k₀ g₀ List.mem_cons_self
    rw [List.flatMap_cons, List.filter_append]
    -- keys are distinct, so no other group has an item of this one
    rcases List.mem_cons.mp hmem with heq | hlater
    · obtain ⟨rfl, rfl⟩ := Prod.mk.inj heq
      have hown : g.filter (key · == k) = g := by
        rw [List.filter_eq_self]
        intro x hx
        rw [hhead x hx, beq_self_eq_true]
      have hothers : (groups.flatMap (·.2)).filter (key · == k) = [] := by
        rw [List.filter_eq_nil_iff]
        intro x hx hkey
        obtain ⟨⟨k', g'⟩, hg', hxg'⟩ := List.mem_flatMap.mp hx
        refine hdistinct.1 (List.mem_map.mpr ⟨(k', g'), hg', ?_⟩)
        rw [← hrest k' g' hg' x hxg', eq_of_beq hkey]
      rw [hown, hothers, List.append_nil]
    · have hne : k₀ ≠ k := by
        rintro rfl
        exact hdistinct.1 (List.mem_map.mpr ⟨(k₀, g), hlater, rfl⟩)
      have hothers : g₀.filter (key · == k) = [] := by
        rw [List.filter_eq_nil_iff]
        intro x hx hkey
        exact hne ((hhead x hx).symm.trans (eq_of_beq hkey))
      rw [hothers, List.nil_append]
      exact ih hdistinct.2 hrest hlater

theorem IsGrouping.eq_filter (h : IsGrouping key xs groups) (hmem : (k, g) ∈ groups) :
    g = xs.filter (key · == k) := by
  have hfilter : (groups.flatMap (·.2)).filter (key · == k) = g :=
    filter_flatMap_groups h.distinct (fun k g hg => (h.keyed k g hg).2) hmem
  have hperm : g.Perm (xs.filter (key · == k)) := by
    rw [← hfilter]
    exact h.whole.filter _
  have hown : g.filter (key · == k) = g := by
    rw [List.filter_eq_self]
    intro x hx
    rw [(h.keyed k g hmem).2 x hx, beq_self_eq_true]
  have hsub : g.Sublist (xs.filter (key · == k)) := by
    rw [← hown]
    exact (h.ordered k g hmem).filter _
  exact hsub.eq_of_length hperm.length_eq

theorem IsGrouping.eq_map (h : IsGrouping key xs groups) :
    groups = (groups.map (·.1)).map fun k => (k, xs.filter (key · == k)) := by
  rw [List.map_map]
  conv_lhs => rw [← List.map_id groups]
  refine List.map_congr_left fun group hmem => ?_
  exact Prod.ext rfl (h.eq_filter hmem)

/-- The groups are told by what a grouping is. -/
theorem isGrouping_iff : IsGrouping key xs groups ↔ groups = groupBy key xs := by
  constructor
  · intro h
    have h' := isGrouping_groupBy key xs
    have hperm : (groups.map (·.1)).Perm ((groupBy key xs).map (·.1)) :=
      (List.perm_ext_iff_of_nodup h.distinct h'.distinct).mpr fun k => by
        rw [h.mem_keys, h'.mem_keys]
    -- no two keys can stand in either order
    have hkeys : groups.map (·.1) = (groupBy key xs).map (·.1) :=
      hperm.eq_of_pairwise (fun a b _ _ hab hba => absurd hab (Nat.lt_asymm hba)) h.first h'.first
    rw [h.eq_map, h'.eq_map, hkeys]
  · rintro rfl
    exact isGrouping_groupBy key xs

/-! ## Counts -/

/-- The keys are different and stand in the order in which they first occur. Each has been counted,
and all counts together are as many as there are. -/
structure IsCount (ks : List κ) (counts : List (κ × Nat)) : Prop where
  distinct : (counts.map (·.1)).Nodup
  first : (counts.map (·.1)).Pairwise fun j k => ks.idxOf j < ks.idxOf k
  counted : ∀ k n, (k, n) ∈ counts → 0 < n ∧ n = ks.count k
  whole : sumOf (·.2) counts = ks.length

omit [BEq κ] [LawfulBEq κ] in
theorem sumOf_length_groups (groups : List (κ × List α)) :
    sumOf (fun group => group.2.length) groups = (groups.flatMap (·.2)).length := by
  induction groups with
  | nil => rfl
  | cons group groups ih => rw [sumOf_cons, ih, List.flatMap_cons, List.length_append]

theorem IsGrouping.isCount (h : IsGrouping key xs groups) :
    IsCount (xs.map key) (groups.map fun group => (group.1, group.2.length)) := by
  have hkeys : (groups.map fun group => (group.1, group.2.length)).map (·.1) =
      groups.map (·.1) := by
    rw [List.map_map]
    rfl
  refine ⟨?_, ?_, fun k n hmem => ?_, ?_⟩
  · rw [hkeys]
    exact h.distinct
  · rw [hkeys]
    exact h.first
  · obtain ⟨⟨k, g⟩, hg, heq⟩ := List.mem_map.mp hmem
    obtain ⟨rfl, rfl⟩ := Prod.mk.inj heq
    refine ⟨List.length_pos_of_ne_nil (h.keyed k g hg).1, ?_⟩
    rw [List.count, List.countP_map, List.countP_eq_length_filter, h.eq_filter hg]
    rfl
  · rw [List.length_map, ← h.whole.length_eq, ← sumOf_length_groups, sumOf, List.foldr_map]
    rfl

/-! ## Other keys -/

section

variable {κ' : Type} [BEq κ'] [LawfulBEq κ'] {f : κ → κ'}

theorem insertInto_map_key (hf : Function.Injective f) (k : κ) (x : α)
    (groups : List (κ × List α)) :
    insertInto (f k) x (groups.map fun group => (f group.1, group.2)) =
      (insertInto k x groups).map fun group => (f group.1, group.2) := by
  induction groups with
  | nil => rfl
  | cons group groups ih =>
    obtain ⟨k₀, g⟩ := group
    rw [List.map_cons]
    by_cases hk : k₀ = k
    · subst hk
      rw [insertInto_cons_self, insertInto_cons_self, List.map_cons]
    · rw [insertInto_cons_of_ne hk, insertInto_cons_of_ne (hf.ne hk), ih, List.map_cons]

/-- Keys that can be told apart by their names are grouped as their names are. -/
theorem groupBy_comp (hf : Function.Injective f) (key : α → κ) (xs : List α) :
    groupBy (fun x => f (key x)) xs =
      (groupBy key xs).map fun group => (f group.1, group.2) := by
  induction xs using List.reverseRecOn with
  | nil => rfl
  | append_singleton xs x ih =>
    rw [groupBy_append_singleton, groupBy_append_singleton, ih, insertInto_map_key hf]

end

end

/-! ## Totals -/

section

variable {os os' : List Outline}

theorem sumOf_perm {α : Type} {xs ys : List α} (count : α → Nat) (h : xs.Perm ys) :
    sumOf count xs = sumOf count ys := by
  induction h with
  | nil => rfl
  | cons x _ ih => rw [sumOf_cons, sumOf_cons, ih]
  | swap x y xs => simp only [sumOf_cons, Nat.add_left_comm]
  | trans _ _ ih ih' => exact ih.trans ih'

/-- A total and the part of it that is exported, as sums over files. -/
def Tally.IsSum {α : Type} (t : Tally) (os : List Outline) (items : Outline → List α)
    (exported : α → Bool) : Prop :=
  t.all = sumOf (fun o => (items o).length) os ∧
    t.exported = sumOf (fun o => (items o).countP exported) os

/-- Each total is a sum over the files. -/
structure Totals.IsSum (t : Totals) (os : List Outline) : Prop where
  files : t.files = os.length
  bytes : t.bytes = sumOf (·.size) os
  functions : t.functions.IsSum os (·.functions) (·.exported)
  classes : t.classes.IsSum os (·.classes) (·.exported)
  interfaces : t.interfaces.IsSum os (·.interfaces) (·.exported)
  types : t.types.IsSum os (·.types) (·.exported)
  constants : t.constants.IsSum os (·.constants) (·.exported)
  complexity : t.complexity = sumOf (·.complexity) os

theorem Tally.isSum_of {α : Type} (h : os.Perm os') (items : Outline → List α)
    (exported : α → Bool) : (Tally.of os items exported).IsSum os' items exported := by
  constructor
  · exact sumOf_perm _ h
  · simp only [List.countP_eq_length_filter]
    exact sumOf_perm _ h

theorem Totals.isSum_of (h : os.Perm os') : (Totals.of os).IsSum os' where
  files := h.length_eq
  bytes := sumOf_perm _ h
  functions := Tally.isSum_of h _ _
  classes := Tally.isSum_of h _ _
  interfaces := Tally.isSum_of h _ _
  types := Tally.isSum_of h _ _
  constants := Tally.isSum_of h _ _
  complexity := sumOf_perm _ h

end

/-! ## The report -/

theorem Purpose.title_injective : Function.Injective Purpose.title := by
  have hread : ∀ p : Purpose,
      ((Tag.all : List Purpose).find? fun p' => p'.title == p.title) = some p := by
    intro p
    cases p <;> decide +kernel
  intro p q h
  have hp := hread p
  rw [h, hread q] at hp
  exact (Option.some.inj hp).symm

/-- The titles of the purposes with their counts. -/
def titleCounts (os : List Outline) : List (String × Nat) :=
  (purposeCounts os).map fun p => (p.1.title, p.2)

theorem isCount_titleCounts (os : List Outline) :
    IsCount (os.map (·.purpose.title)) (titleCounts os) := by
  have hcounts : titleCounts os =
      (groupBy (·.purpose.title) os).map fun group => (group.1, group.2.length) := by
    rw [titleCounts, purposeCounts, groupBy_comp Purpose.title_injective, List.map_map,
      List.map_map]
    rfl
  rw [hcounts]
  exact (isGrouping_groupBy _ os).isCount

/-- The report accounts for every file once: in one group of one directory, in one count of a
purpose, in one section, and once in each total. -/
theorem Report.render_accounts (os : List Outline) (stamp : String) :
    (∀ groups, IsGrouping Outline.directory os groups ↔ groups = byDirectory os) ∧
    IsCount (os.map (·.purpose.title)) (titleCounts os) ∧
    (render os stamp = head os ++ purposes os ++ structure_ os ++ statistics os ++ exports os ++
        foot stamp ∧
      purposes os = paragraph "### 🎯 Назначения файлов" ++
        String.join ((titleCounts os).map fun (title, n) =>
          line ("**" ++ title ++ ":** " ++ toString n ++ " файлов")) ++ line "" ∧
      structure_ os = paragraph "## 📁 Структура" ++
        String.join ((byDirectory os).map fun (dir, files) =>
          paragraph ("### 📂 " ++ directoryTitle dir) ++ String.join (files.map fileSection)) ∧
      (((byDirectory os).flatMap (·.2)).map fileSection).Perm (os.map fileSection)) ∧
    (Totals.of os).IsSum ((byDirectory os).flatMap (·.2)) := by
  have hwhole : ((byDirectory os).flatMap (·.2)).Perm os := (isGrouping_groupBy _ os).whole
  refine ⟨fun groups => isGrouping_iff, isCount_titleCounts os, ⟨rfl, ?_, rfl, hwhole.map _⟩,
    Totals.isSum_of hwhole.symm⟩
  rw [purposes, titleCounts, List.map_map]
  rfl

end CodeAtlas
