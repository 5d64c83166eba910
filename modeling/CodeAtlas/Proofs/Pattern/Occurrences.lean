/-
The occurrences of a pattern, from left to right.

All occurrences are found by one pass over the spots of a text, with the answers in a column. Where
the column has no answer the pass goes on (`apart_of_none`), and behind an answer it goes on at the
end of the match (`apart_of_some`). So what is found in a text is found piece by piece.

Occurrences do not overlap. A text has room for as many of them as the shortest match of the
pattern (`minLength`) goes into its length.
-/
import CodeAtlas.Proofs.Pattern.Extend

set_option autoImplicit false

namespace CodeAtlas.Pattern

/-! ## From one spot to the next -/

theorem spots_append_subset (prev : Option Char) (u v : List Char) :
    spots (u.getLast?.or prev) v v.length ⊆ spots prev (u ++ v) (u ++ v).length := by
  induction u generalizing prev with
  | nil => exact List.Subset.refl _
  | cons c u ih =>
    have hlast := ih (some c)
    rw [List.getLast?_cons, Option.some_or, List.cons_append, spots, List.length_cons,
      Nat.add_sub_cancel]
    refine List.subset_cons_of_subset _ ?_
    cases hu : u.getLast? <;> rw [hu] at hlast <;> exact hlast

/-- The spots that a match covers are passed. -/
theorem apart_covered (col : Column) (prev : Option Char) (u v : List Char) :
    apart col u.length (spots prev (u ++ v) (u ++ v).length) =
      apart col 0 (spots (u.getLast?.or prev) v v.length) := by
  induction u generalizing prev with
  | nil => rfl
  | cons c u ih =>
    rw [List.getLast?_cons, Option.some_or, List.cons_append, spots, List.length_cons,
      List.length_cons, Nat.add_sub_cancel, apart, ih]
    cases u.getLast? <;> rfl

section

variable {p : Pattern} {col : Column} {prev : Option Char} {c : Char} {u v t : List Char}
  {r : Match}

/-- The column has the answers of the pattern at the spots of a text. -/
def Answers (p : Pattern) (col : Column) (prev : Option Char) (t : List Char) : Prop :=
  Holds col (p.run done) (spots prev t t.length)

theorem Answers.tail (h : Answers p col prev (c :: t)) : Answers p col (some c) t :=
  fun m hm => h m (List.mem_cons_of_mem _ hm)

theorem Answers.behind (h : Answers p col prev (u ++ v)) :
    Answers p col (u.getLast?.or prev) v := fun m hm => h m (spots_append_subset prev u v hm)

theorem Answers.first (h : Answers p col prev t) :
    col.at_ t.length = p.run done ⟨prev, t, t.length⟩ :=
  h ⟨prev, t, t.length⟩ (start_mem_spots prev t)

/-- A spot without a match is passed. -/
theorem apart_of_none (h : col.at_ (c :: t).length = none) :
    apart col 0 (spots prev (c :: t) (c :: t).length) =
      apart col 0 (spots (some c) t t.length) := by
  rw [spots, apart, h]
  rfl

/-- A match is found, and the pass goes on where it ends. -/
theorem apart_of_some (h : col.at_ (c :: (u ++ v)).length = some r)
    (hstop : r.stop.left = v.length) :
    apart col 0 (spots prev (c :: (u ++ v)) (c :: (u ++ v)).length) =
      (⟨prev, c :: (u ++ v), (c :: (u ++ v)).length⟩, r) ::
        apart col 0 (spots (u.getLast?.or (some c)) v v.length) := by
  have hwait : (c :: (u ++ v)).length - r.stop.left - 1 = u.length := by
    rw [hstop, List.length_cons, List.length_append]
    omega
  rw [spots, apart, h]
  show _ :: apart col ((c :: (u ++ v)).length - r.stop.left - 1)
    (spots (some c) (u ++ v) (u ++ v).length) = _
  rw [hwait, apart_covered]

end

/-! ## How many fit -/

/-- The least number of characters that a match takes. -/
def minLength : Pattern → Nat
  | exactly t => t.length
  | among ts => (ts.map List.length).min?.getD 0
  | one _ => 1
  | seq a b => minLength a + minLength b
  | either a b => min (minLength a) (minLength b)
  | _ => 0

theorem Matches.minLength_le {p : Pattern} {m m' : Spot} {ms : List (Slot × Spot)}
    (h : Matches p m m' ms) : m'.rest.length + p.minLength ≤ m.rest.length := by
  induction h with
  | exactly hrest =>
    rw [hrest, List.length_append, Nat.add_comm]
    exact Nat.le_refl _
  | @among ts t rest m ht hrest =>
    -- there is a shortest alternative, since one was matched
    obtain ⟨n, hn⟩ : ∃ n, (ts.map List.length).min? = some n := by
      refine Option.ne_none_iff_exists'.mp fun hnone => ?_
      rw [List.min?_eq_none_iff, List.map_eq_nil_iff] at hnone
      rw [hnone] at ht
      cases ht
    have hle : n ≤ t.length :=
      (List.min?_eq_some_iff.mp hn).2 _ (List.mem_map_of_mem ht)
    rw [hrest, List.length_append, minLength, hn, Option.getD_some, Nat.add_comm]
    exact Nat.add_le_add_right hle _
  | one _ hrest =>
    rw [hrest]
    exact Nat.le_refl _
  | many _ hrest | few _ hrest =>
    rw [hrest, List.length_append]
    exact Nat.le_add_left _ _
  | seq _ _ iha ihb =>
    rw [minLength]
    omega
  | left _ ih | right _ ih =>
    rw [minLength]
    omega
  | mark | first | last | edge => exact Nat.le_refl _

/-- Matches of at least `k` characters that do not overlap fit into the spots that are left. -/
theorem length_apart_mul_le {col : Column} {k : Nat} (hk : 0 < k) {prev : Option Char}
    {t : List Char} (hcol : ∀ m ∈ spots prev t t.length, ∀ r, col.at_ m.left = some r →
      r.stop.left + k ≤ m.left) (wait : Nat) :
    (apart col wait (spots prev t t.length)).length * k ≤ t.length - wait := by
  induction t generalizing prev wait with
  | nil =>
    cases wait with
    | succ wait => cases wait <;> simp [spots, apart]
    | zero =>
      -- behind the last character there is no room for a match
      have hnone : col.at_ 0 = none := by
        rw [Option.eq_none_iff_forall_ne_some]
        intro r hr
        have hroom := hcol _ List.mem_cons_self r hr
        simp only [List.length_nil] at hroom
        omega
      simp [spots, apart, hnone]
  | cons c t ih =>
    have hrest := @ih (some c) fun m hm => hcol m (List.mem_cons_of_mem _ hm)
    rw [spots, List.length_cons, Nat.add_sub_cancel]
    cases wait with
    | succ wait =>
      have hwait := hrest wait
      rw [apart]
      omega
    | zero =>
      cases hat : col.at_ (t.length + 1) with
      | none =>
        have hpass := hrest 0
        simp only [apart, hat]
        omega
      | some r =>
        have hroom : r.stop.left + k ≤ t.length + 1 := hcol _ List.mem_cons_self r hat
        have hbehind := hrest (t.length + 1 - r.stop.left - 1)
        simp only [apart, hat, List.length_cons, Nat.add_mul, Nat.one_mul]
        omega

/-- Occurrences do not overlap, so they fit into the text. -/
theorem count_mul_minLength_le (p : Pattern) (t : List Char) :
    p.count t * p.minLength ≤ t.length := by
  rcases Nat.eq_zero_or_pos p.minLength with hzero | hpos
  · rw [hzero, Nat.mul_zero]
    exact Nat.zero_le _
  · refine length_apart_mul_le hpos (fun m hm r hr => ?_) 0
    have hexact : m.Exact := (left_of_mem_spots hm).1
    rw [holds_allMatches p t m hm] at hr
    obtain ⟨m', ms, r', hmatch, hdone, rfl⟩ := exists_matches_of_run hr
    cases hdone
    have hlength := hmatch.minLength_le
    rw [← hexact, ← hmatch.exact hexact] at hlength
    exact hlength

end CodeAtlas.Pattern
