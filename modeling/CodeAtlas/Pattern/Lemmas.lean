/-
What finding a pattern means.

`Pattern.Search` finds matches by columns of answers. Here it is shown that a column
holds at each spot what `run` says there, so that `match?` and `allMatches` are `run`
with nothing to follow, and a law about patterns needs no columns.
-/
import CodeAtlas.Pattern.Search

set_option autoImplicit false

namespace CodeAtlas.Pattern

/-! ## The spots of a text -/

/-- A spot knows how long the text behind it is, which is no longer than the whole. -/
theorem left_of_mem_spots {prev : Option Char} {t : List Char} {m : Spot}
    (h : m ∈ spots prev t t.length) : m.left = m.rest.length ∧ m.left ≤ t.length := by
  induction t generalizing prev with
  | nil =>
    simp only [spots, List.length_nil, List.mem_singleton] at h
    simp [h]
  | cons c t ih =>
    simp only [spots, List.mem_cons, List.length_cons, Nat.add_sub_cancel] at h
    rcases h with rfl | h
    · simp
    · exact ⟨(ih h).1, Nat.le_succ_of_le (ih h).2⟩

theorem start_mem_spots (prev : Option Char) (t : List Char) :
    (⟨prev, t, t.length⟩ : Spot) ∈ spots prev t t.length := by
  cases t <;> simp [spots]

/-- The spot behind one more character is a spot of the same text. -/
theorem next_mem_spots {prev : Option Char} {t r : List Char} {m : Spot} {c : Char}
    (h : m ∈ spots prev t t.length) (hr : m.rest = c :: r) :
    ⟨some c, r, m.left - 1⟩ ∈ spots prev t t.length := by
  induction t generalizing prev with
  | nil =>
    simp only [spots, List.length_nil, List.mem_singleton] at h
    simp [h] at hr
  | cons d t ih =>
    simp only [spots, List.mem_cons, List.length_cons, Nat.add_sub_cancel] at h ⊢
    rcases h with rfl | h
    · obtain ⟨rfl, rfl⟩ := List.cons.inj hr
      exact Or.inr (start_mem_spots _ _)
    · exact Or.inr (ih h)

/-- The spot behind a text that was read is a spot of the same text. -/
theorem behind_mem_spots {prev : Option Char} {t w r : List Char} {m : Spot}
    (h : m ∈ spots prev t t.length) (hr : m.rest = w ++ r) :
    ⟨w.getLast?.or m.prev, r, m.left - w.length⟩ ∈ spots prev t t.length := by
  induction w generalizing m with
  | nil =>
    obtain ⟨pr, rest, left⟩ := m
    simp only [List.nil_append] at hr
    simpa [← hr] using h
  | cons c w ih =>
    have := ih (next_mem_spots h hr) rfl
    cases w with
    | nil => simpa using this
    | cons d w =>
      simpa [Nat.sub_sub, Nat.add_comm, List.getLast?_cons_cons, List.getLast?_eq_some_getLast]
        using this

/-! ## Columns -/

/-- The column holds the answers of `k` for the spots. -/
def Holds (col : Column) (k : Spot → Option Match) (ms : List Spot) : Prop :=
  ∀ m ∈ ms, col.at_ m.left = k m

/-- A column is filled from the last spot on. -/
theorem sweep_reverse (f : Spot → Column → Option Match) (ms : List Spot) :
    sweep f ms.reverse = ms.foldr (fun m col => col.push (f m col)) #[] := by
  simp [sweep, List.foldl_reverse]

theorem size_sweep_spots (f : Spot → Column → Option Match) (prev : Option Char) (t : List Char)
    (n : Nat) : (sweep f (spots prev t n).reverse).size = t.length + 1 := by
  rw [sweep_reverse]
  induction t generalizing prev n with
  | nil => simp [spots]
  | cons c t ih => simp [spots, ih]

theorem at_sweep_cons (f : Spot → Column → Option Match) (prev : Option Char) (c : Char)
    (t : List Char) (i : Nat) :
    (sweep f (spots prev (c :: t) (t.length + 1)).reverse).at_ i =
      if i = t.length + 1 then
        f ⟨prev, c :: t, t.length + 1⟩ (sweep f (spots (some c) t t.length).reverse)
      else (sweep f (spots (some c) t t.length).reverse).at_ i := by
  have size := size_sweep_spots f (some c) t t.length
  rw [sweep_reverse] at size ⊢
  simp only [spots, List.foldr_cons, Nat.add_sub_cancel, Column.at_, Array.getD_eq_getD_getElem?,
    Array.getElem?_push, ← sweep_reverse] at size ⊢
  rw [size]
  split <;> rfl

/-- A column holds `g` if each answer agrees with `g` as soon as the one behind it does. -/
theorem holds_sweep {f : Spot → Column → Option Match} {g : Spot → Option Match}
    {prev : Option Char} {t : List Char}
    (last : ∀ pr col, (⟨pr, [], 0⟩ : Spot) ∈ spots prev t t.length →
      f ⟨pr, [], 0⟩ col = g ⟨pr, [], 0⟩)
    (step : ∀ pr c r col, (⟨pr, c :: r, r.length + 1⟩ : Spot) ∈ spots prev t t.length →
      col.at_ r.length = g ⟨some c, r, r.length⟩ →
      f ⟨pr, c :: r, r.length + 1⟩ col = g ⟨pr, c :: r, r.length + 1⟩) :
    Holds (sweep f (spots prev t t.length).reverse) g (spots prev t t.length) := by
  induction t generalizing prev with
  | nil =>
    intro m h
    simp only [spots, List.length_nil, List.mem_singleton] at h
    subst h
    rw [sweep_reverse]
    simp [spots, Column.at_, last prev #[] (by simp [spots])]
  | cons c t ih =>
    have tail : Holds (sweep f (spots (some c) t t.length).reverse) g _ := ih
      (fun pr col h => last pr col (by simp [spots, h]))
      (fun pr d r col h => step pr d r col (by simp [spots, h]))
    intro m h
    rw [List.length_cons, at_sweep_cons]
    simp only [spots, List.length_cons, Nat.add_sub_cancel, List.mem_cons] at h
    rcases h with rfl | h
    · rw [if_pos rfl]
      exact step prev c t _ (by simp [spots]) (tail _ (start_mem_spots _ _))
    · have := (left_of_mem_spots h).2
      rw [if_neg (by omega)]
      exact tail m h

/-- A column holds `g` if each of its answers is that of `g`. -/
theorem holds_sweep_of_eq {f : Spot → Column → Option Match} {g : Spot → Option Match}
    {prev : Option Char} {t : List Char}
    (h : ∀ m ∈ spots prev t t.length, ∀ col, f m col = g m) :
    Holds (sweep f (spots prev t t.length).reverse) g (spots prev t t.length) :=
  holds_sweep (fun _ col hm => h _ hm col) (fun _ _ _ col hm _ => h _ hm col)

/-- The answer behind a text that is read at a spot. -/
theorem at_behind {col : Column} {k : Spot → Option Match} {prev : Option Char} {t : List Char}
    (hk : Holds col k (spots prev t t.length)) {m : Spot} (hm : m ∈ spots prev t t.length)
    (w : List Char) :
    (if w.isPrefixOf m.rest then col.at_ (m.left - w.length) else none) = runText w k m := by
  unfold runText
  cases h : Text.after? w m.rest with
  | none =>
    rw [if_neg]
    · rfl
    · intro hp
      obtain ⟨r, hr⟩ := List.isPrefixOf_iff_prefix.1 hp
      simp [Text.after?_eq_some_iff.2 hr.symm] at h
  | some r =>
    have hr := Text.after?_eq_some_iff.1 h
    rw [if_pos (List.isPrefixOf_iff_prefix.2 ⟨r, hr.symm⟩)]
    exact hk _ (behind_mem_spots hm hr)

/-- The column of a pattern holds what `run` says. -/
theorem holds_column (p : Pattern) {t : List Char} {back : Thunk (List Spot)}
    {col : Thunk Column} {k : Spot → Option Match}
    (hb : back.get = (spots none t t.length).reverse)
    (hk : Holds col.get k (spots none t t.length)) :
    Holds (p.column back col) (p.run k) (spots none t t.length) := by
  induction p generalizing col k with
  | exactly w =>
    unfold column
    split
    · next h =>
      obtain rfl : w = [] := by simpa using h
      intro m hm
      obtain ⟨pr, r, left⟩ := m
      simpa [run, runText, Text.after?] using hk _ hm
    · rw [hb]
      exact holds_sweep_of_eq fun m hm _ => at_behind hk hm w
  | among ws =>
    unfold column
    rw [hb]
    refine holds_sweep_of_eq fun m hm _ => ?_
    simp only [run, at_behind hk hm]
  | one p =>
    unfold column
    rw [hb]
    refine holds_sweep_of_eq fun m hm _ => ?_
    obtain ⟨pr, rest, left⟩ := m
    cases rest with
    | nil => rfl
    | cons c r => simp only [run, hk _ (next_mem_spots hm rfl)]
  | many p =>
    -- a repetition asks its own column one spot further on, so the sweep needs its step form
    unfold column
    rw [hb]
    refine holds_sweep (fun pr _ hm => ?_) (fun pr c r _ hm behind => ?_)
    · simp [run, runMany, hk _ hm]
    · simp only [run, runMany, Nat.add_sub_cancel, hk _ hm] at behind ⊢
      rw [behind]
  | few p =>
    unfold column
    rw [hb]
    refine holds_sweep (fun pr _ hm => ?_) (fun pr c r _ hm behind => ?_)
    · simp [run, runFew, hk _ hm]
    · simp only [run, runFew, Nat.add_sub_cancel, hk _ hm] at behind ⊢
      rw [behind]
  | seq a b iha ihb => exact iha (ihb hk)
  | either a b iha ihb =>
    unfold column
    rw [hb]
    exact holds_sweep_of_eq fun m hm _ => by simp only [run, iha hk m hm, ihb hk m hm]
  | mark | first | last | edge =>
    -- these take nothing: the answer is made from the one at the same spot
    unfold column
    rw [hb]
    exact holds_sweep_of_eq fun m hm _ => by simp only [run, hk m hm]

theorem holds_doneColumn {t : List Char} {back : Thunk (List Spot)}
    (hb : back.get = (spots none t t.length).reverse) :
    Holds (doneColumn back).get (fun m => some (.done m)) (spots none t t.length) := by
  show Holds (sweep _ back.get) _ _
  rw [hb]
  exact holds_sweep_of_eq fun _ _ _ => rfl

/-- All matches of a pattern are what `run` finds at the spots. -/
theorem holds_allMatches (p : Pattern) (t : List Char) :
    Holds (p.allMatches t) (p.run fun m => some (.done m)) (spots none t t.length) :=
  holds_column p rfl (holds_doneColumn rfl)

/-! ## At one spot -/

/-- The last answer of a column is the first that the longest repetition finds. -/
theorem lastOf_eq {col : Column} {k : Spot → Option Match} {prev : Option Char} {t : List Char}
    (hk : Holds col k (spots prev t t.length)) (p : Char → Bool) (best : Option Match)
    {pr : Option Char} {r : List Char} {n : Nat} (hm : ⟨pr, r, n⟩ ∈ spots prev t t.length) :
    lastOf p col best r n = (runMany p k pr r n).or best := by
  induction r generalizing pr n best with
  | nil => simp [lastOf, runMany, hk _ hm]
  | cons c r ih =>
    simp only [lastOf, runMany, hk _ hm]
    split
    · rw [ih _ (next_mem_spots hm rfl), Option.or_assoc]
    · rfl

/-- The first answer of a column is the first that the shortest repetition finds. -/
theorem firstOf_eq {col : Column} {k : Spot → Option Match} {prev : Option Char} {t : List Char}
    (hk : Holds col k (spots prev t t.length)) (p : Char → Bool)
    {pr : Option Char} {r : List Char} {n : Nat} (hm : ⟨pr, r, n⟩ ∈ spots prev t t.length) :
    firstOf p col r n = runFew p k pr r n := by
  induction r generalizing pr n with
  | nil => simp [firstOf, runFew, hk _ hm]
  | cons c r ih =>
    simp only [firstOf, runFew, hk _ hm, ih (next_mem_spots hm rfl)]
    cases k ⟨pr, c :: r, n⟩ <;> simp

/-- What the longest repetition finds behind all characters of the class counts. -/
theorem runMany_of_behindAll {p : Char → Bool} {k : Spot → Option Match} {pr : Option Char}
    {r : List Char} {n : Nat} {x : Match} (h : k (behindAll p pr r n) = some x) :
    runMany p k pr r n = some x := by
  induction r generalizing pr n with
  | nil => simpa [behindAll, runMany] using h
  | cons c r ih =>
    simp only [behindAll, runMany] at h ⊢
    split at h
    · simp [*]
    · simp [*]

/-- The spot behind all characters of a class is a spot of the same text. -/
theorem behindAll_mem_spots {prev : Option Char} {t : List Char} (p : Char → Bool)
    {pr : Option Char} {r : List Char} {n : Nat} (hm : ⟨pr, r, n⟩ ∈ spots prev t t.length) :
    behindAll p pr r n ∈ spots prev t t.length := by
  induction r generalizing pr n with
  | nil => exact hm
  | cons c r ih =>
    unfold behindAll
    split
    · exact ih (next_mem_spots hm rfl)
    · exact hm

/-- Where no character of the class stands, only the preferred end is left. -/
theorem runMany_of_not {p : Char → Bool} {k : Spot → Option Match} {m : Spot}
    (h : m.rest.head?.any p = false) :
    runMany p k m.prev m.rest m.left = k (behindAll p m.prev m.rest m.left) := by
  obtain ⟨pr, rest, left⟩ := m
  cases rest with
  | nil => rfl
  | cons c r =>
    simp only [List.head?_cons, Option.any_some] at h
    simp [runMany, behindAll, h]

/-- Where no character of the class stands, the shortest repetition is the only one. -/
theorem runFew_of_not {p : Char → Bool} {k : Spot → Option Match} {m : Spot}
    (h : m.rest.head?.any p = false) : runFew p k m.prev m.rest m.left = k m := by
  obtain ⟨pr, rest, left⟩ := m
  cases rest with
  | nil => rfl
  | cons c r =>
    simp only [List.head?_cons, Option.any_some] at h
    simp [runFew, h]

/-- What the shortest repetition finds at once counts. -/
theorem runFew_of_some {p : Char → Bool} {k : Spot → Option Match} {m : Spot} {x : Match}
    (h : k m = some x) : runFew p k m.prev m.rest m.left = some x := by
  obtain ⟨pr, rest, left⟩ := m
  cases rest <;> simp [runFew, h]

/-- Following a pattern at a spot is running it there. -/
theorem follow_eq_run (p : Pattern) {t : List Char} {back : Thunk (List Spot)}
    {col : Thunk Column} {k k' : Spot → Option Match}
    (hb : back.get = (spots none t t.length).reverse)
    (hk : Holds col.get k (spots none t t.length))
    (hk' : ∀ m ∈ spots none t t.length, k' m = k m) {m : Spot}
    (hm : m ∈ spots none t t.length) :
    p.follow back k' col m = p.run k m := by
  -- `k'` is asked along the preferred way and the column everywhere else: both hold `k`
  induction p generalizing col k k' m with
  | exactly w =>
    simp only [follow, run, runText]
    cases h : Text.after? w m.rest with
    | none => rfl
    | some r => exact hk' _ (behind_mem_spots hm (Text.after?_eq_some_iff.1 h))
  | among ws =>
    simp only [follow, run]
    congr 1
    funext w
    unfold runText
    cases h : Text.after? w m.rest with
    | none => rfl
    | some r => exact hk' _ (behind_mem_spots hm (Text.after?_eq_some_iff.1 h))
  | one p =>
    obtain ⟨pr, rest, left⟩ := m
    cases rest with
    | nil => rfl
    | cons c r => simp only [follow, run, hk' _ (next_mem_spots hm rfl)]
  | many p =>
    -- the preferred end is behind all characters of the class; the column has the others
    simp only [follow, run, hk' _ (behindAll_mem_spots p hm)]
    split
    · next h => exact (runMany_of_behindAll h).symm
    · next h =>
      split
      · rw [lastOf_eq hk p none hm, Option.or_none]
      · next ha => rw [runMany_of_not (by simpa using ha), h]
  | few p =>
    simp only [follow, run, hk' _ hm]
    split
    · next h => exact (runFew_of_some h).symm
    · next h =>
      split
      · exact firstOf_eq hk p hm
      · next ha => rw [runFew_of_not (by simpa using ha), h]
  | seq a b iha ihb =>
    have behind : Holds (Thunk.mk fun _ => b.column back col).get (b.run k) _ :=
      holds_column b hb hk
    exact iha behind (fun m hm => ihb hk hk' hm) hm
  | either a b iha ihb =>
    simp only [follow, run, iha hk hk' hm, ihb hk hk' hm]
    cases a.run k m <;> rfl
  | mark | first | last | edge => simp only [follow, run, hk' _ hm]

/-- The match at the start of a text. -/
theorem match?_eq_run (p : Pattern) (t : List Char) :
    p.match? t = p.run (fun m => some (.done m)) (.start t) :=
  follow_eq_run p rfl (holds_doneColumn rfl) (fun _ _ => rfl) (start_mem_spots none t)

end CodeAtlas.Pattern
