/-
Following a pattern along a text.

That a pattern matches a text has to be shown by running it, since the relation `Matches` says
which matches there are and not which one is found. The equations follow a pattern along a
text that is given in pieces, each piece with what stands behind it. `Finds` is what they come
to where no choice is taken back: the spot to which a pattern leads, and the marks on the way.

The other direction asks how much a repetition took. It is all that there was if what follows
does not need any of it (`exists_all_of_run_many`).
-/
import CodeAtlas.Proofs.Pattern.Parts

set_option autoImplicit false

namespace CodeAtlas

namespace Pattern

/-! ## Equations -/

variable {p : Char → Bool} {k : Spot → Option Match} {m : Spot} {r : Match} {w rest : List Char}

theorem run_one {c : Char} (hm : m.rest = c :: rest) (hc : p c = true) :
    (one p).run k m = k (m.behind [c] rest) := by
  rw [run, hm]
  simp only [hc, if_true]
  rfl

theorem run_one_of_not {c : Char} (hm : m.rest = c :: rest) (hc : p c = false) :
    (one p).run k m = none := by
  rw [run, hm]
  simp only [hc, Bool.false_eq_true, if_false]

theorem run_lit {s : String} (hm : m.rest = s.toList ++ rest) :
    (lit s).run k m = k (m.behind s.toList rest) := by
  have hafter : Text.after? s.toList m.rest = some rest := Text.after?_eq_some_iff.mpr hm
  rw [lit, run, runText, hafter]
  rfl

theorem behindAll_append (hw : ∀ c ∈ w, p c = true) (hrest : rest.head?.any p = false)
    (prev : Option Char) (left : Nat) :
    behindAll p prev (w ++ rest) left = ⟨w.getLast?.or prev, rest, left - w.length⟩ := by
  induction w generalizing prev left with
  | nil =>
    cases rest with
    | nil => rfl
    | cons c rest =>
      have hc : p c = false := hrest
      rw [List.nil_append, behindAll, hc]
      rfl
  | cons c w ih =>
    obtain ⟨hc, hw⟩ := List.forall_mem_cons.mp hw
    rw [List.cons_append, behindAll, if_pos hc, ih hw, List.getLast?_cons, List.length_cons,
      Nat.sub_sub, Nat.add_comm 1]
    cases w.getLast? <;> rfl

theorem takeWhile_append_of_ends (hw : ∀ c ∈ w, p c = true) (hrest : rest.head?.any p = false) :
    (w ++ rest).takeWhile p = w := by
  rw [List.takeWhile_append_of_pos hw]
  cases rest with
  | nil => simp
  | cons c rest =>
    have hc : ¬ p c = true := Bool.eq_false_iff.mp hrest
    rw [List.takeWhile_cons_of_neg hc, List.append_nil]

theorem dropWhile_append_of_ends (hw : ∀ c ∈ w, p c = true) (hrest : rest.head?.any p = false) :
    (w ++ rest).dropWhile p = rest := by
  rw [List.dropWhile_append_of_pos hw]
  cases rest with
  | nil => rfl
  | cons c rest => exact List.dropWhile_cons_of_neg (Bool.eq_false_iff.mp hrest)

/-- A repetition takes all characters of its class if what follows succeeds behind them. -/
theorem run_many (hm : m.rest = w ++ rest) (hw : ∀ c ∈ w, p c = true)
    (hrest : rest.head?.any p = false) (hk : k (m.behind w rest) = some r) :
    (many p).run k m = some r := by
  rw [run, hm]
  refine runMany_of_behindAll ?_
  rw [behindAll_append hw hrest]
  exact hk

/-- A repetition that takes as little as it can stops where what follows first succeeds. -/
theorem run_few (hm : m.rest = w ++ rest) (hw : ∀ c ∈ w, p c = true)
    (hnone : ∀ u c v, w = u ++ c :: v → k (m.behind u (c :: v ++ rest)) = none)
    (hk : k (m.behind w rest) = some r) : (few p).run k m = some r := by
  rw [run, hm]
  obtain ⟨prev, t, left⟩ := m
  obtain rfl : t = w ++ rest := hm
  induction w generalizing prev left with
  | nil =>
    have hhere : k ⟨prev, rest, left⟩ = some r := by
      rwa [← Spot.behind_nil ⟨prev, rest, left⟩]
    cases rest with
    | nil => exact hhere
    | cons c rest => rw [List.nil_append, runFew, hhere, Option.some_or]
  | cons c w ih =>
    obtain ⟨hc, hw⟩ := List.forall_mem_cons.mp hw
    have hhere : k ⟨prev, c :: (w ++ rest), left⟩ = none := by
      have hstart := hnone [] c w rfl
      rwa [← List.cons_append, ← Spot.behind_nil ⟨prev, c :: w ++ rest, left⟩]
    rw [List.cons_append, runFew, hhere, Option.none_or, if_pos hc]
    refine ih hw (some c) (left - 1) ?_ ?_
    · intro u d v hsplit
      have hlater := hnone (c :: u) d v (by rw [hsplit]; rfl)
      rwa [Spot.behind_cons _ c u _ (w ++ rest)] at hlater
    · rwa [Spot.behind_cons _ c w rest (w ++ rest)] at hk

theorem run_keep (s : Slot) (a : Pattern) :
    (keep s a).run k m = (a.run (fun m' => (k m').map (·.mark s m')) m).map (·.mark s m) := by
  simp only [keep, run_append, run]

/-- A part of at least one character that takes as little as it can is kept up to where what follows
first succeeds. -/
theorem run_keep_few1 {c : Char} (s : Slot) (hm : m.rest = c :: (w ++ rest))
    (hw : ∀ d ∈ c :: w, p d = true)
    (hnone : ∀ u d v, w = u ++ d :: v → k (m.behind (c :: u) (d :: v ++ rest)) = none)
    (hk : k (m.behind (c :: w) rest) = some r) :
    (keep s (few1 p)).run k m = some ((r.mark s (m.behind (c :: w) rest)).mark s m) := by
  obtain ⟨hc, hw⟩ := List.forall_mem_cons.mp hw
  rw [run_keep, few1, run_append, run_one hm hc]
  have hrun := run_few (m := m.behind [c] (w ++ rest)) (k := fun m' => (k m').map (·.mark s m'))
    (r := r.mark s (m.behind (c :: w) rest)) rfl hw
    (fun u d v hsplit => by rw [← Spot.behind_cons, hnone u d v hsplit]; rfl)
    (by rw [← Spot.behind_cons, hk]; rfl)
  rw [hrun]
  rfl

/-- The empty text stands everywhere. -/
theorem run_nothing : (lit "").run k m = k m := by
  have hempty : m.rest = "".toList ++ m.rest := rfl
  rw [run_lit hempty]
  exact congrArg k m.behind_nil

/-- What may be left out is left out where it does not match. -/
theorem run_opt_of_none {a : Pattern} (h : a.run k m = none) : (opt a).run k m = k m := by
  show (a.run k m).or ((lit "").run k m) = k m
  rw [h, run_nothing]
  rfl

theorem run_lit_of_none {s : String} (h : Text.after? s.toList m.rest = none) :
    (lit s).run k m = none := by
  rw [lit, run, runText, h]
  rfl

theorem run_append_of_lit {s : String} {b : Pattern} (h : Text.after? s.toList m.rest = none) :
    (lit s ++ b).run k m = none := by
  rw [run_append]
  exact run_lit_of_none h

theorem run_oneOf {ws : List String} {v : String} (hv : v ∈ ws) (hm : m.rest = v.toList ++ rest)
    (hapart : ∀ u ∈ ws, u ≠ v → Text.after? u.toList m.rest = none)
    (hk : k (m.behind v.toList rest) = some r) : (oneOf ws).run k m = some r := by
  show (ws.map String.toList).findSome? (fun t => runText t k m) = some r
  induction ws with
  | nil => simp at hv
  | cons u ws ih =>
    rw [List.map_cons, List.findSome?_cons]
    by_cases hu : u = v
    · have hrun : runText u.toList k m = some r := by
        rw [hu, ← hk]
        exact run_lit hm
      rw [hrun]
    · have hnone : runText u.toList k m = none := by
        rw [runText, hapart u List.mem_cons_self hu]
        rfl
      rw [hnone]
      refine ih ?_ fun t ht => hapart t (List.mem_cons_of_mem u ht)
      exact (List.mem_cons.mp hv).resolve_left (Ne.symm hu)

/-! ## The match that is found -/

/-- Followed from the first spot on, the pattern is first matched up to the second one, with
the marks. -/
def Finds (p : Pattern) (m m' : Spot) (ms : List (Slot × Spot)) : Prop :=
  ∀ ⦃k : Spot → Option Match⦄ ⦃r : Match⦄, k m' = some r → p.run k m = some (Match.after ms r)

variable {a b : Pattern} {m' m'' : Spot} {ms ms' : List (Slot × Spot)}

theorem Finds.append (ha : Finds a m m' ms) (hb : Finds b m' m'' ms') :
    Finds (a ++ b) m m'' (ms ++ ms') := by
  intro k r hk
  rw [run_append, ha (hb hk)]
  simp [Match.after]

theorem Finds.match? {t : List Char} (h : Finds a (.start t) m' ms) :
    a.match? t = some ⟨m', ms⟩ := by
  rw [match?_eq_run, h (k := fun m => some (.done m)) rfl]
  simp [Match.after, Match.done]

/-- What is found is a match. -/
theorem Finds.matches (h : Finds a m m' ms) : Matches a m m' ms := by
  obtain ⟨m₁, ms₁, r₁, hmatch, hk, heq⟩ :=
    exists_matches_of_run (h (k := fun m => some (.done m)) rfl)
  cases hk
  have hstop : m' = m₁ := congrArg Match.stop heq
  have hmarks : ms ++ [] = ms₁ ++ [] := congrArg Match.marks heq
  rw [List.append_nil, List.append_nil] at hmarks
  rw [hstop, hmarks]
  exact hmatch

theorem finds_lit {s : String} (hm : m.rest = s.toList ++ rest) :
    Finds (lit s) m (m.behind s.toList rest) [] := fun _ _ hk => (run_lit hm).trans hk

theorem finds_one {c : Char} (hm : m.rest = c :: rest) (hc : p c = true) :
    Finds (one p) m (m.behind [c] rest) [] := fun _ _ hk => (run_one hm hc).trans hk

theorem finds_many (hm : m.rest = w ++ rest) (hw : ∀ c ∈ w, p c = true)
    (hrest : rest.head?.any p = false) : Finds (many p) m (m.behind w rest) [] :=
  fun _ _ hk => run_many hm hw hrest hk

theorem finds_many_nothing (h : m.rest.head?.any p = false) : Finds (many p) m m [] := by
  have hnothing : Finds (many p) m (m.behind [] m.rest) [] :=
    finds_many rfl (List.forall_mem_nil _) h
  rwa [Spot.behind_nil] at hnothing

theorem finds_edge (h : m.isEdge = true) : Finds edge m m [] := by
  intro k r hk
  rw [run, if_pos h, hk]
  rfl

theorem finds_last (h : m.rest = []) : Finds last m m [] := by
  intro k r hk
  rw [run, h, List.isEmpty_nil, if_pos rfl, hk]
  rfl

/-- As little as possible is taken up to where what follows matches for the first time. -/
theorem finds_few (hm : m.rest = w ++ rest) (hw : ∀ c ∈ w, p c = true)
    (hnone : ∀ u c v, w = u ++ c :: v → ∀ k, a.run k (m.behind u (c :: v ++ rest)) = none)
    (ha : Finds a (m.behind w rest) m' ms) (slot : Slot) :
    Finds (few p ++ a) m m' ms ∧
      Finds (keep slot (few p) ++ a) m m' ((slot, m) :: (slot, m.behind w rest) :: ms) := by
  constructor
  · intro k r hk
    rw [run_append]
    exact run_few hm hw (fun u c v hsplit => hnone u c v hsplit k) (ha hk)
  · intro k r hk
    rw [run_append, run_keep]
    have hrun := run_few (k := fun m' => (a.run k m').map (·.mark slot m')) hm hw
      (r := (Match.after ms r).mark slot (m.behind w rest)) (fun u c v hsplit => by
        rw [hnone u c v hsplit k]
        rfl) (by rw [ha hk]; rfl)
    rw [hrun]
    rfl

/-- The text in front of the first sign is taken, with the sign. -/
theorem finds_few_sign {d : Char} {s : String} (hs : s.toList = [d])
    (hm : m.rest = w ++ d :: rest) (hw : ∀ c ∈ w, p c = true) (hd : d ∉ w) (slot : Slot) :
    Finds (few p ++ lit s) m ((m.behind w (d :: rest)).behind [d] rest) [] ∧
      Finds (keep slot (few p) ++ lit s) m ((m.behind w (d :: rest)).behind [d] rest)
        [(slot, m), (slot, m.behind w (d :: rest))] := by
  refine finds_few hm hw (fun u c v hsplit k => ?_) ?_ slot
  · apply run_lit_of_none
    rw [hs]
    refine if_neg ?_
    rintro rfl
    exact hd (hsplit ▸ List.mem_append_right u List.mem_cons_self)
  · have hrest : (m.behind w (d :: rest)).rest = s.toList ++ rest := by rw [hs]; rfl
    have hfound := finds_lit hrest
    rwa [hs] at hfound

theorem finds_oneOf {ws : List String} {v : String} (hv : v ∈ ws) (hm : m.rest = v.toList ++ rest)
    (hapart : ∀ u ∈ ws, u ≠ v → Text.after? u.toList m.rest = none) :
    Finds (oneOf ws) m (m.behind v.toList rest) [] := fun _ _ hk => run_oneOf hv hm hapart hk

theorem Finds.keep (h : Finds a m m' ms) (s : Slot) :
    Finds (keep s a) m m' ((s, m) :: ms ++ [(s, m')]) := by
  intro k r hk
  rw [run_keep, h (r := r.mark s m') (by rw [hk]; rfl)]
  simp [Match.after, Match.mark]

theorem Finds.opt (h : Finds a m m' ms) : Finds (opt a) m m' ms := by
  intro k r hk
  show (a.run k m).or _ = _
  rw [h hk]
  rfl

theorem finds_opt_nothing (h : ∀ k, a.run k m = none) : Finds (opt a) m m [] :=
  fun k _ hk => (run_opt_of_none (h k)).trans hk

theorem finds_opt_of_not (h : ∀ m' ms, ¬ Matches a m m' ms) : Finds (opt a) m m [] := by
  apply finds_opt_nothing
  intro k
  refine Option.eq_none_iff_forall_ne_some.mpr ?_
  intro r hr
  obtain ⟨m', ms, -, hmatch, -⟩ := exists_matches_of_run hr
  exact h m' ms hmatch

/-! ## Repetitions that give nothing back -/

/-- What follows succeeds whatever stands there, if what comes behind it does. -/
def Total (b : Pattern) : Prop :=
  ∀ ⦃k : Spot → Option Match⦄, (∀ m, (k m).isSome = true) → ∀ m, (b.run k m).isSome = true

theorem total_opt (a : Pattern) : Total (opt a) := by
  intro k hk m
  show ((a.run k m).or ((lit "").run k m)).isSome = true
  rw [run_nothing, Option.isSome_or, hk m, Bool.or_true]

theorem total_many (p : Char → Bool) : Total (many p) := by
  intro k hk m
  obtain ⟨r, hr⟩ := Option.isSome_iff_exists.mp (hk (behindAll p m.prev m.rest m.left))
  rw [run, runMany_of_behindAll hr]
  rfl

theorem Total.append (ha : Total a) (hb : Total b) : Total (a ++ b) := by
  intro k hk m
  rw [run_append]
  exact ha (hb hk) m

/-- What follows a repetition does not tempt it to give anything back: it succeeds anywhere,
or nowhere in front of a character of the class. -/
def Leaves (p : Char → Bool) (k : Spot → Option Match) : Prop :=
  (∀ m, (k m).isSome = true) ∨ ∀ m r, k m = some r → m.rest.head?.any p = false

/-- Such a repetition takes all characters of its class. -/
theorem exists_all_of_run_many (hk : Leaves p k) (h : (many p).run k m = some r) :
    ∃ w rest, (∀ c ∈ w, p c = true) ∧ m.rest = w ++ rest ∧ rest.head?.any p = false ∧
      k (m.behind w rest) = some r := by
  rcases hk with htotal | hrefuses
  · have hrest : (m.rest.dropWhile p).head?.any p = false := by
      have hhead := List.head?_dropWhile_not p m.rest
      cases hdrop : (m.rest.dropWhile p).head? with
      | none => rfl
      | some c =>
        rw [hdrop] at hhead
        exact hhead
    have hall : ∀ c ∈ m.rest.takeWhile p, p c = true := List.all_eq_true.mp List.all_takeWhile
    have hsplit := (List.takeWhile_append_dropWhile (p := p) (l := m.rest)).symm
    obtain ⟨r', hr'⟩ := Option.isSome_iff_exists.mp
      (htotal (m.behind (m.rest.takeWhile p) (m.rest.dropWhile p)))
    obtain rfl : r' = r := Option.some.inj ((run_many hsplit hall hrest hr').symm.trans h)
    exact ⟨_, _, hall, hsplit, hrest, hr'⟩
  · obtain ⟨w, rest, hw, hm, hk⟩ := exists_of_runMany h
    exact ⟨w, rest, hw, hm, hrefuses _ _ hk, hk⟩

end Pattern

end CodeAtlas
