/-
What a match says about its text.

`Pattern.run` looks for one way to match and prefers some ways to others. `Matches` is
the relation behind it, without preference and without a continuation: it holds between
two spots of a text and the marks left between them. A match that is found is one of the
relation (`matches_of_match?`), so that what a caller needs to know of a match, such as
the text in front of its end or the parts that it cannot have, is an induction or an
inversion on the relation and never a run. Conversely a run succeeds if it succeeds behind some
match of the relation (`Matches.isSome_run`), though the match it finds may be another one.
-/
import CodeAtlas.Pattern.Lemmas
import Mathlib.Data.List.Basic

set_option autoImplicit false

namespace CodeAtlas

/-- The spot behind `w`, where `rest` follows. -/
def Spot.behind (m : Spot) (w rest : List Char) : Spot :=
  ⟨w.getLast?.or m.prev, rest, m.left - w.length⟩

theorem Spot.behind_nil (m : Spot) : m.behind [] m.rest = m := by
  simp [behind]

theorem Spot.behind_behind (m : Spot) (v w rest rest' : List Char) :
    (m.behind v rest').behind w rest = m.behind (v ++ w) rest := by
  simp only [behind, List.length_append, List.getLast?_append, Option.or_assoc, Nat.sub_sub]

theorem Spot.behind_cons (m : Spot) (c : Char) (w rest rest' : List Char) :
    m.behind (c :: w) rest = (m.behind [c] rest').behind w rest :=
  (behind_behind m [c] w rest rest').symm

namespace Pattern

/-- The pattern matches between two spots and leaves the marks. -/
inductive Matches : Pattern → Spot → Spot → List (Slot × Spot) → Prop where
  | exactly {t rest : List Char} {m : Spot} : m.rest = t ++ rest →
      Matches (exactly t) m (m.behind t rest) []
  | among {ts : List (List Char)} {t rest : List Char} {m : Spot} : t ∈ ts → m.rest = t ++ rest →
      Matches (among ts) m (m.behind t rest) []
  | one {p : Char → Bool} {c : Char} {rest : List Char} {m : Spot} : p c = true →
      m.rest = c :: rest → Matches (one p) m (m.behind [c] rest) []
  | many {p : Char → Bool} {w rest : List Char} {m : Spot} : (∀ c ∈ w, p c = true) →
      m.rest = w ++ rest → Matches (many p) m (m.behind w rest) []
  | few {p : Char → Bool} {w rest : List Char} {m : Spot} : (∀ c ∈ w, p c = true) →
      m.rest = w ++ rest → Matches (few p) m (m.behind w rest) []
  | seq {a b : Pattern} {m m' m'' : Spot} {ms ms' : List (Slot × Spot)} :
      Matches a m m' ms → Matches b m' m'' ms' → Matches (seq a b) m m'' (ms ++ ms')
  | left {a b : Pattern} {m m' : Spot} {ms : List (Slot × Spot)} :
      Matches a m m' ms → Matches (either a b) m m' ms
  | right {a b : Pattern} {m m' : Spot} {ms : List (Slot × Spot)} :
      Matches b m m' ms → Matches (either a b) m m' ms
  | mark {s : Slot} {m : Spot} : Matches (mark s) m m [(s, m)]
  | first {m : Spot} : m.prev = none → Matches first m m []
  | last {m : Spot} : m.rest = [] → Matches last m m []
  | edge {m : Spot} : m.isEdge = true → Matches edge m m []

/-! ## What is found is a match -/

/-- The match that `k` finds behind the marks. -/
def Match.after (marks : List (Slot × Spot)) (r : Match) : Match :=
  { r with marks := marks ++ r.marks }

theorem exists_of_runText {t : List Char} {k : Spot → Option Match} {m : Spot} {r : Match}
    (h : runText t k m = some r) : ∃ rest, m.rest = t ++ rest ∧ k (m.behind t rest) = some r := by
  obtain ⟨rest, hafter, hk⟩ := Option.bind_eq_some_iff.mp h
  exact ⟨rest, Text.after?_eq_some_iff.mp hafter, hk⟩

theorem exists_of_runMany {p : Char → Bool} {k : Spot → Option Match} {prev : Option Char}
    {t : List Char} {left : Nat} {r : Match} (h : runMany p k prev t left = some r) :
    ∃ w rest, (∀ c ∈ w, p c = true) ∧ t = w ++ rest ∧
      k ((⟨prev, t, left⟩ : Spot).behind w rest) = some r := by
  induction t generalizing prev left with
  | nil => exact ⟨[], [], by simp, rfl, by simpa [Spot.behind, runMany] using h⟩
  | cons c t ih =>
    have hstay : k ⟨prev, c :: t, left⟩ = some r →
        ∃ w rest, (∀ c ∈ w, p c = true) ∧ c :: t = w ++ rest ∧
          k ((⟨prev, c :: t, left⟩ : Spot).behind w rest) = some r := fun hk =>
      ⟨[], c :: t, by simp, rfl, by simpa [Spot.behind] using hk⟩
    unfold runMany at h
    -- the run goes on as far as it can and comes back if the continuation fails there
    split at h
    · rename_i hc
      rcases Option.or_eq_some_iff.mp h with hmore | ⟨-, hk⟩
      · obtain ⟨w, rest, hw, rfl, hk⟩ := ih hmore
        refine ⟨c :: w, rest, List.forall_mem_cons.mpr ⟨hc, hw⟩, rfl, ?_⟩
        rw [Spot.behind_cons _ c w rest (w ++ rest)]
        exact hk
      · exact hstay hk
    · exact hstay h

theorem exists_of_runFew {p : Char → Bool} {k : Spot → Option Match} {prev : Option Char}
    {t : List Char} {left : Nat} {r : Match} (h : runFew p k prev t left = some r) :
    ∃ w rest, (∀ c ∈ w, p c = true) ∧ t = w ++ rest ∧
      k ((⟨prev, t, left⟩ : Spot).behind w rest) = some r := by
  induction t generalizing prev left with
  | nil => exact ⟨[], [], by simp, rfl, by simpa [Spot.behind, runFew] using h⟩
  | cons c t ih =>
    unfold runFew at h
    rcases Option.or_eq_some_iff.mp h with hk | ⟨-, hmore⟩
    · exact ⟨[], c :: t, by simp, rfl, by simpa [Spot.behind] using hk⟩
    · split at hmore
      · rename_i hc
        obtain ⟨w, rest, hw, rfl, hk⟩ := ih hmore
        refine ⟨c :: w, rest, List.forall_mem_cons.mpr ⟨hc, hw⟩, rfl, ?_⟩
        rw [Spot.behind_cons _ c w rest (w ++ rest)]
        exact hk
      · simp at hmore

/-- A run that succeeds matched the pattern up to a spot where the continuation succeeded,
and put the marks of the pattern in front of those of the continuation. -/
theorem exists_matches_of_run {p : Pattern} {k : Spot → Option Match} {m : Spot} {r : Match}
    (h : p.run k m = some r) :
    ∃ m' ms r', Matches p m m' ms ∧ k m' = some r' ∧ r = Match.after ms r' := by
  induction p generalizing k m r with
  | exactly t =>
    obtain ⟨rest, hrest, hk⟩ := exists_of_runText h
    exact ⟨_, [], r, .exactly hrest, hk, rfl⟩
  | among ts =>
    obtain ⟨t, ht, hrun⟩ := List.exists_of_findSome?_eq_some h
    obtain ⟨rest, hrest, hk⟩ := exists_of_runText hrun
    exact ⟨_, [], r, .among ht hrest, hk, rfl⟩
  | one p =>
    unfold run at h
    split at h
    · simp at h
    · rename_i c rest hrest
      split at h
      · rename_i hc
        exact ⟨_, [], r, .one hc hrest, h, rfl⟩
      · simp at h
  | many p =>
    obtain ⟨w, rest, hw, hrest, hk⟩ := exists_of_runMany h
    exact ⟨_, [], r, .many hw hrest, hk, rfl⟩
  | few p =>
    obtain ⟨w, rest, hw, hrest, hk⟩ := exists_of_runFew h
    exact ⟨_, [], r, .few hw hrest, hk, rfl⟩
  | seq a b iha ihb =>
    -- what the first part continues with is the run of the second part
    obtain ⟨m', ms, r', ha, hrun, rfl⟩ := iha h
    obtain ⟨m'', ms', r'', hb, hk, rfl⟩ := ihb hrun
    exact ⟨m'', ms ++ ms', r'', .seq ha hb, hk, by simp [Match.after]⟩
  | either a b iha ihb =>
    rcases Option.or_eq_some_iff.mp h with hleft | ⟨-, hright⟩
    · obtain ⟨m', ms, r', ha, hk, rfl⟩ := iha hleft
      exact ⟨m', ms, r', .left ha, hk, rfl⟩
    · obtain ⟨m', ms, r', hb, hk, rfl⟩ := ihb hright
      exact ⟨m', ms, r', .right hb, hk, rfl⟩
  | mark s =>
    obtain ⟨r', hk, rfl⟩ := Option.map_eq_some_iff.mp h
    exact ⟨m, _, r', .mark, hk, rfl⟩
  | first =>
    unfold run at h
    split at h
    · rename_i hprev
      exact ⟨m, [], r, .first (Option.isNone_iff_eq_none.mp hprev), h, rfl⟩
    · simp at h
  | last =>
    unfold run at h
    split at h
    · rename_i hrest
      exact ⟨m, [], r, .last (List.isEmpty_iff.mp hrest), h, rfl⟩
    · simp at h
  | edge =>
    unfold run at h
    split at h
    · rename_i hedge
      exact ⟨m, [], r, .edge hedge, h, rfl⟩
    · simp at h

/-- A match at the start of a text is one of the relation. -/
theorem matches_of_match? {p : Pattern} {t : List Char} {r : Match} (h : p.match? t = some r) :
    Matches p (.start t) r.stop r.marks := by
  rw [match?_eq_run] at h
  obtain ⟨m', ms, r', hp, hk, rfl⟩ := exists_matches_of_run h
  cases hk
  simpa [Match.after, Match.done] using hp

/-! ## What is a match is found -/

section

variable {p : Char → Bool} {k : Spot → Option Match} {w rest : List Char}

theorem isSome_runMany (hw : ∀ c ∈ w, p c = true) {prev : Option Char} {left : Nat}
    (hk : (k ((⟨prev, w ++ rest, left⟩ : Spot).behind w rest)).isSome = true) :
    (runMany p k prev (w ++ rest) left).isSome = true := by
  induction w generalizing prev left with
  | nil =>
    replace hk : (k ⟨prev, rest, left⟩).isSome = true := hk
    cases rest with
    | nil => exact hk
    | cons c rest =>
      rw [List.nil_append, runMany]
      split
      · rw [Option.isSome_or, hk, Bool.or_true]
      · exact hk
  | cons c w ih =>
    obtain ⟨hc, hw⟩ := List.forall_mem_cons.mp hw
    rw [Spot.behind_cons _ c w rest (w ++ rest)] at hk
    have hmore : (runMany p k (some c) (w ++ rest) (left - 1)).isSome = true := ih hw hk
    rw [List.cons_append, runMany, if_pos hc, Option.isSome_or, hmore, Bool.true_or]

theorem isSome_runFew (hw : ∀ c ∈ w, p c = true) {prev : Option Char} {left : Nat}
    (hk : (k ((⟨prev, w ++ rest, left⟩ : Spot).behind w rest)).isSome = true) :
    (runFew p k prev (w ++ rest) left).isSome = true := by
  induction w generalizing prev left with
  | nil =>
    replace hk : (k ⟨prev, rest, left⟩).isSome = true := hk
    cases rest with
    | nil => exact hk
    | cons c rest => rw [List.nil_append, runFew, Option.isSome_or, hk, Bool.true_or]
  | cons c w ih =>
    obtain ⟨hc, hw⟩ := List.forall_mem_cons.mp hw
    rw [Spot.behind_cons _ c w rest (w ++ rest)] at hk
    have hmore : (runFew p k (some c) (w ++ rest) (left - 1)).isSome = true := ih hw hk
    rw [List.cons_append, runFew, if_pos hc, Option.isSome_or, hmore, Bool.or_true]

end

/-- Where there is a match up to a spot at which the continuation succeeds, the run succeeds. -/
theorem Matches.isSome_run {p : Pattern} {k : Spot → Option Match} {m m' : Spot}
    {ms : List (Slot × Spot)} (h : Matches p m m' ms) (hk : (k m').isSome = true) :
    (p.run k m).isSome = true := by
  have htext : ∀ {t rest : List Char} {m : Spot} {k : Spot → Option Match}, m.rest = t ++ rest →
      (k (m.behind t rest)).isSome = true → (runText t k m).isSome = true := by
    intro t rest m k hrest hk
    rw [runText, Text.after?_eq_some_iff.mpr hrest]
    exact hk
  -- the run may take another way than the match, but some way succeeds
  induction h generalizing k with
  | exactly hrest => exact htext hrest hk
  | among ht hrest => exact List.findSome?_isSome_iff.mpr ⟨_, ht, htext hrest hk⟩
  | one hc hrest =>
    rw [run, hrest]
    simp only [hc, if_true]
    exact hk
  | many hw hrest =>
    rw [run, hrest]
    exact isSome_runMany hw hk
  | few hw hrest =>
    rw [run, hrest]
    exact isSome_runFew hw hk
  | seq _ _ iha ihb => exact iha (ihb hk)
  | left _ ih =>
    rw [run, Option.isSome_or, ih hk, Bool.true_or]
  | right _ ih =>
    rw [run, Option.isSome_or, ih hk, Bool.or_true]
  | mark =>
    rw [run, Option.isSome_map]
    exact hk
  | first hprev =>
    rw [run, hprev]
    exact hk
  | last hrest =>
    rw [run, hrest]
    exact hk
  | edge hedge =>
    rw [run, hedge]
    exact hk

/-! ## Sequences -/

/-- Matching a sequence is matching one behind the other. -/
theorem matches_append_iff {a b : Pattern} {m m'' : Spot} {ms : List (Slot × Spot)} :
    Matches (a ++ b) m m'' ms ↔
      ∃ m' ms₁ ms₂, Matches a m m' ms₁ ∧ Matches b m' m'' ms₂ ∧ ms = ms₁ ++ ms₂ := by
  show Matches (andThen a b) m m'' ms ↔ _
  -- sequences are kept nested to the right, so appending goes down the right side
  induction a generalizing m ms with
  | seq a c _ ihc =>
    constructor
    · intro h
      cases h with
      | seq ha hcb =>
        obtain ⟨m', ms₁, ms₂, hc, hb, rfl⟩ := ihc.mp hcb
        exact ⟨m', _, ms₂, .seq ha hc, hb, (List.append_assoc ..).symm⟩
    · rintro ⟨m', ms₁, ms₂, hac, hb, rfl⟩
      cases hac with
      | seq ha hc =>
        rw [List.append_assoc]
        exact .seq ha (ihc.mpr ⟨m', _, ms₂, hc, hb, rfl⟩)
  | _ =>
    constructor
    · intro h
      cases h with
      | seq ha hb => exact ⟨_, _, _, ha, hb, rfl⟩
    · rintro ⟨m', ms₁, ms₂, ha, hb, rfl⟩
      exact .seq ha hb

theorem Matches.append {a b : Pattern} {m m' m'' : Spot} {ms ms' : List (Slot × Spot)}
    (ha : Matches a m m' ms) (hb : Matches b m' m'' ms') : Matches (a ++ b) m m'' (ms ++ ms') :=
  matches_append_iff.mpr ⟨m', ms, ms', ha, hb, rfl⟩

theorem matches_many_nothing (p : Char → Bool) (m : Spot) : Matches (many p) m m [] := by
  have h : Matches (many p) m (m.behind [] m.rest) [] := .many (List.forall_mem_nil _) rfl
  rwa [Spot.behind_nil] at h

theorem matches_opt_nothing (a : Pattern) (m : Spot) : Matches (opt a) m m [] := by
  have h : Matches (lit "") m (m.behind [] m.rest) [] := .exactly rfl
  rw [Spot.behind_nil] at h
  exact .right h

/-! ## The text of a match -/

/-- A match stops behind a text with which its own begins. -/
theorem Matches.exists_behind {p : Pattern} {m m' : Spot} {ms : List (Slot × Spot)}
    (h : Matches p m m' ms) : ∃ w, m.rest = w ++ m'.rest ∧ m' = m.behind w m'.rest := by
  induction h with
  | exactly hrest => exact ⟨_, hrest, rfl⟩
  | among _ hrest => exact ⟨_, hrest, rfl⟩
  | one _ hrest => exact ⟨_, hrest, rfl⟩
  | many _ hrest => exact ⟨_, hrest, rfl⟩
  | few _ hrest => exact ⟨_, hrest, rfl⟩
  | seq _ _ iha ihb =>
    obtain ⟨v, hv, hm'⟩ := iha
    obtain ⟨w, hw, hm''⟩ := ihb
    refine ⟨v ++ w, by rw [hv, hw, List.append_assoc], ?_⟩
    rw [hm', Spot.behind_behind] at hm''
    exact hm''
  | left _ ih => exact ih
  | right _ ih => exact ih
  | mark => exact ⟨[], rfl, (Spot.behind_nil _).symm⟩
  | first => exact ⟨[], rfl, (Spot.behind_nil _).symm⟩
  | last => exact ⟨[], rfl, (Spot.behind_nil _).symm⟩
  | edge => exact ⟨[], rfl, (Spot.behind_nil _).symm⟩

/-- What follows a match is the end of its text. -/
theorem exists_append_rest_of_match? {p : Pattern} {t : List Char} {r : Match}
    (h : p.match? t = some r) : ∃ w, t = w ++ r.rest := by
  obtain ⟨w, hw, -⟩ := (matches_of_match? h).exists_behind
  exact ⟨w, hw⟩

theorem Matches.rest_of_lit {s : String} {m m' : Spot} {ms : List (Slot × Spot)}
    (h : Matches (lit s) m m' ms) : m.rest = s.toList ++ m'.rest := by
  cases h with
  | exactly hrest => exact hrest

/-- A pattern that ends in a text stops behind that text. -/
theorem Matches.exists_append_of_lit {p : Pattern} {s : String} {m m' : Spot}
    {ms : List (Slot × Spot)} (h : Matches (p ++ lit s) m m' ms) :
    ∃ w, m.rest = w ++ s.toList ++ m'.rest := by
  obtain ⟨m₁, ms₁, ms₂, hp, hlit, -⟩ := matches_append_iff.mp h
  obtain ⟨w, hw, -⟩ := hp.exists_behind
  exact ⟨w, by rw [hw, hlit.rest_of_lit, List.append_assoc]⟩

/-! ## The parts of a match -/

/-- The slots that a pattern marks. -/
def slots : Pattern → List Slot
  | seq a b | either a b => slots a ++ slots b
  | mark s => [s]
  | _ => []

/-- A match marks only slots of its pattern. -/
theorem Matches.mem_slots {p : Pattern} {m m' : Spot} {ms : List (Slot × Spot)}
    (h : Matches p m m' ms) {s : Slot} (hs : s ∈ ms.map (·.1)) : s ∈ slots p := by
  induction h with
  | seq _ _ iha ihb =>
    rw [List.map_append] at hs
    rcases List.mem_append.mp hs with ha | hb
    · exact List.mem_append_left _ (iha ha)
    · exact List.mem_append_right _ (ihb hb)
  | left _ ih => exact List.mem_append_left _ (ih hs)
  | right _ ih => exact List.mem_append_right _ (ih hs)
  | mark => simpa [slots] using hs
  | _ => simp at hs

/-! ## Occurrences -/

/-- A spot of a text stands in front of an end of it. -/
theorem exists_append_of_mem_spots {prev : Option Char} {t : List Char} {m : Spot}
    (h : m ∈ spots prev t t.length) : ∃ w, t = w ++ m.rest := by
  induction t generalizing prev with
  | nil =>
    rw [spots, List.mem_singleton] at h
    subst h
    exact ⟨[], rfl⟩
  | cons c t ih =>
    rcases List.mem_cons.mp h with rfl | hm
    · exact ⟨[], rfl⟩
    · obtain ⟨w, hw⟩ := ih hm
      exact ⟨c :: w, by rw [List.cons_append, ← hw]⟩

theorem mem_of_mem_apart {col : Column} {wait : Nat} {ms : List Spot} {m : Spot} {r : Match}
    (h : (m, r) ∈ apart col wait ms) : m ∈ ms := by
  induction ms generalizing wait with
  | nil => cases wait <;> simp [apart] at h
  | cons m' ms ih =>
    cases wait with
    -- the spot is covered by the last occurrence
    | succ wait => exact List.mem_cons_of_mem _ (ih h)
    | zero =>
      simp only [apart] at h
      split at h
      · rcases List.mem_cons.mp h with heq | hmem
        · rw [(Prod.mk.inj heq).1]
          exact List.mem_cons_self
        · exact List.mem_cons_of_mem _ (ih hmem)
      · exact List.mem_cons_of_mem _ (ih h)

/-- The text in front of an occurrence ends where the occurrence begins. -/
theorem take_append_rest_of_mem_occurrences {p : Pattern} {t : List Char} {m : Spot} {r : Match}
    (h : (m, r) ∈ p.occurrences t) : t.take (t.length - m.left) ++ m.rest = t := by
  have hm : m ∈ spots none t t.length := mem_of_mem_apart h
  obtain ⟨w, hw⟩ := exists_append_of_mem_spots hm
  have hlen : t.length - m.left = w.length := by
    have hwlen := congrArg List.length hw
    rw [List.length_append] at hwlen
    have hleft := (left_of_mem_spots hm).1
    omega
  rw [hlen]
  conv_lhs => rw [hw, List.take_left]
  exact hw.symm

end Pattern

end CodeAtlas
