/-
The parts that a match keeps.

A match keeps a part by two marks, one in front of it and one behind it, and `Match.part?`
reads the text between them. Where a pattern keeps a part once, and no pattern in front of
it or inside it has the slot, that text is what the inner pattern matched (`Kept`). So what a
caller wants to know of a name or a value is a fact about the pattern inside, most often which
characters it never takes (`Avoids`).
-/
import CodeAtlas.Proofs.Pattern.Meaning

set_option autoImplicit false

namespace CodeAtlas

/-- The spot knows how long the text behind it is. -/
def Spot.Exact (m : Spot) : Prop := m.left = m.rest.length

namespace Pattern

/-! ## Characters that a pattern never takes -/

/-- No character that the pattern takes is `bad`. -/
def Avoids (bad : Char → Bool) : Pattern → Prop
  | exactly t => ∀ c ∈ t, bad c = false
  | among ts => ∀ t ∈ ts, ∀ c ∈ t, bad c = false
  | one p | many p | few p => ∀ c, p c = true → bad c = false
  | seq a b | either a b => Avoids bad a ∧ Avoids bad b
  | mark _ | first | last | edge => True

variable {bad : Char → Bool} {m m' : Spot} {ms : List (Slot × Spot)}

/-- The text of a match of such a pattern has no bad character. -/
theorem Matches.avoids {p : Pattern} (h : Matches p m m' ms) (hp : p.Avoids bad) :
    ∃ w, m.rest = w ++ m'.rest ∧ m' = m.behind w m'.rest ∧ ∀ c ∈ w, bad c = false := by
  induction h with
  | exactly hrest => exact ⟨_, hrest, rfl, hp⟩
  | among ht hrest => exact ⟨_, hrest, rfl, hp _ ht⟩
  | one hc hrest => exact ⟨_, hrest, rfl, by simpa using hp _ hc⟩
  | many hw hrest => exact ⟨_, hrest, rfl, fun c hc => hp c (hw c hc)⟩
  | few hw hrest => exact ⟨_, hrest, rfl, fun c hc => hp c (hw c hc)⟩
  | seq _ _ iha ihb =>
    obtain ⟨v, hv, hm', hbad⟩ := iha hp.1
    obtain ⟨w, hw, hm'', hbad'⟩ := ihb hp.2
    refine ⟨v ++ w, by rw [hv, hw, List.append_assoc], ?_, ?_⟩
    · rw [hm', Spot.behind_behind] at hm''
      exact hm''
    · exact fun c hc => (List.mem_append.mp hc).elim (hbad c) (hbad' c)
  | left _ ih => exact ih hp.1
  | right _ ih => exact ih hp.2
  | mark | first | last | edge => exact ⟨[], rfl, (Spot.behind_nil _).symm, by simp⟩

/-- Can the pattern take the character? -/
def takes (d : Char) : Pattern → Bool
  | exactly t => t.contains d
  | among ts => ts.any (·.contains d)
  | one p | many p | few p => p d
  | seq a b | either a b => takes d a || takes d b
  | mark _ | first | last | edge => false

theorem avoids_of_takes {p : Pattern} {d : Char} (h : p.takes d = false) :
    p.Avoids (· = d) := by
  induction p with
  | exactly t =>
    intro c hc
    refine decide_eq_false fun hcd => ?_
    rw [takes, List.contains_eq_mem, decide_eq_false_iff_not] at h
    exact h (hcd ▸ hc)
  | among ts =>
    intro t ht c hc
    refine decide_eq_false fun hcd => ?_
    have hnone := List.any_eq_false.mp h t ht
    rw [List.contains_eq_mem, decide_eq_true_eq] at hnone
    exact hnone (hcd ▸ hc)
  | one p | many p | few p =>
    intro c hc
    refine decide_eq_false fun hcd => ?_
    rw [hcd, show p d = false from h] at hc
    cases hc
  | seq a b iha ihb | either a b iha ihb =>
    rw [takes, Bool.or_eq_false_iff] at h
    exact ⟨iha h.1, ihb h.2⟩
  | mark | first | last | edge => trivial

/-- The text of a match has no character that the pattern cannot take. -/
theorem Matches.not_mem_of_takes {p : Pattern} (h : Matches p m m' ms) {d : Char}
    (hp : p.takes d = false) {w : List Char} (hw : m.rest = w ++ m'.rest) : d ∉ w := by
  obtain ⟨v, hv, -, hnone⟩ := h.avoids (avoids_of_takes hp)
  obtain rfl : w = v := List.append_cancel_right (hw.symm.trans hv)
  exact fun hmem => of_decide_eq_false (hnone d hmem) rfl

/-! ## What stands between two marks -/

/-- A mark stands at a spot of the text. -/
theorem Matches.suffix_of_mem {p : Pattern} (h : Matches p m m' ms) {s : Slot} {a : Spot}
    (ha : (s, a) ∈ ms) : a.rest <:+ m.rest := by
  induction h with
  | seq hp _ iha ihb =>
    obtain ⟨w, hw, -⟩ := hp.exists_behind
    rcases List.mem_append.mp ha with hleft | hright
    · exact iha hleft
    · exact (ihb hright).trans ⟨w, hw.symm⟩
  | left _ ih => exact ih ha
  | right _ ih => exact ih ha
  | mark =>
    cases List.mem_singleton.mp ha
    exact List.suffix_rfl
  | _ => simp at ha

/-- A part of a match is a piece of the text. -/
theorem part_infix_of_match? {p : Pattern} {t : List Char} {r : Match} (h : p.match? t = some r)
    (s : Slot) : r.part s <:+: t := by
  rw [Match.part, Match.part?]
  split
  · rename_i begin_ a end_ b more hmarks
    have hmem : (begin_, a) ∈ r.marks.filter (·.1 = s) := by
      rw [hmarks]
      exact List.mem_cons_self
    have hsuffix := (matches_of_match? h).suffix_of_mem (List.mem_of_mem_filter hmem)
    exact (List.take_prefix _ _).isInfix.trans hsuffix.isInfix
  · exact List.nil_infix

theorem Matches.exact {p : Pattern} (h : Matches p m m' ms) (hm : m.Exact) : m'.Exact := by
  obtain ⟨w, hw, hm'⟩ := h.exists_behind
  rw [Spot.Exact, hm'] at *
  simp only [Spot.behind] at *
  rw [hm, hw, List.length_append]
  omega

/-- A part that is kept stands between two marks of its slot. -/
theorem Matches.exists_of_keep {p : Pattern} {s : Slot} (h : Matches (keep s p) m m' ms) :
    ∃ ms', Matches p m m' ms' ∧ ms = (s, m) :: ms' ++ [(s, m')] := by
  obtain ⟨m₁, ms₁, ms₂, hpair, hend, rfl⟩ := matches_append_iff.mp h
  obtain ⟨m₂, ms₃, ms₄, hbegin, hp, rfl⟩ := matches_append_iff.mp hpair
  cases hbegin
  cases hend
  exact ⟨_, hp, rfl⟩

theorem Matches.keep {p : Pattern} (h : Matches p m m' ms) (s : Slot) :
    Matches (Pattern.keep s p) m m' ((s, m) :: ms ++ [(s, m')]) :=
  matches_append_iff.mpr ⟨m', _, _, matches_append_iff.mpr ⟨m, _, _, .mark, h, rfl⟩, .mark, rfl⟩

/-- A pattern that keeps nothing leaves no marks. -/
theorem Matches.marks_eq_nil {p : Pattern} (h : Matches p m m' ms) (hp : slots p = []) :
    ms = [] := by
  have hnone : ∀ s, s ∉ ms.map (·.1) := by
    intro s hs
    have hslots := h.mem_slots hs
    rw [hp] at hslots
    cases hslots
  exact List.map_eq_nil_iff.mp (List.eq_nil_iff_forall_not_mem.mpr hnone)

theorem filter_marks_eq_nil {s : Slot} (h : s ∉ ms.map (·.1)) :
    ms.filter (·.1 = s) = [] := by
  refine List.filter_eq_nil_iff.mpr fun mark hmark heq => h ?_
  rw [← of_decide_eq_true heq]
  exact List.mem_map_of_mem hmark

/-- A match keeps a part: `inner` matched between `a` and `b`, and the text there is what
the match has under the slot. -/
structure Kept (inner : Pattern) (s : Slot) (r : Match) (a b : Spot) (w : List Char) : Prop where
  inner : ∃ ms, Matches inner a b ms
  rest : a.rest = w ++ b.rest
  part? : r.part? s = some w
  marks : ∃ more, r.marks.filter (·.1 = s) = (s, a) :: (s, b) :: more

section

variable {front inner back : Pattern} {s : Slot} {r : Match}

theorem exists_kept {a b : Spot} {before kept behind : List (Slot × Spot)}
    (hbefore : s ∉ before.map (·.1)) (hinner : s ∉ slots inner) (ha : a.Exact)
    (h : Matches (keep s inner) a b kept) (hmarks : r.marks = before ++ kept ++ behind) :
    ∃ w, Kept inner s r a b w := by
  obtain ⟨ms, hi, rfl⟩ := h.exists_of_keep
  obtain ⟨w, hw, -⟩ := hi.exists_behind
  have hfilter : r.marks.filter (·.1 = s) = (s, a) :: (s, b) :: behind.filter (·.1 = s) := by
    rw [hmarks]
    simp only [List.filter_append, List.filter_cons, filter_marks_eq_nil hbefore,
      filter_marks_eq_nil (mt hi.mem_slots hinner), decide_true, if_true, List.nil_append,
      List.cons_append, List.append_assoc]
  have hlength : a.left - b.left = w.length := by
    have hleft : a.left = w.length + b.rest.length := by
      rw [ha, hw, List.length_append]
    have hright : b.left = b.rest.length := hi.exact ha
    omega
  refine ⟨w, ⟨_, hi⟩, hw, ?_, ⟨_, hfilter⟩⟩
  rw [Match.part?, hfilter]
  simp only [hlength, hw, List.take_left]

/-- A pattern that keeps a part at its end. -/
theorem exists_kept_last (hfront : s ∉ slots front) (hinner : s ∉ slots inner) (hm : m.Exact)
    {behind : List (Slot × Spot)} (h : Matches (front ++ keep s inner) m m' ms)
    (hmarks : r.marks = ms ++ behind) :
    ∃ a w, (∃ ms, Matches front m a ms) ∧ Kept inner s r a m' w := by
  obtain ⟨a, before, kept, hf, hkeep, rfl⟩ := matches_append_iff.mp h
  obtain ⟨w, hk⟩ := exists_kept (mt hf.mem_slots hfront) hinner (hf.exact hm) hkeep hmarks
  exact ⟨a, w, ⟨_, hf⟩, hk⟩

/-- A pattern that keeps a part between what is in front of it and what is behind it. -/
theorem exists_kept_between (hfront : s ∉ slots front) (hinner : s ∉ slots inner) (hm : m.Exact)
    (h : Matches (front ++ keep s inner ++ back) m r.stop r.marks) :
    ∃ a b w, (∃ ms, Matches front m a ms) ∧ Kept inner s r a b w := by
  obtain ⟨b, ms, behind, hleft, -, hmarks⟩ := matches_append_iff.mp h
  obtain ⟨a, w, hf, hk⟩ := exists_kept_last hfront hinner hm hleft hmarks
  exact ⟨a, b, w, hf, hk⟩

end

end Pattern

end CodeAtlas
