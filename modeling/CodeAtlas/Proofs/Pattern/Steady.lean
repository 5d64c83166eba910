/-
Patterns that do not depend on how many blanks there are.

A pattern is steady if it takes no blanks, apart from whole runs of them: a run that it
takes is followed by something that cannot begin with a blank (`Solid`), so that the run
has to be taken whole. Such a pattern finds in two texts with the same words the same
parts. The argument follows the way a match is found: two continuations that answer alike
for the same words give, with a steady pattern in front, two that do (`Steady.agree`), and
the occurrences in two texts are then found side by side (`SteadyPart.parts_eq`).
-/
import CodeAtlas.Proofs.Pattern.Parts
import CodeAtlas.Proofs.Text.SameWords
import Mathlib.Data.List.Forall2

set_option autoImplicit false

namespace CodeAtlas

open Text (isBlankChar)

/-- Matches that stop in front of the same words and mark the same slots in front of the
same words. -/
structure Match.SameWords (r r' : Match) : Prop where
  stop : Text.SameWords r.stop.rest r'.stop.rest
  marks : List.Forall₂ (fun a b => a.1 = b.1 ∧ Text.SameWords a.2.rest b.2.rest) r.marks r'.marks

namespace Pattern

/-! ## Steady patterns -/

/-- The pattern never matches in front of a blank. -/
def Solid (p : Pattern) : Prop :=
  ∀ k m, m.rest.head?.any isBlankChar = true → p.run k m = none

theorem solid_exactly {t : List Char} (ht : t.head?.any (!isBlankChar ·) = true) :
    Solid (exactly t) := by
  rintro k ⟨prev, rest, left⟩ hm
  cases rest with
  | nil => cases hm
  | cons d rest =>
    cases t with
    | nil => cases ht
    | cons c t =>
      have hne : c ≠ d := by
        rintro rfl
        simp only [List.head?_cons, Option.any_some] at ht hm
        rw [hm] at ht
        cases ht
      simp only [run, runText, Text.after?, if_neg hne, Option.bind_none]

theorem solid_one {p : Char → Bool} (hp : ∀ c, p c = true → isBlankChar c = false) :
    Solid (one p) := by
  rintro k ⟨prev, rest, left⟩ hm
  cases rest with
  | nil => rfl
  | cons d rest =>
    have hd : p d = false := by
      by_contra hpd
      simp [hp d (by simpa using hpd)] at hm
    simp [run, hd]

theorem Solid.seq {a : Pattern} (ha : Solid a) (b : Pattern) : Solid (seq a b) :=
  fun k m hm => ha (b.run k) m hm

/-- The pattern takes blanks only in whole runs. -/
inductive Steady : Pattern → Prop where
  | exactly {t : List Char} : t.all (!isBlankChar ·) = true → Steady (exactly t)
  | one {p : Char → Bool} : (∀ c, p c = true → isBlankChar c = false) → Steady (one p)
  | many {p : Char → Bool} : (∀ c, p c = true → isBlankChar c = false) → Steady (many p)
  | seq {a b : Pattern} : Steady a → Steady b → Steady (seq a b)
  | either {a b : Pattern} : Steady a → Steady b → Steady (either a b)
  | mark {s : Slot} : Steady (mark s)
  | blanks {b : Pattern} : Solid b → Steady b → Steady (seq blanks b)

/-- The continuations answer alike for the same words. -/
def Agree (k k' : Spot → Option Match) : Prop :=
  ∀ m m', Text.SameWords m.rest m'.rest → Option.Rel Match.SameWords (k m) (k' m')

theorem agree_done : Agree (fun m => some (.done m)) fun m => some (.done m) :=
  fun _ _ h => .some ⟨h, .nil⟩

theorem rel_or {R : Match → Match → Prop} {a a' b b' : Option Match} (ha : Option.Rel R a a')
    (hb : Option.Rel R b b') : Option.Rel R (a.or b) (a'.or b') := by
  cases ha with
  | some h => exact .some h
  | none => exact hb

/-- A text without blanks is found in front of the same words. -/
theorem rel_after? {w s t : List Char} (hw : ∀ c ∈ w, isBlankChar c = false)
    (h : Text.SameWords s t) :
    Option.Rel Text.SameWords (Text.after? w s) (Text.after? w t) := by
  induction w generalizing s t with
  | nil => exact .some h
  | cons p w ih =>
    obtain ⟨hp, hw⟩ := List.forall_mem_cons.mp hw
    have hne : ∀ b, isBlankChar b = true → p ≠ b := by
      rintro b hb rfl
      rw [hp] at hb
      cases hb
    cases h with
    | nil => exact .none
    | @char c s t hc h =>
      rw [Text.after?, Text.after?]
      by_cases heq : p = c
      · rw [if_pos heq, if_pos heq]
        exact ih hw h
      · rw [if_neg heq, if_neg heq]
        exact .none
    | blank hb hc =>
      rw [Text.after?, Text.after?, if_neg (hne _ hb), if_neg (hne _ hc)]
      exact .none

section

variable {p : Char → Bool} {k k' : Spot → Option Match}

theorem not_of_isBlankChar (hp : ∀ c, p c = true → isBlankChar c = false) {b : Char}
    (hb : isBlankChar b = true) : ¬p b = true := by
  intro hpb
  rw [hp b hpb] at hb
  cases hb

theorem agree_one (hk : Agree k k') (hp : ∀ c, p c = true → isBlankChar c = false) :
    Agree ((one p).run k) ((one p).run k') := by
  rintro ⟨prev, s, left⟩ ⟨prev', t, left'⟩ hm
  cases hm with
  | nil => exact .none
  | @char c s t hc h =>
    simp only [run]
    by_cases hpc : p c = true
    · rw [if_pos hpc, if_pos hpc]
      exact hk _ _ h
    · rw [if_neg hpc, if_neg hpc]
      exact .none
  | blank hb hc =>
    simp only [run]
    rw [if_neg (not_of_isBlankChar hp hb), if_neg (not_of_isBlankChar hp hc)]
    exact .none

theorem agree_runMany (hk : Agree k k') (hp : ∀ c, p c = true → isBlankChar c = false)
    {s t : List Char} (h : Text.SameWords s t) (prev prev' : Option Char) (left left' : Nat) :
    Option.Rel Match.SameWords (runMany p k prev s left) (runMany p k' prev' t left') := by
  induction h generalizing prev prev' left left' with
  | nil => exact hk _ _ .nil
  | @char c s t hc h ih =>
    rw [runMany, runMany]
    by_cases hpc : p c = true
    · rw [if_pos hpc, if_pos hpc]
      exact rel_or (ih _ _ _ _) (hk _ _ (.char hc h))
    · rw [if_neg hpc, if_neg hpc]
      exact hk _ _ (.char hc h)
  | blank hb hc h =>
    rw [runMany, runMany, if_neg (not_of_isBlankChar hp hb), if_neg (not_of_isBlankChar hp hc)]
    exact hk _ _ (.blank hb hc h)

end

theorem rest_behindAll (p : Char → Bool) (prev : Option Char) (t : List Char) (left : Nat) :
    (behindAll p prev t left).rest = t.dropWhile p := by
  induction t generalizing prev left with
  | nil => rfl
  | cons c t ih =>
    rw [behindAll, List.dropWhile_cons]
    split
    · exact ih _ _
    · rfl

/-- In front of what is solid a run of blanks has to be taken whole. -/
theorem runMany_of_solid {b : Pattern} (hb : Solid b) (k : Spot → Option Match)
    (prev : Option Char) (t : List Char) (left : Nat) :
    runMany isBlankChar (b.run k) prev t left =
      b.run k (behindAll isBlankChar prev t left) := by
  induction t generalizing prev left with
  | nil => rfl
  | cons c t ih =>
    rw [runMany, behindAll]
    by_cases hc : isBlankChar c = true
    · rw [if_pos hc, if_pos hc, ih, hb k ⟨prev, c :: t, left⟩ (by simpa using hc), Option.or_none]
    · rw [if_neg hc, if_neg hc]

theorem Steady.agree {p : Pattern} (h : Steady p) {k k' : Spot → Option Match}
    (hk : Agree k k') : Agree (p.run k) (p.run k') := by
  induction h generalizing k k' with
  | exactly ht =>
    intro m m' hm
    have hafter := rel_after? (fun c hc => by simpa using List.all_eq_true.mp ht c hc) hm
    simp only [run, runText]
    generalize Text.after? _ m.rest = a at hafter ⊢
    generalize Text.after? _ m'.rest = a' at hafter ⊢
    cases hafter with
    | some hrest => exact hk _ _ hrest
    | none => exact .none
  | one hp => exact agree_one hk hp
  | many hp => exact fun m m' hm => agree_runMany hk hp hm _ _ _ _
  | seq _ _ iha ihb => exact iha (ihb hk)
  | either _ _ iha ihb => exact fun m m' hm => rel_or (iha hk m m' hm) (ihb hk m m' hm)
  | mark =>
    intro m m' hm
    have hkm := hk m m' hm
    simp only [run]
    generalize k m = r at hkm ⊢
    generalize k' m' = r' at hkm ⊢
    cases hkm with
    | some hr => exact .some ⟨hr.stop, .cons ⟨rfl, hm⟩ hr.marks⟩
    | none => exact .none
  | @blanks b hb _ ih =>
    rintro ⟨prev, s, left⟩ ⟨prev', t, left'⟩ hm
    show Option.Rel _ (runMany isBlankChar (b.run k) prev s left)
      (runMany isBlankChar (b.run k') prev' t left')
    -- what follows begins with no blank, so all blanks are taken in either text
    rw [runMany_of_solid hb, runMany_of_solid hb]
    refine ih hk _ _ ?_
    rw [rest_behindAll, rest_behindAll]
    exact hm.trimStart

/-! ## Occurrences -/

/-- The occurrences among the spots, where `f` finds the matches that begin there. -/
def apartBy (f : Spot → Option Match) : Nat → List Spot → List (Spot × Match)
  | _, [] => []
  | wait + 1, _ :: ms => apartBy f wait ms
  | 0, m :: ms =>
    match f m with
    | some r => (m, r) :: apartBy f (m.left - r.stop.left - 1) ms
    | none => apartBy f 0 ms

theorem apart_eq_apartBy {col : Column} {f : Spot → Option Match} (wait : Nat) {ms : List Spot}
    (h : Holds col f ms) : apart col wait ms = apartBy f wait ms := by
  induction ms generalizing wait with
  | nil => cases wait <;> rfl
  | cons m ms ih =>
    obtain ⟨hm, hms⟩ := List.forall_mem_cons.mp h
    cases wait with
    | succ wait => exact ih wait hms
    | zero =>
      rw [apart, apartBy, hm]
      cases f m with
      | none => exact ih 0 hms
      | some r => exact congrArg ((m, r) :: ·) (ih _ hms)

/-- The matches that begin at a spot, where nothing has to follow. -/
def found (p : Pattern) (m : Spot) : Option Match := p.run (fun m => some (.done m)) m

theorem occurrences_eq (p : Pattern) (t : List Char) :
    p.occurrences t = apartBy p.found 0 (spots none t t.length) :=
  apart_eq_apartBy 0 (holds_allMatches p t)

theorem matches_of_found {p : Pattern} {m : Spot} {r : Match} (h : p.found m = some r) :
    Matches p m r.stop r.marks := by
  obtain ⟨m', ms, r', hp, hk, rfl⟩ := exists_matches_of_run h
  cases hk
  simpa [Match.after, Match.done] using hp

/-- Spots that belong to an occurrence are passed. -/
theorem apartBy_spots_append (f : Spot → Option Match) (prev : Option Char)
    (w t : List Char) :
    ∃ prev', apartBy f w.length (spots prev (w ++ t) (w ++ t).length) =
      apartBy f 0 (spots prev' t t.length) := by
  induction w generalizing prev with
  | nil => exact ⟨prev, rfl⟩
  | cons c w ih => exact ih (some c)

/-- No occurrence of a solid pattern begins at a blank. -/
theorem apartBy_spots_trimStart {p : Pattern} (hp : Solid p) (prev : Option Char)
    (t : List Char) :
    ∃ prev', apartBy p.found 0 (spots prev t t.length) =
      apartBy p.found 0 (spots prev' (Text.trimStart t) (Text.trimStart t).length) := by
  induction t generalizing prev with
  | nil => exact ⟨prev, rfl⟩
  | cons c t ih =>
    cases hc : isBlankChar c with
    | false =>
      rw [Text.trimStart_cons_of_not_isBlankChar hc]
      exact ⟨prev, rfl⟩
    | true =>
      rw [Text.trimStart_cons_of_isBlankChar hc, spots, apartBy, found, hp _ _ (by simpa using hc)]
      exact ih (some c)

/-- A pattern that begins with a text takes at least that text. -/
theorem rest_lt_of_exactly {t : List Char} {b : Pattern} (ht : t ≠ []) {m m' : Spot}
    {ms : List (Slot × Spot)} (h : Matches (seq (exactly t) b) m m' ms) :
    m'.rest.length < m.rest.length := by
  cases h with
  | seq ha hb =>
    cases ha with
    | exactly hrest =>
      obtain ⟨w, hw, -⟩ := hb.exists_behind
      have hpos := List.length_pos_iff.mpr ht
      simp only [Spot.behind] at hw
      rw [hrest, hw, List.length_append, List.length_append]
      omega

/-- A part that takes no blanks has none. -/
theorem Kept.filter_eq {inner : Pattern} {s : Slot} {r : Match} {a b : Spot} {w : List Char}
    (h : Kept inner s r a b w) (hinner : inner.Avoids isBlankChar) :
    w.filter (!isBlankChar ·) = w := by
  obtain ⟨ms, hi⟩ := h.inner
  obtain ⟨v, hv, -, hdark⟩ := hi.avoids hinner
  obtain rfl : w = v := List.append_cancel_right (h.rest.symm.trans hv)
  exact List.filter_eq_self.mpr fun c hc => by rw [hdark c hc]; rfl

/-- A pattern of which the texts of one part do not depend on how many blanks there are. -/
structure SteadyPart (p : Pattern) (s : Slot) : Prop where
  steady : Steady p
  solid : Solid p
  /-- every match takes a character -/
  takes : ∀ m m' ms, Matches p m m' ms → m'.rest.length < m.rest.length
  /-- the part has no blanks -/
  kept : ∀ (m : Spot) (r : Match), m.Exact → Matches p m r.stop r.marks →
    ∃ inner a b w, Kept inner s r a b w ∧ inner.Avoids isBlankChar

namespace SteadyPart

variable {p : Pattern} {s : Slot} (h : SteadyPart p s)
include h

theorem part_eq {m m' : Spot} {r r' : Match} (hm : m.Exact) (hm' : m'.Exact)
    (hr : p.found m = some r) (hr' : p.found m' = some r') (hsame : r.SameWords r') :
    r.part s = r'.part s := by
  obtain ⟨inner, a, b, w, hk, hinner⟩ := h.kept m r hm (matches_of_found hr)
  obtain ⟨inner', a', b', w', hk', hinner'⟩ := h.kept m' r' hm' (matches_of_found hr')
  obtain ⟨more, hmarks⟩ := hk.marks
  obtain ⟨more', hmarks'⟩ := hk'.marks
  -- the marks of the slot stand in front of the same words
  have hfilter := List.rel_filter (p := (·.1 = s)) (q := (·.1 = s))
    (fun a b hab => by simp only [decide_eq_true_eq, hab.1]) hsame.marks
  rw [hmarks, hmarks'] at hfilter
  obtain ⟨⟨-, ha⟩, hfilter⟩ := List.forall₂_cons.mp hfilter
  obtain ⟨⟨-, hb⟩, -⟩ := List.forall₂_cons.mp hfilter
  have htext := ha.filter_eq
  rw [hk.rest, hk'.rest, List.filter_append, List.filter_append, hk.filter_eq hinner,
    hk'.filter_eq hinner', hb.filter_eq] at htext
  rw [Match.part, Match.part, hk.part?, hk'.part?, List.append_cancel_right htext]

/-- Behind an occurrence the search goes on in front of what is left of the text. -/
theorem exists_apartBy_behind {prev : Option Char} {c : Char} {t : List Char} {r : Match}
    (hr : p.found ⟨prev, c :: t, (c :: t).length⟩ = some r) :
    r.stop.rest.length < (c :: t).length ∧
      ∃ prev', apartBy p.found ((c :: t).length - r.stop.left - 1) (spots (some c) t t.length) =
        apartBy p.found 0 (spots prev' r.stop.rest r.stop.rest.length) := by
  have hmatch := matches_of_found hr
  have hshort := h.takes _ _ _ hmatch
  have hstart : Spot.Exact ⟨prev, c :: t, (c :: t).length⟩ := rfl
  have hexact : r.stop.left = r.stop.rest.length := hmatch.exact hstart
  obtain ⟨w, hw, -⟩ := hmatch.exists_behind
  refine ⟨hshort, ?_⟩
  -- an occurrence takes at least a character, so the search goes on behind it
  cases w with
  | nil =>
    rw [List.nil_append] at hw
    rw [hw] at hshort
    exact absurd hshort (lt_irrefl _)
  | cons d w =>
    have hcons : c :: t = d :: (w ++ r.stop.rest) := hw
    obtain ⟨rfl, rfl⟩ := List.cons.inj hcons
    obtain ⟨prev', happart⟩ := apartBy_spots_append p.found (some c) w r.stop.rest
    refine ⟨prev', ?_⟩
    rw [← happart, hexact]
    congr 1
    simp only [List.length_cons, List.length_append]
    omega

/-- The texts of the part in two texts with the same words. -/
theorem apartBy_eq {t u : List Char} (hsame : Text.SameWords t u) (prev prev' : Option Char) :
    (apartBy p.found 0 (spots prev t t.length)).map (·.2.part s) =
      (apartBy p.found 0 (spots prev' u u.length)).map (·.2.part s) := by
  -- by the length of the first text, since a match passes many of its spots
  induction hlen : t.length using Nat.strongRecOn generalizing t u prev prev' with
  | ind n ih =>
    subst hlen
    have hfound := h.steady.agree agree_done ⟨prev, t, t.length⟩ ⟨prev', u, u.length⟩ hsame
    rw [← found, ← found] at hfound
    generalize hr : p.found ⟨prev, t, t.length⟩ = r at hfound
    generalize hr' : p.found ⟨prev', u, u.length⟩ = r' at hfound
    have hexact : ∀ (prev : Option Char) (t : List Char), Spot.Exact ⟨prev, t, t.length⟩ :=
      fun _ _ => rfl
    have hpart : ∀ {x y : Match}, r = some x → r' = some y → x.SameWords y →
        x.part s = y.part s := by
      rintro x y rfl rfl hxy
      exact h.part_eq (hexact _ _) (hexact _ _) hr hr' hxy
    cases hsame with
    | nil =>
      simp only [spots, apartBy, hr, hr']
      cases hfound with
      | none => rfl
      | some hsame => simp only [List.map_cons, List.map_nil, hpart rfl rfl hsame]
    | @char c t u hc hsame =>
      rw [spots, spots, apartBy, apartBy, hr, hr']
      cases hfound with
      | none => exact ih t.length (by simp) hsame _ _ rfl
      | @some x y hxy =>
        -- both go on behind what was found
        obtain ⟨hshort, prev₁, hx⟩ := h.exists_apartBy_behind hr
        obtain ⟨-, prev₂, hy⟩ := h.exists_apartBy_behind hr'
        simp only [List.map_cons, hpart rfl rfl hxy]
        congr 1
        simp only [List.length_cons, Nat.add_sub_cancel] at hx hy ⊢
        rw [hx, hy]
        exact ih _ hshort hxy.stop _ _ rfl
    | @blank b c t u hb hc hsame =>
      obtain ⟨prev₁, hx⟩ := apartBy_spots_trimStart h.solid prev (b :: t)
      obtain ⟨prev₂, hy⟩ := apartBy_spots_trimStart h.solid prev' (c :: u)
      rw [Text.trimStart_cons_of_isBlankChar hb] at hx
      rw [Text.trimStart_cons_of_isBlankChar hc] at hy
      rw [hx, hy]
      have hshort : (Text.trimStart t).length < (b :: t).length :=
        Nat.lt_succ_of_le (Text.length_trimStart_le t)
      exact ih _ hshort hsame _ _ rfl

/-- The parts in texts that have the same words, apart from blanks at the beginning. -/
theorem parts_eq {t u : List Char}
    (hsame : Text.SameWords (Text.trimStart t) (Text.trimStart u)) :
    p.parts s t = p.parts s u := by
  obtain ⟨prev, ht⟩ := apartBy_spots_trimStart h.solid none t
  obtain ⟨prev', hu⟩ := apartBy_spots_trimStart h.solid none u
  rw [parts, parts, occurrences_eq, occurrences_eq, ht, hu]
  exact h.apartBy_eq hsame prev prev'

end SteadyPart

end Pattern

end CodeAtlas
