/-
What globs fit.

`Covers` says which paths the tokens of a glob stand for, without an order in which choices
are tried: a star stands for any part of one name, two stars for whole names up to the place
where the next one begins (`NameBegins`). The matcher tries the rests that a star can leave,
the longest first, and ends the whole attempt where the path is too short for what follows.
That it ends too early is ruled out in `Decided`: what is too long for a path is too long for
each shorter rest that may be asked for later. So matching finds all that the tokens stand
for (`accepts_iff_covers`).

The rests that two stars leave begin a name each. This is where the places matter at which
two stars may stand: only behind what a name begins behind (`Parted`).
-/
import CodeAtlas.Files.Glob
import Mathlib.Data.List.Basic

set_option autoImplicit false

namespace CodeAtlas.Glob

/-! ## What tokens stand for -/

/-- Does a name begin between the two parts of a path, or does the path end there? -/
def NameBegins (a b : List Char) : Prop := a = [] ∨ a.getLast? = some '/' ∨ b = []

/-- May a star take the first part of a path and leave the second? Two stars for directories
leave what begins a name; one star takes no slash. -/
def Leaves (directories : Bool) (a b : List Char) : Prop :=
  if directories then NameBegins a b else '/' ∉ a

/-- The star of each kind. -/
def star (directories : Bool) : GlobToken := if directories then .anyDirectories else .anySequence

/-- The paths that tokens stand for. -/
inductive Covers : List GlobToken → List Char → Prop where
  | nil : Covers [] []
  | one {token : GlobToken} {c : Char} {ts : List GlobToken} {path : List Char} :
      GlobToken.takes token c = true → Covers ts path → Covers (token :: ts) (c :: path)
  | star {directories : Bool} {ts : List GlobToken} {a b : List Char} :
      Leaves directories a b → Covers ts b → Covers (star directories :: ts) (a ++ b)

/-- Does a name begin behind what the token stands for? -/
def beginsName (token : GlobToken) : Bool := token = .char '/' || token = .anyDirectories

/-- Where the tokens stand at the start of a name if `edge` holds, do all pairs of stars
stand at such places? -/
def Parted (edge : Bool) : List GlobToken → Prop
  | [] => True
  | token :: ts => (token = .anyDirectories → edge = true) ∧ Parted (beginsName token) ts

theorem takes_star (directories : Bool) (c : Char) :
    GlobToken.takes (star directories) c = false := by
  cases directories <;> rfl

theorem not_covers_nil_cons {c : Char} {path : List Char} : ¬ Covers [] (c :: path) := by
  intro h
  cases h

theorem covers_star_iff {directories : Bool} {ts : List GlobToken} {path : List Char} :
    Covers (star directories :: ts) path ↔
      ∃ a b, path = a ++ b ∧ Leaves directories a b ∧ Covers ts b := by
  constructor
  · intro h
    generalize htokens : star directories :: ts = tokens at h
    cases h with
    | nil => simp at htokens
    | one htakes hrest =>
      obtain ⟨rfl, rfl⟩ := List.cons.inj htokens
      rw [takes_star] at htakes
      cases htakes
    | @star directories' _ a b hleaves hrest =>
      obtain ⟨hstar, rfl⟩ := List.cons.inj htokens
      have hkind : directories = directories' := by
        revert hstar
        cases directories <;> cases directories' <;> simp [star]
      subst hkind
      exact ⟨a, b, rfl, hleaves, hrest⟩
  · rintro ⟨a, b, rfl, hleaves, hrest⟩
    exact .star hleaves hrest

theorem covers_one_iff {token : GlobToken} (htoken : ∀ directories, token ≠ star directories)
    {ts : List GlobToken} {path : List Char} :
    Covers (token :: ts) path ↔
      ∃ c rest, path = c :: rest ∧ GlobToken.takes token c = true ∧ Covers ts rest := by
  constructor
  · intro h
    generalize htokens : token :: ts = tokens at h
    cases h with
    | nil => simp at htokens
    | one htakes hrest =>
      obtain ⟨rfl, rfl⟩ := List.cons.inj htokens
      exact ⟨_, _, rfl, htakes, hrest⟩
    | star hleaves hrest => exact absurd (List.cons.inj htokens).1 (htoken _)
  · rintro ⟨c, rest, rfl, htakes, hrest⟩
    exact .one htakes hrest

/-! ## The rests that stars leave -/

/-- What a star may leave of a path behind at least one character, the longest rest first. -/
def rests (directories : Bool) : List Char → List (List Char)
  | [] => [[]]
  | c :: t =>
    if directories then if c = '/' then t :: rests directories t else rests directories t
    else if c = '/' then [] else t :: rests directories t

theorem mem_rests_true {path q : List Char} :
    q ∈ rests true path ↔ ∃ a, path = a ++ q ∧ (a.getLast? = some '/' ∨ q = []) := by
  -- two stars take whole names, each with its slash, or all that there is
  induction path with
  | nil => simp [rests, eq_comm]
  | cons c t ih =>
    constructor
    · intro h
      simp only [rests, if_true] at h
      have hlater : q ∈ rests true t →
          ∃ a, c :: t = a ++ q ∧ (a.getLast? = some '/' ∨ q = []) := by
        intro hq
        obtain ⟨a, rfl, ha⟩ := ih.mp hq
        exact ⟨c :: a, rfl, ha.imp_left fun hlast => by rw [List.getLast?_cons, hlast]; rfl⟩
      split at h
      · rename_i hc
        rcases List.mem_cons.mp h with rfl | hq
        · exact ⟨[c], rfl, .inl (by rw [hc]; rfl)⟩
        · exact hlater hq
      · exact hlater h
    · rintro ⟨a, heq, ha⟩
      cases a with
      | nil =>
        rw [List.nil_append] at heq
        simp [← heq] at ha
      | cons d a =>
        obtain ⟨rfl, rfl⟩ := List.cons.inj heq
        simp only [rests, if_true]
        by_cases hnil : a = [] ∧ q ≠ []
        · -- the slash is the character that was taken first
          obtain ⟨rfl, hq⟩ := hnil
          have hc : c = '/' := by simpa [hq] using ha
          rw [if_pos hc]
          exact List.mem_cons_self
        · have hq : q ∈ rests true (a ++ q) := by
            refine ih.mpr ⟨a, rfl, ?_⟩
            rcases ha with hlast | hq
            · cases a with
              | nil => exact .inr (by simpa using hnil)
              | cons e a => exact .inl (by rwa [List.getLast?_cons_cons] at hlast)
            · exact .inr hq
          split
          · exact List.mem_cons_of_mem _ hq
          · exact hq

theorem mem_rests_false {path q : List Char} :
    q ∈ rests false path ↔ ∃ a, path = a ++ q ∧ '/' ∉ a ∧ (a ≠ [] ∨ q = []) := by
  induction path with
  | nil => simp [rests, eq_comm]
  | cons c t ih =>
    -- one star takes at least a character, and stops in front of a slash
    simp only [rests, Bool.false_eq_true, if_false]
    constructor
    · intro h
      split at h
      · simp at h
      · rename_i hc
        rcases List.mem_cons.mp h with rfl | hq
        · exact ⟨[c], rfl, by simpa [eq_comm] using hc, .inl (List.cons_ne_nil _ _)⟩
        · obtain ⟨a, rfl, ha, -⟩ := ih.mp hq
          exact ⟨c :: a, rfl, by simp [ha, Ne.symm hc], .inl (List.cons_ne_nil _ _)⟩
    · rintro ⟨a, heq, ha, hne⟩
      cases a with
      | nil =>
        rw [List.nil_append] at heq
        simp [← heq] at hne
      | cons d a =>
        obtain ⟨rfl, rfl⟩ := List.cons.inj heq
        rw [List.mem_cons, not_or] at ha
        rw [if_neg (Ne.symm ha.1)]
        by_cases hnil : a = []
        · subst hnil
          exact List.mem_cons_self
        · exact List.mem_cons_of_mem _ (ih.mpr ⟨a, rfl, ha.2, .inl hnil⟩)

/-- The rests that are tried, the whole path first, are those that a star may leave. -/
theorem mem_cons_rests {directories : Bool} {path q : List Char} :
    q ∈ path :: rests directories path ↔ ∃ a, path = a ++ q ∧ Leaves directories a q := by
  rw [List.mem_cons]
  cases directories with
  | true =>
    rw [mem_rests_true]
    constructor
    · rintro (rfl | ⟨a, rfl, ha⟩)
      · exact ⟨[], rfl, .inl rfl⟩
      · exact ⟨a, rfl, .inr ha⟩
    · rintro ⟨a, rfl, rfl | ha⟩
      · exact .inl rfl
      · exact .inr ⟨a, rfl, ha⟩
  | false =>
    rw [mem_rests_false]
    constructor
    · rintro (rfl | ⟨a, rfl, ha, -⟩)
      · exact ⟨[], rfl, List.not_mem_nil⟩
      · exact ⟨a, rfl, ha⟩
    · rintro ⟨a, rfl, ha⟩
      by_cases hnil : a = []
      · exact .inl (by rw [hnil]; rfl)
      · exact .inr ⟨a, rfl, ha, .inl hnil⟩

/-- What is tried behind a rest is what a star may leave of that rest. -/
theorem pairwise_cons_rests (directories : Bool) (path : List Char) :
    (path :: rests directories path).Pairwise fun p q => q ∈ rests directories p := by
  induction path with
  | nil => simp [rests]
  | cons c t ih =>
    refine List.pairwise_cons.mpr ⟨fun q hq => hq, ?_⟩
    rw [rests]
    split
    · split
      · exact ih
      · exact (List.pairwise_cons.mp ih).2
    · split
      · exact .nil
      · exact ih

/-! ## Outcomes -/

/-- The outcome for the first of the rests that does not fail. -/
def firstOutcome (k : List Char → Outcome) : List (List Char) → Outcome
  | [] => .failed
  | p :: ps => if k p = .failed then firstOutcome k ps else k p

theorem stretch_eq (directories : Bool) (k : List Char → Outcome) (path : List Char) :
    stretch directories k path = firstOutcome k (rests directories path) := by
  induction path with
  | nil =>
    rw [stretch, rests, firstOutcome, firstOutcome]
    split
    · assumption
    · rfl
  | cons c t ih =>
    rw [stretch, rests]
    cases directories with
    | true =>
      by_cases hc : c = '/'
      · rw [if_pos rfl, if_neg (not_not.mpr hc), if_pos rfl, if_pos hc, firstOutcome, ← ih]
        cases k t <;> rfl
      · rw [if_pos rfl, if_pos hc, if_pos rfl, if_neg hc]
        exact ih
    | false =>
      rw [if_neg Bool.false_ne_true, if_neg Bool.false_ne_true]
      by_cases hc : c = '/'
      · rw [if_pos hc, if_pos hc]
        rfl
      · rw [if_neg hc, if_neg hc, firstOutcome, ← ih]
        cases k t <;> rfl

/-- Tokens that begin with a star are tried on what it leaves. -/
theorem matchTokens_star (directories : Bool) (ts : List GlobToken) (path : List Char) :
    matchTokens (star directories :: ts) path =
      firstOutcome (matchTokens ts) (path :: rests directories path) := by
  rw [firstOutcome, ← stretch_eq]
  cases directories with
  | true =>
    rw [star, if_pos rfl, matchTokens]
    cases matchTokens ts path <;> rfl
  | false =>
    rw [star, if_neg Bool.false_ne_true, matchTokens]
    cases matchTokens ts path <;> rfl

theorem matchTokens_one {token : GlobToken} (htoken : ∀ directories, token ≠ star directories)
    (ts : List GlobToken) (path : List Char) :
    matchTokens (token :: ts) path =
      match path with
      | [] => .exhausted
      | c :: rest => if GlobToken.takes token c then matchTokens ts rest else .failed := by
  cases token with
  | anySequence => exact absurd rfl (htoken false)
  | anyDirectories => exact absurd rfl (htoken true)
  | _ => cases path <;> rfl

section

variable {k : List Char → Outcome} {l : List (List Char)} {p : List Char}

theorem exists_of_firstOutcome_matched (h : firstOutcome k l = .matched) :
    ∃ p ∈ l, k p = .matched := by
  induction l with
  | nil => simp [firstOutcome] at h
  | cons p ps ih =>
    rw [firstOutcome] at h
    split at h
    · obtain ⟨q, hq, hk⟩ := ih h
      exact ⟨q, List.mem_cons_of_mem _ hq, hk⟩
    · exact ⟨p, List.mem_cons_self, h⟩

/-- An attempt that ends too early spoils nothing if nothing behind it fits. -/
theorem firstOutcome_matched (hpair : l.Pairwise fun p q => k p = .exhausted → k q ≠ .matched)
    (hp : p ∈ l) (hk : k p = .matched) : firstOutcome k l = .matched := by
  induction l with
  | nil => simp at hp
  | cons q qs ih =>
    obtain ⟨hq, hqs⟩ := List.pairwise_cons.mp hpair
    rw [firstOutcome]
    rcases List.mem_cons.mp hp with rfl | hp
    · rw [hk]
      rfl
    · split
      · exact ih hqs hp
      · rename_i hdone
        cases hout : k q with
        | matched => rfl
        | failed => exact absurd hout hdone
        | exhausted => exact absurd hk (hq p hp hout)

theorem exists_of_firstOutcome_exhausted (h : firstOutcome k l = .exhausted) :
    ∃ l₁ p l₂, l = l₁ ++ p :: l₂ ∧ k p = .exhausted ∧ ∀ q ∈ l₁, k q = .failed := by
  induction l with
  | nil => simp [firstOutcome] at h
  | cons q qs ih =>
    rw [firstOutcome] at h
    split at h
    · rename_i hfailed
      obtain ⟨l₁, p, l₂, rfl, hp, hbefore⟩ := ih h
      exact ⟨q :: l₁, p, l₂, rfl, hp, List.forall_mem_cons.mpr ⟨hfailed, hbefore⟩⟩
    · exact ⟨[], q, qs, rfl, h, fun _ hmem => by simp at hmem⟩

end

/-! ## Matching finds what tokens stand for -/

theorem NameBegins.of_append {a b c : List Char} (h : NameBegins (a ++ b) c) : NameBegins b c := by
  by_cases hb : b = []
  · exact .inl hb
  · rcases h with hnil | hlast | hc
    · exact .inl (List.append_eq_nil_iff.mp hnil).2
    · rw [List.getLast?_append_of_ne_nil _ hb] at hlast
      exact .inr (.inl hlast)
    · exact .inr (.inr hc)

theorem NameBegins.append {a b c : List Char} (h : NameBegins a (b ++ c)) (hb : NameBegins b c) :
    NameBegins (a ++ b) c := by
  rcases hb with rfl | hlast | hc
  · rwa [List.append_nil]
  · refine .inr (.inl ?_)
    rw [List.getLast?_append, hlast]
    rfl
  · exact .inr (.inr hc)

/-- What matching tells of the tokens: it finds the paths that they stand for; and where a path
is too short, no rest of it is stood for, so far as the rest begins where the tokens may
stand. -/
structure Decided (edge : Bool) (ts : List GlobToken) : Prop where
  matched : ∀ path, matchTokens ts path = .matched ↔ Covers ts path
  exhausted : ∀ a b, matchTokens ts (a ++ b) = .exhausted → (edge = true → NameBegins a b) →
    ¬ Covers ts b

theorem Decided.one {edge : Bool} {token : GlobToken} {ts : List GlobToken}
    (htoken : ∀ directories, token ≠ star directories) (h : Decided (beginsName token) ts) :
    Decided edge (token :: ts) := by
  constructor
  · intro path
    rw [matchTokens_one htoken, covers_one_iff htoken]
    cases path with
    | nil => simp
    | cons c rest =>
      by_cases htakes : GlobToken.takes token c = true
      · simp [htakes, h.matched]
      · simp [htakes]
  -- behind the one character that this token takes, the path is as short as before
  · intro a b hout _ hcovers
    obtain ⟨c, rest, rfl, htakes, hrest⟩ := (covers_one_iff htoken).mp hcovers
    rw [matchTokens_one htoken] at hout
    cases a with
    | nil =>
      rw [List.nil_append] at hout
      simp only [htakes, if_true] at hout
      exact h.exhausted [] rest hout (fun _ => .inl rfl) hrest
    | cons d a =>
      rw [List.cons_append] at hout
      simp only at hout
      split at hout
      · -- behind a slash, a name begins
        have hsplit : a ++ c :: rest = (a ++ [c]) ++ rest := by simp
        rw [hsplit] at hout
        refine h.exhausted (a ++ [c]) rest hout (fun hbegins => .inr (.inl ?_)) hrest
        have hslash : token = .char '/' := by
          rcases Bool.or_eq_true_iff.mp hbegins with h | h
          · exact of_decide_eq_true h
          · exact absurd (of_decide_eq_true h) (htoken true)
        rw [hslash] at htakes
        have hc : c = '/' := of_decide_eq_true htakes
        rw [hc, List.getLast?_concat]
      · cases hout

section

variable {directories : Bool} {ts : List GlobToken} {p q path : List Char}

/-- Where an attempt ends too early, nothing that would be tried behind it fits. -/
theorem Decided.not_covers_of_mem_rests (h : Decided directories ts)
    (hq : q ∈ rests directories p) (hout : matchTokens ts p = .exhausted) : ¬ Covers ts q := by
  obtain ⟨a, rfl, hleaves⟩ := mem_cons_rests.mp (List.mem_cons_of_mem p hq)
  refine h.exhausted a q hout fun hkind => ?_
  subst hkind
  exact hleaves

/-- No attempt fits but those in front of the first that ends too early, and they have failed. -/
theorem Decided.not_covers_of_tried {l₁ l₂ : List (List Char)} (h : Decided directories ts)
    (hl : path :: rests directories path = l₁ ++ p :: l₂) (hp : matchTokens ts p = .exhausted)
    (hbefore : ∀ q ∈ l₁, matchTokens ts q = .failed) (hq : q ∈ path :: rests directories path) :
    ¬ Covers ts q := by
  intro hcovers
  have hmatched := (h.matched q).mpr hcovers
  have hordered := pairwise_cons_rests directories path
  rw [hl] at hq hordered
  rcases List.mem_append.mp hq with hfirst | hlater
  · rw [hbefore q hfirst] at hmatched
    cases hmatched
  · rcases List.mem_cons.mp hlater with rfl | hlast
    · rw [hp] at hmatched
      cases hmatched
    · have hrest := (List.pairwise_cons.mp (List.pairwise_append.mp hordered).2.1).1 q hlast
      exact h.not_covers_of_mem_rests hrest hp hcovers

theorem Decided.matched_star (h : Decided directories ts) (path : List Char) :
    matchTokens (star directories :: ts) path = .matched ↔
      Covers (star directories :: ts) path := by
  rw [matchTokens_star, covers_star_iff]
  constructor
  · intro hout
    obtain ⟨p, hp, hmatched⟩ := exists_of_firstOutcome_matched hout
    obtain ⟨a, rfl, hleaves⟩ := mem_cons_rests.mp hp
    exact ⟨a, p, rfl, hleaves, (h.matched p).mp hmatched⟩
  · rintro ⟨a, b, rfl, hleaves, hb⟩
    have hpair := (pairwise_cons_rests directories (a ++ b)).imp
      (S := fun p q => matchTokens ts p = .exhausted → matchTokens ts q ≠ .matched)
      fun hq hout => mt (h.matched _).mp (h.not_covers_of_mem_rests hq hout)
    exact firstOutcome_matched hpair (mem_cons_rests.mpr ⟨a, rfl, hleaves⟩) ((h.matched b).mpr hb)

theorem Decided.star {edge : Bool} (directories : Bool) (hedge : directories = true → edge = true)
    (h : Decided directories ts) : Decided edge (star directories :: ts) := by
  refine ⟨h.matched_star, fun a b hout hname hcovers => ?_⟩
  obtain ⟨x, y, rfl, hleaves, hy⟩ := covers_star_iff.mp hcovers
  rw [matchTokens_star] at hout
  obtain ⟨l₁, p, l₂, hl, hp, hbefore⟩ := exists_of_firstOutcome_exhausted hout
  have hmem : p ∈ (a ++ (x ++ y)) :: rests directories (a ++ (x ++ y)) := by
    rw [hl]
    exact List.mem_append_right _ List.mem_cons_self
  obtain ⟨u, hu, hpleaves⟩ := mem_cons_rests.mp hmem
  have hbegins : directories = true → NameBegins (a ++ x) y := by
    intro hkind
    subst hkind
    exact (hname (hedge rfl)).append hleaves
  rw [← List.append_assoc] at hu
  rcases List.append_eq_append_iff.mp hu with ⟨z, rfl, rfl⟩ | ⟨z, hz, rfl⟩
  · -- the rest was tried in front of the attempt that ended too early, or is that attempt
    have hyleaves : Leaves directories (a ++ x) (z ++ p) := by
      cases directories with
      | true => exact hbegins rfl
      | false => exact fun hslash => hpleaves (List.mem_append_left z hslash)
    have htried : z ++ p ∈ (a ++ (x ++ (z ++ p))) :: rests directories (a ++ (x ++ (z ++ p))) :=
      mem_cons_rests.mpr ⟨a ++ x, by simp, hyleaves⟩
    exact h.not_covers_of_tried hl hp hbefore htried hy
  · -- the rest is a part of what was too short
    refine h.exhausted z y hp (fun hkind => ?_) hy
    have hbehind := hbegins hkind
    rw [hz] at hbehind
    exact hbehind.of_append

end

theorem decided_of_parted {edge : Bool} {ts : List GlobToken} (h : Parted edge ts) :
    Decided edge ts := by
  induction ts generalizing edge with
  | nil =>
    constructor
    · intro path
      cases path with
      | nil => simp [matchTokens, Covers.nil]
      | cons c path => simp [matchTokens, not_covers_nil_cons]
    · intro a b hout
      cases hab : a ++ b <;> simp [hab, matchTokens] at hout
  | cons token ts ih =>
    obtain ⟨hedge, hrest⟩ := h
    cases token with
    | anyDirectories => exact Decided.star true (fun _ => hedge rfl) (ih hrest)
    | anySequence => exact Decided.star false (fun hkind => by simp at hkind) (ih hrest)
    | _ =>
      exact Decided.one (fun directories => by cases directories <;> simp [Glob.star]) (ih hrest)

/-- A glob whose stars stand where they may fits exactly the paths that its tokens stand
for. -/
theorem accepts_iff_covers {g : Glob} (h : Parted true g.tokens) (path : List Char) :
    g.accepts path = true ↔ Covers g.tokens path := by
  rw [accepts, decide_eq_true_eq]
  exact (decided_of_parted h).matched path

end CodeAtlas.Glob
