/-
Patterns in a text that goes on.

A pattern that cannot take a character does nothing behind the first place where it stands. So
what is put behind the text does not change how the pattern is followed in front of that place
(`persists_run`). A match alone does not show that: what is tried first, and in vain, has to be
tried in vain in the longer text too. That is why the law is about runs, both those that succeed
and those that fail, and why it has a continuation that obeys it.

Where a pattern ends with such a character, the match of the longer text is the same one
(`match?_append`), and so are its parts, since a part is told by the number of characters
between two marks.
-/
import CodeAtlas.Proofs.Pattern.Follow

set_option autoImplicit false

namespace CodeAtlas

/-- The spot where more is put behind the text. -/
def Spot.extend (e : List Char) (m : Spot) : Spot := ⟨m.prev, m.rest ++ e, m.left + e.length⟩

/-- The match with all spots changed. -/
def Match.map (f : Spot → Spot) (r : Match) : Match :=
  ⟨f r.stop, r.marks.map fun mark => (mark.1, f mark.2)⟩

/-- The spot stands in front of `o`, in `u` or at its end. -/
structure Spot.InFront (u o : List Char) (m : Spot) : Prop where
  exact : m.Exact
  rest : ∃ v, v <:+ u ∧ m.rest = v ++ o

theorem Spot.start_extend (e t : List Char) : (start t).extend e = start (t ++ e) := by
  rw [start, start, extend, List.length_append]

section

variable {m : Spot} {e t u o v rest : List Char}

theorem Spot.Exact.behind (h : m.Exact) (hm : m.rest = t ++ rest) : (m.behind t rest).Exact := by
  have hlength := congrArg List.length hm
  rw [List.length_append, ← h] at hlength
  show m.left - t.length = rest.length
  omega

theorem Spot.Exact.extend_behind (h : m.Exact) (hm : m.rest = t ++ rest) :
    (m.extend e).behind t (rest ++ e) = (m.behind t rest).extend e := by
  have hlength := congrArg List.length hm
  rw [List.length_append, ← h] at hlength
  have hleft : m.left + e.length - t.length = m.left - t.length + e.length := by omega
  exact congrArg (Spot.mk _ (rest ++ e)) hleft

theorem Spot.inFront_start (u o : List Char) : (start (u ++ o)).InFront u o :=
  ⟨rfl, u, List.suffix_rfl, rfl⟩

theorem Spot.Exact.inFront (h : m.Exact) (hm : m.rest = u ++ o) : m.InFront u o :=
  ⟨h, u, List.suffix_rfl, hm⟩

/-- Behind a text without the character the spot still stands in front of it. -/
theorem Spot.InFront.behind {d : Char} (h : m.InFront u (d :: o)) (ht : d ∉ t)
    (hrest : m.rest = t ++ rest) : (m.behind t rest).InFront u (d :: o) := by
  obtain ⟨v, hv, hsplit⟩ := h.rest
  refine ⟨h.exact.behind hrest, ?_⟩
  rw [hrest] at hsplit
  rcases List.append_eq_append_iff.mp hsplit with ⟨w, rfl, hw⟩ | ⟨w, rfl, hw⟩
  · exact ⟨w, (List.suffix_append t w).trans hv, hw⟩
  · cases w with
    | nil => exact ⟨[], List.nil_suffix, hw.symm⟩
    | cons c w =>
      obtain rfl : d = c := (List.cons.inj hw).1
      exact absurd (List.mem_append_right v List.mem_cons_self) ht

/-- The next character is in `u`, or the first one of `o`. -/
theorem Spot.InFront.next {c d : Char} (h : m.InFront u (d :: o)) (hrest : m.rest = c :: rest) :
    c ∈ u ∨ c = d := by
  obtain ⟨v, hv, hsplit⟩ := h.rest
  rw [hrest] at hsplit
  cases v with
  | nil => exact .inr (List.cons.inj hsplit).1
  | cons b v =>
    obtain rfl : c = b := (List.cons.inj hsplit).1
    exact .inl (hv.subset List.mem_cons_self)

/-- What stands behind the first character of `o` stands behind the next one. -/
theorem Spot.InFront.suffix {c d : Char} (h : m.InFront u (d :: o)) (hrest : m.rest = c :: rest) :
    o <:+ rest := by
  obtain ⟨v, -, hsplit⟩ := h.rest
  have hend : d :: o <:+ c :: rest := ⟨v, hsplit.symm.trans hrest⟩
  rcases List.suffix_cons_iff.mp hend with heq | hlater
  · exact ⟨[], (List.cons.inj heq).2⟩
  · exact (List.suffix_cons d o).trans hlater

theorem Spot.InFront.rest_suffix (h : m.InFront u o) : m.rest <:+ u ++ o := by
  obtain ⟨v, ⟨x, hx⟩, hrest⟩ := h.rest
  exact ⟨x, by rw [hrest, ← hx, List.append_assoc]⟩

theorem Spot.InFront.mem {d : Char} (h : m.InFront u (d :: o)) : d ∈ m.rest := by
  obtain ⟨v, -, hrest⟩ := h.rest
  rw [hrest]
  exact List.mem_append_right v List.mem_cons_self

end

namespace Pattern

/-- What is answered behind the spot is answered too where the text goes on with `e`. -/
def Persists (e : List Char) (f : Spot → Spot) (k k' : Spot → Option Match) (m : Spot) : Prop :=
  k' (m.extend e) = (k m).map (Match.map f)

section

variable {e u o : List Char} {f : Spot → Spot} {k k' : Spot → Option Match} {m : Spot} {d : Char}

/-- What is asked behind the whole pattern. -/
def done (m : Spot) : Option Match := some (.done m)

theorem persists_done (e : List Char) (m : Spot) : Persists e (Spot.extend e) done done m := rfl

/-! ## One construct -/

theorem persists_one {p : Char → Bool} {c : Char} {rest : List Char} (hm : m.Exact)
    (hrest : m.rest = c :: rest) (hc : p c = true) (hk : Persists e f k k' (m.behind [c] rest)) :
    Persists e f ((one p).run k) ((one p).run k') m := by
  have hlonger : (m.extend e).rest = c :: (rest ++ e) := congrArg (· ++ e) hrest
  rw [Persists, run_one hrest hc, run_one hlonger hc, hm.extend_behind (t := [c]) hrest]
  exact hk

theorem persists_runText {t : List Char} (hm : m.Exact) (hd : d ∈ m.rest) (ht : d ∉ t.dropLast)
    (hk : ∀ rest, m.rest = t ++ rest → Persists e f k k' (m.behind t rest)) :
    Persists e f (runText t k) (runText t k') m := by
  cases hafter : Text.after? t m.rest with
  | some rest =>
    have hrest := Text.after?_eq_some_iff.mp hafter
    have hlonger : Text.after? t (m.extend e).rest = some (rest ++ e) := by
      rw [Text.after?_eq_some_iff, ← List.append_assoc, ← hrest]
      rfl
    have hnext := hk rest hrest
    rw [Persists, ← hm.extend_behind hrest] at hnext
    rw [Persists, runText, runText, hlonger, hafter]
    exact hnext
  | none =>
    -- the text would have to end inside `t`, in front of its last character
    have hlonger : Text.after? t (m.extend e).rest = none := by
      refine Option.eq_none_iff_forall_ne_some.mpr ?_
      intro rest hrest
      have hsplit : m.rest ++ e = t ++ rest := Text.after?_eq_some_iff.mp hrest
      rcases List.append_eq_append_iff.mp hsplit with ⟨v, hv, -⟩ | ⟨v, hv, -⟩
      · rcases List.eq_nil_or_concat v with rfl | ⟨v, c, rfl⟩
        · rw [List.append_nil] at hv
          rw [Text.after?_eq_some_iff.mpr (show m.rest = t ++ [] by rw [hv, List.append_nil])]
            at hafter
          cases hafter
        · rw [hv, List.concat_eq_append, ← List.append_assoc, List.dropLast_concat] at ht
          exact ht (List.mem_append_left v hd)
      · rw [Text.after?_eq_some_iff.mpr hv] at hafter
        cases hafter
    rw [Persists, runText, runText, hlonger, hafter]
    rfl

variable (hk : ∀ m, m.InFront u (d :: o) → Persists e f k k' m)
include hk

theorem persists_runMany {p : Char → Bool} (hp : p d = false) (v : List Char) (hv : v <:+ u)
    (prev : Option Char) :
    runMany p k' prev (v ++ d :: o ++ e) ((v ++ d :: o).length + e.length) =
      (runMany p k prev (v ++ d :: o) (v ++ d :: o).length).map (Match.map f) := by
  induction v generalizing prev with
  | nil =>
    have hhere := hk ⟨prev, d :: o, (d :: o).length⟩ ⟨rfl, [], List.nil_suffix, rfl⟩
    simp only [List.nil_append, List.cons_append, runMany, hp, Bool.false_eq_true, if_false]
    exact hhere
  | cons c v ih =>
    have hhere := hk ⟨prev, c :: v ++ d :: o, (c :: v ++ d :: o).length⟩ ⟨rfl, c :: v, hv, rfl⟩
    have hmore := ih ((List.suffix_cons c v).trans hv) (some c)
    have hleft : (c :: v ++ d :: o).length + e.length - 1 = (v ++ d :: o).length + e.length := by
      rw [List.cons_append, List.length_cons]
      omega
    have hleft' : (c :: v ++ d :: o).length - 1 = (v ++ d :: o).length := rfl
    simp only [Persists, Spot.extend, List.cons_append] at hhere hmore hleft hleft' ⊢
    simp only [runMany, hleft, hleft', hmore, hhere]
    split
    · exact Option.map_or.symm
    · rfl

theorem persists_runFew {p : Char → Bool} (hp : p d = false) (v : List Char) (hv : v <:+ u)
    (prev : Option Char) :
    runFew p k' prev (v ++ d :: o ++ e) ((v ++ d :: o).length + e.length) =
      (runFew p k prev (v ++ d :: o) (v ++ d :: o).length).map (Match.map f) := by
  induction v generalizing prev with
  | nil =>
    have hhere := hk ⟨prev, d :: o, (d :: o).length⟩ ⟨rfl, [], List.nil_suffix, rfl⟩
    simp only [List.nil_append, List.cons_append, runFew, hp, Bool.false_eq_true, if_false,
      Option.or_none]
    exact hhere
  | cons c v ih =>
    have hhere := hk ⟨prev, c :: v ++ d :: o, (c :: v ++ d :: o).length⟩ ⟨rfl, c :: v, hv, rfl⟩
    have hmore := ih ((List.suffix_cons c v).trans hv) (some c)
    have hleft : (c :: v ++ d :: o).length + e.length - 1 = (v ++ d :: o).length + e.length := by
      rw [List.cons_append, List.length_cons]
      omega
    have hleft' : (c :: v ++ d :: o).length - 1 = (v ++ d :: o).length := rfl
    simp only [Persists, Spot.extend, List.cons_append] at hhere hmore hleft hleft' ⊢
    simp only [runFew, hleft, hleft', hmore, hhere]
    split
    · exact Option.map_or.symm
    · simp only [Option.or_none]

/-- Alternatives without the character are tried in the same order, and in vain in both texts. -/
theorem persists_among {ts : List (List Char)} (hts : ∀ t ∈ ts, d ∉ t)
    (hm : m.InFront u (d :: o)) : Persists e f ((among ts).run k) ((among ts).run k') m := by
  show Persists e f (fun m => ts.findSome? fun t => runText t k m)
    (fun m => ts.findSome? fun t => runText t k' m) m
  induction ts with
  | nil => rfl
  | cons t ts ih =>
    obtain ⟨ht, hmore⟩ := List.forall_mem_cons.mp hts
    have hfirst : Persists e f (runText t k) (runText t k') m :=
      persists_runText hm.exact hm.mem (fun h => ht (List.dropLast_subset t h))
        fun rest hrest => hk _ (hm.behind ht hrest)
    have hlater := ih hmore
    rw [Persists] at hfirst hlater ⊢
    rw [List.findSome?_cons, List.findSome?_cons, hfirst, hlater]
    cases runText t k m <;> rfl

/-- One character of a class without the character `d` is taken in both texts or in neither. -/
theorem persists_one_of_not {p : Char → Bool} (hp : p d = false) (hm : m.InFront u (d :: o)) :
    Persists e f ((one p).run k) ((one p).run k') m := by
  obtain ⟨c, rest, hrest⟩ := List.exists_cons_of_ne_nil (List.ne_nil_of_mem hm.mem)
  by_cases hc : p c = true
  · have hne : d ∉ [c] := by
      rw [List.mem_singleton]
      rintro rfl
      exact Bool.false_ne_true (hp.symm.trans hc)
    exact persists_one hm.exact hrest hc (hk _ (hm.behind hne hrest))
  · have hnone : p c = false := Bool.eq_false_iff.mpr hc
    have hlonger : (m.extend e).rest = c :: (rest ++ e) := congrArg (· ++ e) hrest
    rw [Persists, run_one_of_not hrest hnone, run_one_of_not hlonger hnone]
    rfl

/-- An edge is told by the characters on its two sides, and the one behind it is there. -/
theorem persists_edge (hm : m.InFront u (d :: o)) :
    Persists e f (edge.run k) (edge.run k') m := by
  obtain ⟨c, t, hrest⟩ := List.exists_cons_of_ne_nil (List.ne_nil_of_mem hm.mem)
  have hedge : (m.extend e).isEdge = m.isEdge := by
    rw [Spot.isEdge, Spot.isEdge, Spot.extend, hrest]
    rfl
  rw [Persists, run, run, hedge, hk m hm]
  split <;> rfl

omit hk in
theorem persists_or {k₁ k₁' : Spot → Option Match} (h : Persists e f k k' m)
    (h₁ : Persists e f k₁ k₁' m) :
    Persists e f (fun m => (k m).or (k₁ m)) (fun m => (k' m).or (k₁' m)) m := by
  rw [Persists] at h h₁ ⊢
  rw [h, h₁, Option.map_or]

/-! ## Any pattern -/

/-- A pattern that does not take the character is followed in front of it as before. -/
theorem persists_run (hf : ∀ m, m.rest ≠ [] → f m = m.extend e) {p : Pattern}
    (hp : p.takes d = false) (hm : m.InFront u (d :: o)) : Persists e f (p.run k) (p.run k') m := by
  -- what is asked behind the pattern varies: in a sequence it is the rest of the pattern
  induction p generalizing k k' m with
  | exactly t =>
    have ht : d ∉ t := by simpa [takes] using hp
    exact persists_runText hm.exact hm.mem (fun h => ht (List.dropLast_subset t h))
      fun rest hrest => hk _ (hm.behind ht hrest)
  | among ts => exact persists_among hk (by simpa [takes] using hp) hm
  | one p => exact persists_one_of_not hk hp hm
  | many p =>
    obtain ⟨prev, t, left⟩ := m
    obtain ⟨hexact, v, hv, hrest⟩ := hm
    obtain rfl : t = v ++ d :: o := hrest
    obtain rfl : left = (v ++ d :: o).length := hexact
    exact persists_runMany hk hp v hv prev
  | few p =>
    obtain ⟨prev, t, left⟩ := m
    obtain ⟨hexact, v, hv, hrest⟩ := hm
    obtain rfl : t = v ++ d :: o := hrest
    obtain rfl : left = (v ++ d :: o).length := hexact
    exact persists_runFew hk hp v hv prev
  | seq a b iha ihb =>
    rw [takes, Bool.or_eq_false_iff] at hp
    exact iha (fun m hm => ihb hk hp.2 hm) hp.1 hm
  | either a b iha ihb =>
    rw [takes, Bool.or_eq_false_iff] at hp
    exact persists_or (iha hk hp.1 hm) (ihb hk hp.2 hm)
  | mark s =>
    have hnext := hk m hm
    rw [Persists] at hnext ⊢
    rw [run, run, hnext, ← hf m (List.ne_nil_of_mem hm.mem), Option.map_map, Option.map_map]
    rfl
  | first =>
    show (if m.prev.isNone then k' (m.extend e) else none) = _
    rw [run, hk m hm]
    split <;> rfl
  | last =>
    -- the end is not here in either text, since the character is still to come
    obtain ⟨c, t, hrest⟩ := List.exists_cons_of_ne_nil (List.ne_nil_of_mem hm.mem)
    rw [Persists, run, run, Spot.extend, hrest]
    rfl
  | edge => exact persists_edge hk hm

end

variable {e u o : List Char} {f : Spot → Spot} {k k' : Spot → Option Match} {m : Spot} {d : Char}
  {a b : Pattern}

theorem persists_append (h : Persists e f (a.run (b.run k)) (a.run (b.run k')) m) :
    Persists e f ((a ++ b).run k) ((a ++ b).run k') m := by
  rw [Persists] at h ⊢
  rw [run_append, run_append, h]

theorem persists_opt (h : Persists e f (a.run k) (a.run k') m) (hk : Persists e f k k' m) :
    Persists e f ((opt a).run k) ((opt a).run k') m := by
  have hnothing : Persists e f ((lit "").run k) ((lit "").run k') m := by
    rw [Persists] at hk ⊢
    rw [run_nothing, run_nothing, hk]
  exact persists_or h hnothing

/-- A sign is there or not, as long as the text does not end in front of it. -/
theorem persists_sign {s : String} (hs : s.toList = [d]) (hm : m.Exact) (hne : m.rest ≠ [])
    (hk : ∀ rest, m.rest = d :: rest → Persists e f k k' (m.behind [d] rest)) :
    Persists e f ((lit s).run k) ((lit s).run k') m := by
  obtain ⟨c, rest, hrest⟩ := List.exists_cons_of_ne_nil hne
  have hc : c ∈ m.rest := by
    rw [hrest]
    exact List.mem_cons_self
  show Persists e f (runText s.toList k) (runText s.toList k') m
  rw [hs]
  exact persists_runText hm hc List.not_mem_nil hk

theorem persists_mark (s : Slot) (hf : f m = m.extend e) (hk : Persists e f k k' m) :
    Persists e f ((mark s).run k) ((mark s).run k') m := by
  rw [Persists] at hk ⊢
  rw [run, run, hk, ← hf, Option.map_map, Option.map_map]
  rfl

theorem persists_keep (s : Slot) (hf : f m = m.extend e)
    (h : Persists e f (a.run ((mark s).run k)) (a.run ((mark s).run k')) m) :
    Persists e f ((keep s a).run k) ((keep s a).run k') m :=
  persists_append (persists_append (persists_mark s hf h))

/-- A repetition that takes as little as it can does not go behind a place where what follows
succeeds, whatever it could take. -/
theorem persists_few {p : Char → Bool} (hk : ∀ m, m.InFront u o → Persists e f k k' m)
    (hsome : ∀ m, m.Exact → m.rest = o → (k m).isSome = true) (hm : m.InFront u o) :
    Persists e f ((few p).run k) ((few p).run k') m := by
  obtain ⟨prev, t, left⟩ := m
  obtain ⟨hexact, v, hv, hrest⟩ := hm
  obtain rfl : t = v ++ o := hrest
  obtain rfl : left = (v ++ o).length := hexact
  -- where the text in front is used up, what follows succeeds and the repetition is over
  induction v generalizing prev with
  | nil =>
    obtain ⟨r, hr⟩ := Option.isSome_iff_exists.mp (hsome ⟨prev, o, o.length⟩ rfl rfl)
    have hhere := hk ⟨prev, o, o.length⟩ ⟨rfl, [], List.nil_suffix, rfl⟩
    rw [Persists, hr] at hhere
    have hshort : (few p).run k ⟨prev, o, o.length⟩ = some r := runFew_of_some hr
    have hlong : (few p).run k' (Spot.extend e ⟨prev, o, o.length⟩) = some (r.map f) :=
      runFew_of_some hhere
    show (few p).run k' (Spot.extend e ⟨prev, o, o.length⟩) =
      ((few p).run k ⟨prev, o, o.length⟩).map (Match.map f)
    rw [hshort, hlong]
    rfl
  | cons c v ih =>
    have hhere := hk ⟨prev, c :: v ++ o, (c :: v ++ o).length⟩ ⟨rfl, c :: v, hv, rfl⟩
    have hmore := ih (some c) ((List.suffix_cons c v).trans hv)
    have hleft : (c :: v ++ o).length + e.length - 1 = (v ++ o).length + e.length := by
      rw [List.cons_append, List.length_cons]
      omega
    have hleft' : (c :: v ++ o).length - 1 = (v ++ o).length := rfl
    simp only [Persists, Spot.extend, List.cons_append, run] at hhere hmore hleft hleft' ⊢
    simp only [runFew, hleft, hleft', hmore, hhere]
    split
    · exact Option.map_or.symm
    · simp only [Option.or_none]

/-! ## Matches -/

theorem match?_eq (p : Pattern) (t : List Char) : p.match? t = p.run done (.start t) :=
  match?_eq_run p t

/-- A match that persists is the match of the longer text. -/
theorem match?_extend {p : Pattern} {t : List Char}
    (h : Persists e f (p.run done) (p.run done) (.start t)) :
    p.match? (t ++ e) = (p.match? t).map (Match.map f) := by
  rw [Persists, Spot.start_extend] at h
  rw [match?_eq, match?_eq, h]

/-- What is put behind the text has no part in a match that ends with the first place of a
character. -/
theorem match?_append {front : Pattern} {s : String} (hs : s.toList = [d])
    (hfront : front.takes d = false) {t : List Char} (hd : d ∈ t) (e : List Char) :
    (front ++ lit s).match? (t ++ e) =
      ((front ++ lit s).match? t).map (Match.map (Spot.extend e)) := by
  obtain ⟨u, o, rfl⟩ := List.append_of_mem hd
  refine match?_extend (persists_append (persists_run ?_ (fun _ _ => rfl) hfront
    (Spot.inFront_start u (d :: o))))
  exact fun m hm =>
    persists_sign hs hm.exact (List.ne_nil_of_mem hm.mem) fun _ _ => persists_done e _

theorem Matches.exact_of_mem {p : Pattern} {m' : Spot} {ms : List (Slot × Spot)}
    (h : Matches p m m' ms) (hm : m.Exact) {s : Slot} {a : Spot} (ha : (s, a) ∈ ms) :
    a.Exact := by
  induction h with
  | seq hp _ iha ihb =>
    rcases List.mem_append.mp ha with hleft | hright
    · exact iha hm hleft
    · exact ihb (hp.exact hm) hright
  | left _ ih => exact ih hm ha
  | right _ ih => exact ih hm ha
  | mark =>
    cases List.mem_singleton.mp ha
    exact hm
  | _ => exact absurd ha List.not_mem_nil

/-- A mark stands in front of the end of the match. -/
theorem Matches.suffix_stop_of_mem {p : Pattern} {m' : Spot} {ms : List (Slot × Spot)}
    (h : Matches p m m' ms) {s : Slot} {a : Spot} (ha : (s, a) ∈ ms) : m'.rest <:+ a.rest := by
  induction h with
  | seq _ hp iha ihb =>
    obtain ⟨w, hw, -⟩ := hp.exists_behind
    rcases List.mem_append.mp ha with hleft | hright
    · exact (List.IsSuffix.trans ⟨w, hw.symm⟩ (iha hleft))
    · exact ihb hright
  | left _ ih => exact ih ha
  | right _ ih => exact ih ha
  | mark =>
    cases List.mem_singleton.mp ha
    exact List.suffix_rfl
  | _ => exact absurd ha List.not_mem_nil

theorem Match.has_map (r : Match) (s : Slot) : (r.map f).has s = r.has s := by
  rw [Match.has, Match.map, List.any_map]
  rfl

/-- A part between two marks that are only moved on is the same. -/
theorem Match.part?_map {r : Match} {s : Slot}
    (h : ∀ a, (s, a) ∈ r.marks → a.Exact ∧ f a = a.extend e) : (r.map f).part? s = r.part? s := by
  have hfilter : (r.map f).marks.filter (·.1 = s) =
      (r.marks.filter (·.1 = s)).map fun mark => (mark.1, f mark.2) := List.filter_map
  have hmem : ∀ mark ∈ r.marks.filter (·.1 = s), mark.2.Exact ∧ f mark.2 = mark.2.extend e := by
    intro mark hmark
    obtain ⟨hmark, hslot⟩ := List.mem_filter.mp hmark
    refine h mark.2 ?_
    rw [← of_decide_eq_true hslot]
    exact hmark
  rw [Match.part?, Match.part?, hfilter]
  generalize r.marks.filter (·.1 = s) = marks at hmem ⊢
  rcases marks with _ | ⟨⟨_, a⟩, _ | ⟨⟨_, b⟩, marks⟩⟩
  · rfl
  · rfl
  · obtain ⟨ha, hfa⟩ := hmem _ List.mem_cons_self
    have hfb := (hmem _ (List.mem_cons_of_mem _ List.mem_cons_self)).2
    have hlength : a.left - b.left ≤ a.rest.length := ha ▸ Nat.sub_le a.left b.left
    simp only [List.map_cons, hfa, hfb, Spot.extend, Nat.add_sub_add_right,
      List.take_append_of_le_length hlength]

theorem part?_extend {p : Pattern} {t : List Char} {r : Match} (h : p.match? t = some r)
    (e : List Char) (s : Slot) : (r.map (Spot.extend e)).part? s = r.part? s :=
  Match.part?_map fun _ ha => ⟨(matches_of_match? h).exact_of_mem rfl ha, rfl⟩

end Pattern

end CodeAtlas
