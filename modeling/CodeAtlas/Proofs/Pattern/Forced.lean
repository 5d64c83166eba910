/-
Patterns that leave no choice.

`Finds` follows a pattern where what stands behind it succeeds. That a header is refused is another
matter: whatever could be taken back has to be taken back in vain. A repetition gives nothing back
to what never begins with a character of its class, and a part that may be left out is not left
out for what cannot stand in its place. So the pattern goes one way only, and the header is found
exactly if what follows is found there (`Forces`).
-/
import CodeAtlas.Proofs.Pattern.Word

set_option autoImplicit false

namespace CodeAtlas.Pattern

variable {p q : Char → Bool} {k : Spot → Option Match} {m m' m'' : Spot} {s : Slot}
  {w u x rest : List Char} {a b c : Pattern} {ms ms' : List (Slot × Spot)}

/-- In front of `b`, the pattern leads from the first spot to the second, and nowhere else. -/
def Forces (a b : Pattern) (m m' : Spot) (ms : List (Slot × Spot)) : Prop :=
  ∀ k, (a ++ b).run k m = (b.run k m').map (Match.after ms)

theorem map_after_nil (o : Option Match) : o.map (Match.after []) = o := by
  cases o <;> rfl

theorem run_append_append (a b c : Pattern) (k : Spot → Option Match) (m : Spot) :
    ((a ++ b) ++ c).run k m = (a ++ (b ++ c)).run k m := by
  simp only [run_append, funext (run_append b c k)]

theorem Forces.append (ha : Forces a (b ++ c) m m' ms) (hb : Forces b c m' m'' ms') :
    Forces (a ++ b) c m m'' (ms ++ ms') := by
  intro k
  rw [run_append_append, ha, hb, Option.map_map]
  congr 1
  funext r
  simp [Match.after]

/-- What matches in one way only leads there whatever stands behind it. -/
theorem forces_of_run (h : ∀ k, a.run k m = k m') : Forces a b m m' [] := by
  intro k
  rw [run_append, h, map_after_nil]

theorem forces_lit {s : String} (hm : m.rest = s.toList ++ rest) :
    Forces (lit s) b m (m.behind s.toList rest) [] := forces_of_run fun _ => run_lit hm

theorem forces_one {c : Char} (hm : m.rest = c :: rest) (hc : p c = true) :
    Forces (one p) b m (m.behind [c] rest) [] := forces_of_run fun _ => run_one hm hc

theorem run_many_of_refuses (hm : m.rest = w ++ rest) (hw : ∀ c ∈ w, p c = true)
    (hrest : rest.head?.any p = false) (hk : ∀ m r, k m = some r → m.rest.head?.any p = false) :
    (many p).run k m = k (m.behind w rest) := by
  cases hr : k (m.behind w rest) with
  | some r => exact run_many hm hw hrest hr
  | none =>
    refine Option.eq_none_iff_forall_ne_some.mpr fun r hrun => ?_
    obtain ⟨w', rest', hw', hm', hrest', hr'⟩ := exists_all_of_run_many (.inr hk) hrun
    have hsame : w ++ rest = w' ++ rest' := hm.symm.trans hm'
    have hfront := congrArg (List.takeWhile p) hsame
    rw [takeWhile_append_of_ends hw hrest, takeWhile_append_of_ends hw' hrest'] at hfront
    subst hfront
    rw [List.append_cancel_left hsame, hr'] at hr
    cases hr

/-- A repetition takes all that there is in front of what never begins with any of it. -/
theorem forces_many (hm : m.rest = w ++ rest) (hw : ∀ c ∈ w, p c = true)
    (hrest : rest.head?.any p = false) (hb : NeverFirst p b) (hempty : b.mayBeEmpty = false) :
    Forces (many p) b m (m.behind w rest) [] := by
  intro k
  rw [run_append, run_many_of_refuses hm hw hrest fun _ _ => hb.refuses hempty, map_after_nil]

/-- Where there is nothing to repeat, the spot stays. -/
theorem forces_many_nothing (hm : m.rest.head?.any p = false) : Forces (many p) b m m [] := by
  refine forces_of_run fun k => ?_
  rw [run]
  obtain ⟨prev, rest, left⟩ := m
  cases rest with
  | nil => rfl
  | cons c rest =>
    have hc : p c = false := hm
    rw [runMany, hc]
    rfl

/-- Such a name is taken as a whole. -/
theorem forces_name (hname : IsNameOf p q u) (hm : m.rest = u ++ rest)
    (hrest : rest.head?.any q = false) (hb : NeverFirst q b) (hempty : b.mayBeEmpty = false) :
    Forces (one p ++ many q) b m (m.behind u rest) [] := by
  obtain ⟨c, u, rfl, hc, hu⟩ := hname
  have hmore : Forces (many q) b (m.behind [c] (u ++ rest))
      ((m.behind [c] (u ++ rest)).behind u rest) [] := forces_many rfl hu hrest hb hempty
  rw [← Spot.behind_cons] at hmore
  exact (forces_one hm hc).append hmore

/-- A word is taken with its blanks. -/
theorem forces_word {v : String} (hx : IsWord v x) (hm : m.rest = x ++ rest)
    (hrest : rest.head?.any Text.isBlankChar = false) (hb : NeverFirst Text.isBlankChar b)
    (hempty : b.mayBeEmpty = false) : Forces (word v) b m (m.behind x rest) [] := by
  obtain ⟨g, hne, hg, rfl⟩ := hx
  obtain ⟨d, g, rfl⟩ := List.exists_cons_of_ne_nil hne
  obtain ⟨hd, hg⟩ := List.forall_mem_cons.mp hg
  rw [List.append_assoc] at hm
  have hgap : Forces gap b (m.behind v.toList (d :: g ++ rest))
      ((m.behind v.toList (d :: g ++ rest)).behind (d :: g) rest) [] :=
    forces_name ⟨d, g, rfl, hd, hg⟩ rfl hrest hb hempty
  rw [Spot.behind_behind] at hgap
  exact (forces_lit hm).append hgap

theorem Forces.keep (h : Forces a (mark s ++ b) m m' ms) :
    Forces (keep s a) b m m' ((s, m) :: ms ++ [(s, m')]) := by
  have hmark : ∀ {b : Pattern} (m : Spot), Forces (mark s) b m m [(s, m)] := by
    intro b m k
    rw [run_append, run]
    rfl
  exact ((hmark m).append h).append (hmark m')

/-- A part that may be left out is taken if what follows cannot stand in its place. -/
theorem Forces.opt (h : Forces a b m m' ms) (hnone : ∀ k, b.run k m = none) :
    Forces (opt a) b m m' ms := by
  intro k
  rw [run_append]
  show (a.run (b.run k) m).or ((lit "").run (b.run k) m) = _
  rw [run_nothing, hnone, Option.or_none, ← run_append, h]

theorem forces_opt_nothing (h : ∀ k, a.run k m = none) : Forces (opt a) b m m [] :=
  forces_of_run fun k => run_opt_of_none (h k)

/-- What takes something cannot stand in front of a character that it never begins with. -/
theorem run_eq_none_of_head? {c : Char} (hm : m.rest.head? = some c) (hc : a.firsts c = false)
    (hempty : a.mayBeEmpty = false) (k : Spot → Option Match) : a.run k m = none := by
  refine Option.eq_none_iff_forall_ne_some.mpr fun r hrun => ?_
  have hnever : NeverFirst (fun d => d = c) a := by
    intro d hd
    rw [of_decide_eq_true hd, hc]
  have hrefuses := hnever.refuses hempty hrun
  rw [hm] at hrefuses
  simp at hrefuses

end CodeAtlas.Pattern
