/-
Whole words.

Several analyses count keywords, and the pattern of each asks for a keyword with no word character
next to it. What it counts can be said without patterns: a text falls into runs of word characters
(`Text.wordRuns`), and the pattern occurs once for each run that is one of the keywords
(`count_wholeWord`). A keyword inside a longer word is none, and blanks around a text change nothing.
-/
import CodeAtlas.Proofs.Pattern.Occurrences
import CodeAtlas.Proofs.Pattern.Word
import CodeAtlas.Proofs.Text.Trim

set_option autoImplicit false

namespace CodeAtlas

open Text (isWordChar)

/-! ## Runs of word characters -/

namespace Text

/-- The texts between the characters that belong to no word; some of them may be empty. -/
def wordRuns (t : List Char) : List (List Char) := t.splitOnP (!isWordChar ·)

/-- How many runs of a text are one of the words. -/
def wordCount (ws : List String) (t : List Char) : Nat :=
  (wordRuns t).countP (ws.map String.toList).contains

variable {ws : List String} {r t : List Char} {c : Char}

theorem wordRuns_of_forall (hr : ∀ c ∈ r, isWordChar c = true) : wordRuns r = [r] :=
  List.splitOnP_eq_singleton fun c hc => by rw [hr c hc]; rfl

/-- Words of word characters, none of them empty. -/
def AreWords (ws : List String) : Prop :=
  ∀ w ∈ ws, w.toList ≠ [] ∧ ∀ c ∈ w.toList, isWordChar c = true

instance (ws : List String) : Decidable (AreWords ws) :=
  inferInstanceAs (Decidable (∀ w ∈ ws, _ ∧ _))

theorem AreWords.not_contains_nil (hws : AreWords ws) :
    (ws.map String.toList).contains [] = false := by
  rw [List.contains_eq_mem, decide_eq_false_iff_not, List.mem_map]
  rintro ⟨w, hw, hnil⟩
  exact (hws w hw).1 hnil

/-- A character that belongs to no word stands between two words. -/
theorem wordCount_append_cons (hc : isWordChar c = false) (s t : List Char) :
    wordCount ws (s ++ c :: t) = wordCount ws s + wordCount ws t := by
  have hsplit : wordRuns (s ++ c :: t) = wordRuns s ++ wordRuns t :=
    List.splitOnP_append_cons s t (by rw [hc]; rfl)
  rw [wordCount, hsplit, List.countP_append]
  rfl

theorem wordCount_nil (hws : AreWords ws) : wordCount ws [] = 0 := by
  rw [wordCount, wordRuns_of_forall (List.forall_mem_nil _),
    List.countP_singleton, hws.not_contains_nil]
  rfl

theorem wordCount_append_of_isBlank (hws : AreWords ws) {g : List Char} (hg : isBlank g = true)
    (t : List Char) : wordCount ws (g ++ t) = wordCount ws t := by
  induction g with
  | nil => rfl
  | cons b g ih =>
    rw [isBlank, List.all_cons, Bool.and_eq_true] at hg
    have hsplit : wordCount ws ([] ++ b :: (g ++ t)) = wordCount ws [] + wordCount ws (g ++ t) :=
      wordCount_append_cons (isWordChar_of_isBlankChar hg.1) [] (g ++ t)
    rw [List.nil_append, wordCount_nil hws, Nat.zero_add] at hsplit
    rw [List.cons_append, hsplit, ih hg.2]

theorem wordCount_append_of_isBlank_right (hws : AreWords ws) {g : List Char}
    (hg : isBlank g = true) (t : List Char) : wordCount ws (t ++ g) = wordCount ws t := by
  cases g with
  | nil => rw [List.append_nil]
  | cons b g =>
    rw [isBlank, List.all_cons, Bool.and_eq_true] at hg
    have hrest := wordCount_append_of_isBlank hws hg.2 []
    rw [List.append_nil, wordCount_nil hws] at hrest
    rw [wordCount_append_cons (isWordChar_of_isBlankChar hg.1), hrest, Nat.add_zero]

/-- A trimmed text has the same words. -/
theorem wordCount_trim (hws : AreWords ws) (t : List Char) :
    wordCount ws (trim t) = wordCount ws t := by
  obtain ⟨g, g', hg, hg', hsplit⟩ := exists_trim t
  conv_rhs => rw [hsplit]
  rw [wordCount_append_of_isBlank hws hg, wordCount_append_of_isBlank_right hws hg']

/-- A text begins with a run of word characters, which may be empty. -/
theorem exists_run (t : List Char) : ∃ r rest, t = r ++ rest ∧ (∀ c ∈ r, isWordChar c = true) ∧
    rest.head?.any isWordChar = false := by
  refine ⟨t.takeWhile isWordChar, t.dropWhile isWordChar, List.takeWhile_append_dropWhile.symm,
    List.all_eq_true.mp List.all_takeWhile, ?_⟩
  cases hrest : (t.dropWhile isWordChar).head? with
  | none => rfl
  | some c =>
    have hnot := List.head?_dropWhile_not isWordChar t
    rw [hrest] at hnot
    exact hnot

end Text

/-! ## The pattern at one spot -/

namespace Pattern

/-- One of the words, with no word character next to it. -/
def wholeWord (ws : List String) : Pattern := edge ++ oneOf ws ++ edge

variable {ws : List String} {k : Spot → Option Match} {m : Spot} {r rest : List Char}

theorem run_wholeWord (ws : List String) (k : Spot → Option Match) (m : Spot) :
    (wholeWord ws).run k m =
      if m.isEdge then
        ws.findSome? fun w => runText w.toList (fun m => if m.isEdge then k m else none) m
      else none := by
  rw [wholeWord, run_append, run_append, run, oneOf, run, List.findSome?_map]
  rfl

/-- Behind a word character no word begins. -/
theorem run_wholeWord_inside (hws : Text.AreWords ws) (hprev : m.prev.any isWordChar = true) :
    (wholeWord ws).run k m = none := by
  rw [run_wholeWord]
  split
  · rename_i hedge
    refine List.findSome?_eq_none_iff.mpr fun w hw => ?_
    obtain ⟨hne, hchars⟩ := hws w hw
    rw [runText, Option.bind_eq_none_iff]
    intro rest hrest
    -- the word would begin with a word character, so that there is no edge in front of it
    obtain ⟨c, v, hv⟩ := List.exists_cons_of_ne_nil hne
    have hm := Text.after?_eq_some_iff.mp hrest
    have hc : isWordChar c = true := hchars c (hv ▸ List.mem_cons_self)
    rw [Spot.isEdge, hprev, hm, hv, List.cons_append, List.head?_cons, Option.any_some, hc] at hedge
    cases hedge
  · rfl

/-- Where only one text can lead to an answer, it is asked whether that text is among them. -/
theorem findSome?_eq_ite {f : String → Option Match} {u : List Char} {x : Option Match}
    (h : ∀ w ∈ ws, f w = if w.toList = u then x else none) :
    ws.findSome? f = if (ws.map String.toList).contains u then x else none := by
  induction ws with
  | nil => rfl
  | cons w ws ih =>
    obtain ⟨hw, hrest⟩ := List.forall_mem_cons.mp h
    rw [List.findSome?_cons, hw, ih hrest, List.map_cons, List.contains_cons]
    by_cases hu : w.toList = u
    · subst hu
      cases x <;> simp
    · simp [hu, Ne.symm hu]

/-- Of a run of word characters a word takes all or nothing: a word that ends inside the run is
followed by a word character, and none goes on behind it. -/
theorem runText_edge_eq_ite {w : List Char} (hne : w ≠ []) (hchars : ∀ c ∈ w, isWordChar c = true)
    (hm : m.rest = r ++ rest) (hr : ∀ c ∈ r, isWordChar c = true)
    (hrest : rest.head?.any isWordChar = false) :
    runText w (fun m => if m.isEdge then k m else none) m =
      if w = r then k (m.behind r rest) else none := by
  have hlast : ∀ o : Option Char, (w.getLast?.or o).any isWordChar = true := by
    intro o
    rw [List.getLast?_eq_some_getLast hne, Option.some_or, Option.any_some]
    exact hchars _ (List.getLast_mem hne)
  by_cases hword : w = r
  · subst hword
    have hafter : Text.after? w m.rest = some rest := Text.after?_eq_some_iff.mpr hm
    have hend : (m.behind w rest).isEdge = true := by
      rw [Spot.isEdge, Spot.behind, hlast, hrest]
      rfl
    rw [if_pos rfl, runText, hafter, Option.bind_some]
    exact if_pos hend
  · rw [if_neg hword, runText, Option.bind_eq_none_iff]
    intro rest' hrest'
    have hsplit := Text.after?_eq_some_iff.mp hrest'
    rw [hm] at hsplit
    rcases List.append_eq_append_iff.mp hsplit.symm with ⟨v, hv, hv'⟩ | ⟨v, hv, hv'⟩
    · cases v with
      | nil =>
        rw [List.append_nil] at hv
        exact absurd hv.symm hword
      | cons c v =>
        have hc : isWordChar c = true := hr c (by rw [hv]; simp)
        refine if_neg ?_
        rw [Spot.isEdge, hlast, hv', List.cons_append, List.head?_cons, Option.any_some, hc]
        exact Bool.false_ne_true
    · cases v with
      | nil =>
        rw [List.append_nil] at hv
        exact absurd hv hword
      | cons c v =>
        have hc : isWordChar c = true := hchars c (by rw [hv]; simp)
        rw [hv', List.cons_append, List.head?_cons, Option.any_some, hc] at hrest
        cases hrest

/-- A run is taken if it is one of the words. -/
theorem run_wholeWord_append (hws : Text.AreWords ws) (hprev : m.prev.any isWordChar = false)
    (hm : m.rest = r ++ rest) (hr : ∀ c ∈ r, isWordChar c = true)
    (hrest : rest.head?.any isWordChar = false) :
    (wholeWord ws).run k m =
      if (ws.map String.toList).contains r then k (m.behind r rest) else none := by
  rw [run_wholeWord]
  cases r with
  | nil =>
    have hedge : m.isEdge = false := by rw [Spot.isEdge, hprev, hm, List.nil_append, hrest]; rfl
    rw [hedge, if_neg Bool.false_ne_true, hws.not_contains_nil, if_neg Bool.false_ne_true]
  | cons d r =>
    have hd : isWordChar d = true := hr d List.mem_cons_self
    have hedge : m.isEdge = true := by
      rw [Spot.isEdge, hprev, hm, List.cons_append, List.head?_cons, Option.any_some, hd]
      rfl
    rw [if_pos hedge]
    refine findSome?_eq_ite fun w hw => ?_
    obtain ⟨hne, hchars⟩ := hws w hw
    exact runText_edge_eq_ite hne hchars hm hr hrest

/-- In front of a character that belongs to no word, and at the end, no word begins. -/
theorem run_wholeWord_of_head? (hws : Text.AreWords ws)
    (hrest : m.rest.head?.any isWordChar = false) : (wholeWord ws).run k m = none := by
  cases hprev : m.prev.any isWordChar with
  | true => exact run_wholeWord_inside hws hprev
  | false =>
    have hrun := run_wholeWord_append (k := k) hws hprev (List.nil_append m.rest).symm
      (List.forall_mem_nil _) hrest
    rw [hrun, hws.not_contains_nil, if_neg Bool.false_ne_true]

/-! ## All occurrences -/

section

variable {col : Column} {prev : Option Char} {u v t : List Char}

/-- Inside a run nothing is found. -/
theorem apart_inside (hws : Text.AreWords ws) (hprev : prev.any isWordChar = true)
    (hu : ∀ c ∈ u, isWordChar c = true) (hcol : Answers (wholeWord ws) col prev (u ++ v)) :
    apart col 0 (spots prev (u ++ v) (u ++ v).length) =
      apart col 0 (spots (u.getLast?.or prev) v v.length) := by
  induction u generalizing prev with
  | nil => rfl
  | cons c u ih =>
    obtain ⟨hc, hu⟩ := List.forall_mem_cons.mp hu
    have hnone : col.at_ (c :: (u ++ v)).length = none :=
      hcol.first.trans (run_wholeWord_inside hws hprev)
    have hsome : (some c).any isWordChar = true := hc
    rw [List.cons_append, apart_of_none hnone, ih hsome hu hcol.tail,
      List.getLast?_cons, Option.some_or]
    cases u.getLast? <;> rfl

/-- A run is found as a whole if it is one of the words, and nothing of it otherwise. -/
theorem length_apart_run (hws : Text.AreWords ws) (hprev : prev.any isWordChar = false)
    (hu : ∀ c ∈ u, isWordChar c = true) (hv : v.head?.any isWordChar = false)
    (hcol : Answers (wholeWord ws) col prev (u ++ v)) :
    (apart col 0 (spots prev (u ++ v) (u ++ v).length)).length =
      Text.wordCount ws u + (apart col 0 (spots (u.getLast?.or prev) v v.length)).length := by
  have hcount : Text.wordCount ws u = if (ws.map String.toList).contains u then 1 else 0 := by
    rw [Text.wordCount, Text.wordRuns_of_forall hu, List.countP_singleton]
  have hfirst := hcol.first.trans (run_wholeWord_append hws hprev rfl hu hv)
  rw [hcount]
  cases u with
  | nil => rw [hws.not_contains_nil, if_neg Bool.false_ne_true, Nat.zero_add]; rfl
  | cons c u =>
    obtain ⟨hc, hu⟩ := List.forall_mem_cons.mp hu
    have hlast : ((c :: u).getLast?).or prev = u.getLast?.or (some c) := by
      rw [List.getLast?_cons, Option.some_or]
      cases u.getLast? <;> rfl
    rw [hlast, List.cons_append]
    -- a word is found where the run begins; inside a run nothing begins
    split
    · rename_i hword
      rw [if_pos hword] at hfirst
      have hstop : (c :: (u ++ v)).length - (c :: u).length = v.length := by
        rw [← List.cons_append, List.length_append, Nat.add_sub_cancel_left]
      have hfound : col.at_ (c :: (u ++ v)).length = _ := hfirst
      rw [apart_of_some hfound hstop, List.length_cons, Nat.add_comm]
    · rename_i hword
      rw [if_neg hword] at hfirst
      have hnone : col.at_ (c :: (u ++ v)).length = none := hfirst
      have hsome : (some c).any isWordChar = true := hc
      rw [apart_of_none hnone, apart_inside hws hsome hu hcol.tail, Nat.zero_add]

/-- The pattern occurs once for each run that is one of the words. -/
theorem length_apart_wholeWord (hws : Text.AreWords ws) {prev : Option Char} {t : List Char}
    (hprev : prev.any isWordChar = false) (hcol : Answers (wholeWord ws) col prev t) :
    (apart col 0 (spots prev t t.length)).length = Text.wordCount ws t := by
  obtain ⟨u, v, hsplit, hu, hv⟩ := Text.exists_run t
  rw [hsplit] at hcol ⊢
  rw [length_apart_run hws hprev hu hv hcol]
  have hnone := hcol.behind.first.trans (run_wholeWord_of_head? hws hv)
  cases v with
  | nil => rw [spots, apart, hnone]; simp [apart]
  | cons c v =>
    have hc : isWordChar c = false := hv
    have hsome : (some c).any isWordChar = false := hc
    have hshorter : v.length < t.length := by
      rw [hsplit, List.length_append, List.length_cons]
      omega
    rw [apart_of_none hnone, length_apart_wholeWord hws hsome hcol.behind.tail,
      Text.wordCount_append_cons hc]
termination_by t.length

end

/-- What the pattern counts are the runs of the text that are one of the words. -/
theorem count_wholeWord (hws : Text.AreWords ws) (t : List Char) :
    (wholeWord ws).count t = Text.wordCount ws t :=
  length_apart_wholeWord hws rfl (holds_allMatches _ t)

end Pattern

end CodeAtlas
