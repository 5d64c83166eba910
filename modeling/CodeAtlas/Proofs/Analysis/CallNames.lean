/-
Names in front of brackets.

A call is found by the pattern of a name in front of a round bracket. What the pattern finds in a
text can be said bracket by bracket: each bracket has the text back to the one in front of it, and
is called by the name at the end of that text, blanks apart, if there is one (`callNames`). So no
bracket takes part in two calls, and what is called behind a bracket does not depend on what stands
in front of it (`callNames_append_cons`).

On a line that declares a function the first of these names may be left out. It is the one of the
first bracket or none: the text in front of a later name has a bracket, and then nothing is taken
for a declaration (`lineCalls_some`).
-/
import CodeAtlas.Analysis.Calls
import CodeAtlas.Proofs.Pattern.Steady
import CodeAtlas.Proofs.Pattern.Word
import CodeAtlas.Proofs.Text.Lines
import CodeAtlas.Proofs.Text.Trim

set_option autoImplicit false

namespace CodeAtlas

open Pattern (IsNameOf)

/-! ## Names at the end of a text -/

namespace Text

/-- The longest end of the text that is a name with blanks behind it, without the blanks; nothing
if there is no such end. -/
def nameAtEnd : List Char → List Char
  | [] => []
  | c :: t =>
    if isNameStart c && isBlank (t.dropWhile isNameChar) then c :: t.takeWhile isNameChar
    else nameAtEnd t

/-- The names in front of the round brackets of a text. -/
def callNames (t : List Char) : List (List Char) :=
  ((t.splitOn '(').dropLast.map nameAtEnd).filter (!·.isEmpty)

variable {c : Char} {b n s t u v x : List Char}

theorem isName_nameAtEnd (t : List Char) :
    nameAtEnd t = [] ∨ IsNameOf isNameStart isNameChar (nameAtEnd t) := by
  fun_induction nameAtEnd t with
  | case1 => exact .inl rfl
  | case2 c t h =>
    rw [Bool.and_eq_true] at h
    exact .inr ⟨c, _, rfl, h.1, List.all_eq_true.mp List.all_takeWhile⟩
  | case3 c t h ih => exact ih

/-- The name stands at the end of the text, with blanks behind it. -/
theorem exists_nameAtEnd (h : nameAtEnd t ≠ []) :
    ∃ x b, t = x ++ (nameAtEnd t ++ b) ∧ isBlank b = true := by
  fun_induction nameAtEnd t with
  | case1 => exact absurd rfl h
  | case2 c t hname =>
    rw [Bool.and_eq_true] at hname
    exact ⟨[], t.dropWhile isNameChar, by simp, hname.2⟩
  | case3 c t hname ih =>
    obtain ⟨x, b, hsplit, hb⟩ := ih h
    exact ⟨c :: x, b, congrArg (c :: ·) hsplit, hb⟩

/-- What stands behind a character that belongs to no name is left by a run of names. -/
theorem isBlank_of_dropWhile_append (h : isBlank ((x ++ v).dropWhile isNameChar) = true)
    (hx : (∃ c ∈ x, isNameChar c = false) ∨ v.head?.any isNameChar = false) :
    isBlank v = true := by
  rw [List.dropWhile_append] at h
  split at h
  · rename_i hempty
    rcases hx with ⟨c, hc, hnot⟩ | hhead
    · have hall := List.dropWhile_eq_nil_iff.mp (List.isEmpty_iff.mp hempty) c hc
      rw [hnot] at hall
      cases hall
    · cases v with
      | nil => rfl
      | cons c v =>
        have hc : isNameChar c = false := hhead
        rwa [List.dropWhile_cons_of_neg (Bool.eq_false_iff.mp hc)] at h
  · rw [isBlank_append, Bool.and_eq_true] at h
    exact h.2

/-- No name has a blank. -/
theorem isNameChar_of_isBlank (hb : isBlank b = true) (hc : c ∈ b) : isNameChar c = false := by
  refine Bool.eq_false_iff.mpr fun hname => ?_
  have hdark := isBlankChar_of_isNameChar hname
  rw [isBlankChar_of_mem hb hc] at hdark
  cases hdark

/-- In front of what no name goes on with there may be blanks. -/
theorem head?_append_of_isBlank (hb : isBlank b = true) (ht : t.head?.any isNameChar = false) :
    (b ++ t).head?.any isNameChar = false := by
  cases b with
  | nil => exact ht
  | cons c b => exact isNameChar_of_isBlank hb List.mem_cons_self

theorem head?_of_isBlank (hb : isBlank b = true) : b.head?.any isNameChar = false := by
  rw [← List.append_nil b]
  exact head?_append_of_isBlank hb rfl

/-- A text that is not blank and does not go on with a name has the name at its own end. -/
theorem nameAtEnd_append (hv : isBlank v = false) (hhead : v.head?.any isNameChar = false)
    (x : List Char) : nameAtEnd (x ++ v) = nameAtEnd v := by
  induction x with
  | nil => rfl
  | cons c x ih =>
    rw [List.cons_append, nameAtEnd, if_neg, ih]
    rw [Bool.and_eq_true]
    rintro ⟨-, hblank⟩
    rw [isBlank_of_dropWhile_append hblank (.inr hhead)] at hv
    cases hv

/-- A name that is set off from the text in front of it is the one at the end. -/
theorem nameAtEnd_append_name (hx : x.getLast?.any isNameChar = false)
    (hn : IsNameOf isNameStart isNameChar n) (hb : isBlank b = true) :
    nameAtEnd (x ++ (n ++ b)) = n := by
  obtain ⟨c, n, rfl, hc, hn⟩ := hn
  have hends := head?_of_isBlank hb
  induction x with
  | nil =>
    rw [List.nil_append, List.cons_append, nameAtEnd, Pattern.dropWhile_append_of_ends hn hends,
      Pattern.takeWhile_append_of_ends hn hends, hc, hb]
    rfl
  | cons d x ih =>
    rw [List.cons_append, nameAtEnd, if_neg]
    · refine ih ?_
      cases x with
      | nil => rfl
      | cons e x => exact hx
    · rw [Bool.and_eq_true]
      rintro ⟨hd, hblank⟩
      -- the last character in front of the name is none of a name
      have hlast : ∃ e ∈ x, isNameChar e = false := by
        cases hx' : x.getLast? with
        | none =>
          rw [List.getLast?_eq_none_iff.mp hx'] at hx
          rw [List.getLast?_singleton, Option.any_some, isNameChar_of_isNameStart hd] at hx
          cases hx
        | some e =>
          rw [List.getLast?_cons, hx', Option.getD_some, Option.any_some] at hx
          exact ⟨e, List.mem_of_getLast? hx', hx⟩
      have hname := isBlank_of_dropWhile_append hblank (.inl hlast)
      have hnone := isNameChar_of_isBlank hname List.mem_cons_self
      rw [isNameChar_of_isNameStart hc] at hnone
      cases hnone

/-- A text that does not begin with the name at its end is no name with blanks behind it. -/
theorem ne_append_of_nameAtEnd (h : (isNameStart c && isBlank (t.dropWhile isNameChar)) = false)
    (n b : List Char) (hn : IsNameOf isNameStart isNameChar n) (hb : isBlank b = true) :
    c :: t ≠ n ++ b := by
  obtain ⟨d, n, rfl, hd, hn⟩ := hn
  intro heq
  rw [List.cons_append] at heq
  obtain ⟨rfl, rfl⟩ := List.cons.inj heq
  have hends := head?_of_isBlank hb
  rw [Pattern.dropWhile_append_of_ends hn hends, hd, hb] at h
  cases h

theorem nameAtEnd_of_isBlank (h : isBlank t = true) : nameAtEnd t = [] := by
  refine Classical.byContradiction fun hne => ?_
  obtain ⟨x, b, hsplit, -⟩ := exists_nameAtEnd hne
  obtain ⟨c, n, hname, hc, -⟩ := (isName_nameAtEnd t).resolve_left hne
  have hmem : c ∈ t := by
    rw [hsplit, hname]
    simp
  have hnone := isNameChar_of_isBlank h hmem
  rw [isNameChar_of_isNameStart hc] at hnone
  cases hnone

/-! ## The names of all brackets -/

theorem callNames_of_not_mem (h : '(' ∉ t) : callNames t = [] := by
  rw [callNames, splitOn_of_not_mem h]
  rfl

/-- The first bracket has the text in front of it to itself. -/
theorem callNames_append_cons (hu : '(' ∉ u) (t : List Char) :
    callNames (u ++ '(' :: t) =
      (if (nameAtEnd u).isEmpty then [] else [nameAtEnd u]) ++ callNames t := by
  have hne : t.splitOn '(' ≠ [] := List.splitOn_ne_nil _ _
  rw [callNames, splitOn_append_cons hu, List.dropLast_cons_of_ne_nil hne, List.map_cons,
    List.filter_cons, callNames]
  cases (nameAtEnd u).isEmpty <;> rfl

end Text

/-! ## What the pattern finds -/

namespace Analysis

open Pattern Text

variable {b n r t u : List Char} {m : Spot} {prev : Option Char}

/-- A name with blanks behind it has none of the signs that the search looks for. -/
theorem not_mem_name_blanks {d : Char} (hd : d = '(' ∨ d = '=')
    (hn : IsNameOf isNameStart isNameChar n) (hb : isBlank b = true) : d ∉ n ++ b := by
  rw [List.mem_append, not_or]
  rcases hd with rfl | rfl
  · exact ⟨not_mem_of_isName hn (by decide), notMem_of_isBlank hb (by decide)⟩
  · exact ⟨not_mem_of_isName hn (by decide), notMem_of_isBlank hb (by decide)⟩

/-- A name with a bracket behind it, blanks apart, is found with the bracket. -/
theorem found_call (hm : m.rest = n ++ (b ++ '(' :: r)) (hn : IsNameOf isNameStart isNameChar n)
    (hb : isBlank b = true) (hexact : m.Exact) :
    ∃ found, call.found m = some found ∧ found.part .name = n ∧
      found.stop.left = r.length := by
  have hblank : ∀ c ∈ b, isBlankChar c = true := fun c hc => isBlankChar_of_mem hb hc
  have hends : (b ++ '(' :: r).head?.any isNameChar = false :=
    head?_append_of_isBlank hb (show isNameChar '(' = false by decide)
  let m₁ := m.behind n (b ++ '(' :: r)
  let m₂ := m₁.behind b ('(' :: r)
  have hname : Finds (keep .name name) m m₁ _ := (finds_name hn hm hends).keep .name
  have hblanks : Finds blanks m₁ m₂ [] := finds_many rfl hblank rfl
  have hopen : Finds (lit "(") m₂ (m₂.behind "(".toList r) [] := finds_lit rfl
  have hcall : Finds call m (m₂.behind "(".toList r) _ := (hname.append hblanks).append hopen
  refine ⟨_, hcall (k := fun m => some (.done m)) rfl, ?_, hcall.matches.exact hexact⟩
  exact part_of_marks (b := []) ⟨[], rfl⟩ List.not_mem_nil hexact hm

/-- What is found is such a name. -/
theorem exists_of_found_call {found : Match} (h : call.found m = some found) :
    ∃ n b r, IsNameOf isNameStart isNameChar n ∧ isBlank b = true ∧
      m.rest = n ++ (b ++ '(' :: r) := by
  obtain ⟨m₂, ms, ms', hfront, hopen, -⟩ := matches_append_iff.mp (matches_of_found h)
  obtain ⟨m₁, ms₁, ms₂, hname, hblanks, -⟩ := matches_append_iff.mp hfront
  obtain ⟨b, hb, hm₁, -⟩ := hblanks.of_blanks
  obtain ⟨ms₃, hname, -⟩ := hname.exists_of_keep
  obtain ⟨n, hn, hm, -⟩ := hname.of_name
  refine ⟨n, b, found.stop.rest, hn, List.all_eq_true.mpr hb, ?_⟩
  rw [hm, hm₁, hopen.rest_of_lit]
  rfl

/-- In front of the first bracket nothing is found but the name at the end. -/
theorem found_call_eq_none (hu : '(' ∉ u)
    (h : ∀ n b, IsNameOf isNameStart isNameChar n → isBlank b = true → u ≠ n ++ b) (left : Nat) :
    call.found ⟨prev, u ++ '(' :: r, left⟩ = none := by
  refine Option.eq_none_iff_forall_ne_some.mpr fun found hfound => ?_
  obtain ⟨n, b, r', hn, hb, hsplit⟩ := exists_of_found_call hfound
  rw [← List.append_assoc] at hsplit
  exact h n b hn hb (append_cons_inj hu (not_mem_name_blanks (.inl rfl) hn hb) hsplit).1

theorem found_call_of_not_mem (h : '(' ∉ m.rest) : call.found m = none := by
  refine Option.eq_none_iff_forall_ne_some.mpr fun found hfound => ?_
  obtain ⟨n, b, r, -, -, hsplit⟩ := exists_of_found_call hfound
  exact h (by rw [hsplit]; simp)

/-- A text without brackets has no calls. -/
theorem apartBy_call_of_not_mem (h : '(' ∉ t) (prev : Option Char) :
    apartBy call.found 0 (spots prev t t.length) = [] := by
  induction t generalizing prev with
  | nil => rfl
  | cons c t ih =>
    rw [spots, apartBy, found_call_of_not_mem h]
    exact ih (fun hmem => h (List.mem_cons_of_mem _ hmem)) (some c)

/-- A character where nothing is found is passed. -/
theorem apartBy_call_of_none {c : Char}
    (h : call.found ⟨prev, c :: t, (c :: t).length⟩ = none) :
    apartBy call.found 0 (spots prev (c :: t) (c :: t).length) =
      apartBy call.found 0 (spots (some c) t t.length) := by
  rw [spots, apartBy, h]
  rfl

/-- Behind a name with its bracket the search goes on behind the bracket. -/
theorem exists_apartBy_call (hn : IsNameOf isNameStart isNameChar n) (hb : isBlank b = true)
    (prev : Option Char) (r : List Char) :
    ∃ prev' found, found.part .name = n ∧
      let t := n ++ (b ++ '(' :: r)
      apartBy call.found 0 (spots prev t t.length) =
        (⟨prev, t, t.length⟩, found) :: apartBy call.found 0 (spots prev' r r.length) := by
  let m : Spot := ⟨prev, n ++ (b ++ '(' :: r), (n ++ (b ++ '(' :: r)).length⟩
  obtain ⟨found, hfound, hpart, hstop⟩ := found_call (m := m) rfl hn hb rfl
  obtain ⟨c, n, rfl, -⟩ := hn
  obtain ⟨prev', hbehind⟩ := apartBy_spots_append call.found (some c) (n ++ b ++ ['(']) r
  have hsplit : n ++ b ++ ['('] ++ r = n ++ (b ++ '(' :: r) := by simp
  have hwait : m.left - found.stop.left - 1 = (n ++ b ++ ['(']).length := by
    rw [hstop]
    simp only [m, List.length_append, List.length_cons, List.length_nil]
    omega
  refine ⟨prev', found, hpart, ?_⟩
  rw [← hbehind, hsplit, ← hwait]
  show apartBy call.found 0 (m :: spots (some c) (n ++ (b ++ '(' :: r)) _) = _
  rw [apartBy, hfound]
  rfl

/-- What the search makes of the text back to the bracket in front: it passes it, or it finds the
name at its end. Then it goes on behind the bracket. -/
theorem apartBy_call_append_cons (hu : '(' ∉ u) (prev : Option Char) (r : List Char) :
    ∃ prev', nameAtEnd u = [] ∧
        apartBy call.found 0 (spots prev (u ++ '(' :: r) (u ++ '(' :: r).length) =
          apartBy call.found 0 (spots prev' r r.length) ∨
      ∃ x b m found, nameAtEnd u ≠ [] ∧ u = x ++ (nameAtEnd u ++ b) ∧ isBlank b = true ∧
        (u ++ '(' :: r).length = x.length + m.left ∧ found.part .name = nameAtEnd u ∧
        apartBy call.found 0 (spots prev (u ++ '(' :: r) (u ++ '(' :: r).length) =
          (m, found) :: apartBy call.found 0 (spots prev' r r.length) := by
  induction u generalizing prev with
  | nil =>
    have hname : ∀ n b, IsNameOf isNameStart isNameChar n → isBlank b = true → [] ≠ n ++ b := by
      rintro n b ⟨c, n, rfl, -⟩ - ⟨⟩
    have hnone : call.found ⟨prev, '(' :: r, ('(' :: r).length⟩ = none :=
      found_call_eq_none hu hname _
    exact ⟨some '(', .inl ⟨rfl, apartBy_call_of_none hnone⟩⟩
  | cons c u ih =>
    -- is the name at the end the whole text, or does it begin further on?
    cases hname : isNameStart c && isBlank (u.dropWhile isNameChar) with
    | true =>
      have hend : nameAtEnd (c :: u) = c :: u.takeWhile isNameChar := by
        rw [nameAtEnd, hname]
        rfl
      rw [Bool.and_eq_true] at hname
      have hn : IsNameOf isNameStart isNameChar (c :: u.takeWhile isNameChar) :=
        ⟨c, _, rfl, hname.1, List.all_eq_true.mp List.all_takeWhile⟩
      have hsplit : c :: u = c :: u.takeWhile isNameChar ++ u.dropWhile isNameChar :=
        congrArg (c :: ·) List.takeWhile_append_dropWhile.symm
      have htext : c :: u ++ '(' :: r =
          c :: u.takeWhile isNameChar ++ (u.dropWhile isNameChar ++ '(' :: r) := by
        rw [← List.append_assoc, ← hsplit]
      obtain ⟨prev', found, hpart, hfound⟩ := exists_apartBy_call hn hname.2 prev r
      rw [← htext] at hfound
      refine ⟨prev', .inr ⟨[], u.dropWhile isNameChar, _, found, ?_, ?_, hname.2,
        (Nat.zero_add _).symm, ?_, hfound⟩⟩
      · rw [hend]
        exact List.cons_ne_nil _ _
      · rw [hend, List.nil_append]
        exact hsplit
      · rw [hend, hpart]
    | false =>
      have hend : nameAtEnd (c :: u) = nameAtEnd u := by
        rw [nameAtEnd, hname]
        rfl
      have hnone : call.found ⟨prev, c :: u ++ '(' :: r, (c :: u ++ '(' :: r).length⟩ = none :=
        found_call_eq_none hu (ne_append_of_nameAtEnd hname) _
      have hpass := apartBy_call_of_none hnone
      obtain ⟨prev', hpassed | ⟨x, b, m, found, hne, hsplit, hb, hleft, hpart, hfound⟩⟩ :=
        ih (fun hmem => hu (List.mem_cons_of_mem _ hmem)) (some c)
      · exact ⟨prev', .inl ⟨hend.trans hpassed.1, hpass.trans hpassed.2⟩⟩
      · refine ⟨prev', .inr ⟨c :: x, b, m, found, ?_, ?_, hb, ?_, ?_, hpass.trans hfound⟩⟩
        · rwa [hend]
        · rw [hend, List.cons_append, ← hsplit]
        · rw [List.cons_append, List.length_cons, List.length_cons, hleft]
          omega
        · rw [hend, hpart]

/-- What is found in a text, from any spot on, are the names in front of its brackets. -/
theorem map_apartBy_call (t : List Char) (prev : Option Char) :
    (apartBy call.found 0 (spots prev t t.length)).map (·.2.part .name) = callNames t := by
  -- by the length of the text, since the search goes on behind a bracket
  induction hlen : t.length using Nat.strongRecOn generalizing t prev with
  | ind n ih =>
    subst hlen
    by_cases hmem : '(' ∈ t
    · obtain ⟨u, r, rfl, hu⟩ := List.eq_append_cons_of_mem hmem
      have hshort : r.length < (u ++ '(' :: r).length := by
        rw [List.length_append, List.length_cons]
        omega
      rw [callNames_append_cons hu]
      obtain ⟨prev', ⟨hend, hpass⟩ | ⟨x, b, m, found, hne, -, -, -, hpart, hfound⟩⟩ :=
        apartBy_call_append_cons hu prev r
      · rw [hpass, ih _ hshort r prev' rfl, hend]
        rfl
      · rw [hfound, List.map_cons, ih _ hshort r prev' rfl, hpart,
          if_neg (mt List.isEmpty_iff.mp hne)]
        rfl
    · rw [apartBy_call_of_not_mem hmem, callNames_of_not_mem hmem]
      rfl

/-! ## What a line calls -/

/-- The names that are no excluded words. -/
def keptNames (names : List (List Char)) : List String :=
  (names.map String.ofList).filter (!Vocabulary.callExcludes.contains ·)

theorem keptNames_eq (found : List (Spot × Match)) :
    (found.map fun (_, m) => String.ofList (m.part .name)).filter
      (!Vocabulary.callExcludes.contains ·) = keptNames (found.map (·.2.part .name)) := by
  rw [keptNames, List.map_map]
  rfl

/-- Where the first occurrence is no declaration, the line calls all its names. -/
theorem lineCalls_of_not_declaration {declared : Option String}
    (h : ∀ m ∈ (call.occurrences t).head?, isDeclaration declared t m = false) :
    lineCalls declared t = keptNames (callNames t) := by
  have hall : (call.occurrences t).map (·.2.part .name) = callNames t := by
    rw [occurrences_eq]
    exact map_apartBy_call t none
  rw [lineCalls, keptNames_eq, ← hall]
  cases hfound : call.occurrences t with
  | nil => rfl
  | cons m ms =>
    have hnone := h m (by rw [hfound]; rfl)
    simp only [hnone, Bool.false_eq_true, if_false]

theorem lineCalls_none (t : List Char) : lineCalls none t = keptNames (callNames t) :=
  lineCalls_of_not_declaration fun m _ => by
    rw [isDeclaration, decide_eq_false (by simp), Bool.false_and]

theorem lineCalls_of_not_mem (h : '(' ∉ t) (declared : Option String) :
    lineCalls declared t = [] := by
  rw [lineCalls_of_not_declaration, callNames_of_not_mem h]
  · rfl
  · rw [occurrences_eq, apartBy_call_of_not_mem h]
    rintro m ⟨⟩

/-- An occurrence is one of the spots. -/
theorem mem_of_mem_apartBy {f : Spot → Option Match} {wait : Nat} {ms : List Spot}
    {m : Spot × Match} (h : m ∈ apartBy f wait ms) : m.1 ∈ ms := by
  induction ms generalizing wait with
  | nil => cases wait <;> cases h
  | cons s ms ih =>
    cases wait with
    | succ wait => exact List.mem_cons_of_mem _ (ih h)
    | zero =>
      rw [apartBy] at h
      cases hs : f s with
      | none =>
        rw [hs] at h
        exact List.mem_cons_of_mem _ (ih h)
      | some r =>
        rw [hs] at h
        rcases List.mem_cons.mp h with rfl | h
        · exact List.mem_cons_self
        · exact List.mem_cons_of_mem _ (ih h)

/-- Behind a bracket nothing is declared. -/
theorem isDeclaration_of_left_le {declared : Option String} {m : Spot × Match}
    (h : m.1.left ≤ r.length) : isDeclaration declared (u ++ '(' :: r) m = false := by
  have hbehind : u.length < (u ++ '(' :: r).length - m.1.left := by
    rw [List.length_append, List.length_cons]
    omega
  have hmem : '(' ∈ (u ++ '(' :: r).take ((u ++ '(' :: r).length - m.1.left) := by
    refine List.mem_take_iff_getElem.mpr ⟨u.length, ?_, ?_⟩
    · rw [List.length_append, List.length_cons] at hbehind ⊢
      omega
    · simp
  rw [isDeclaration, declares, List.contains_iff_mem.mpr hmem, Bool.not_true, Bool.and_false,
    Bool.and_false]

/-- On a line that declares a name, the first bracket is left out if the name stands in front of
it and no equals sign does. -/
theorem lineCalls_some (hu : '(' ∉ u) (d : String) (r : List Char) :
    lineCalls (some d) (u ++ '(' :: r) = keptNames
      (if nameAtEnd u = d.toList ∧ '=' ∉ u then callNames r else callNames (u ++ '(' :: r)) := by
  obtain ⟨prev', ⟨hend, hpass⟩ | ⟨x, b, m, found, hne, hsplit, hb, hleft, hpart, hfound⟩⟩ :=
    apartBy_call_append_cons hu none r
  · -- no name in front of the bracket
    have hsame : callNames (u ++ '(' :: r) = callNames r := by
      rw [callNames_append_cons hu, hend]
      rfl
    rw [hsame, ite_self, ← hsame]
    refine lineCalls_of_not_declaration fun m hm => isDeclaration_of_left_le ?_
    rw [occurrences_eq, hpass] at hm
    exact (left_of_mem_spots (mem_of_mem_apartBy (List.mem_of_mem_head? hm))).2
  · -- the declaration is told by the name that is found first and by the text in front of it
    have hbefore : (u ++ '(' :: r).take ((u ++ '(' :: r).length - m.left) = x := by
      rw [hleft, Nat.add_sub_cancel, hsplit, List.append_assoc, List.take_left]
    have hname := (isName_nameAtEnd u).resolve_left hne
    have hx : '(' ∉ x := fun hmem => hu (by rw [hsplit]; exact List.mem_append_left _ hmem)
    have hequals : '=' ∈ u ↔ '=' ∈ x := by
      rw [hsplit, List.mem_append]
      exact or_iff_left (not_mem_name_blanks (.inr rfl) hname hb)
    have hsame : d = String.ofList (nameAtEnd u) ↔ nameAtEnd u = d.toList := by
      rw [← String.toList_inj, String.toList_ofList, eq_comm]
    have hdeclared : isDeclaration (some d) (u ++ '(' :: r) (m, found) =
        decide (nameAtEnd u = d.toList ∧ '=' ∉ u) := by
      rw [isDeclaration, declares, hbefore, hpart]
      simp [hsame, hequals, hx]
    by_cases hcond : nameAtEnd u = d.toList ∧ '=' ∉ u
    · rw [if_pos hcond, lineCalls, keptNames_eq, occurrences_eq, hfound]
      rw [decide_eq_true hcond] at hdeclared
      simp only [hdeclared, if_true, map_apartBy_call]
    · rw [if_neg hcond]
      refine lineCalls_of_not_declaration fun m' hm' => ?_
      rw [occurrences_eq, hfound, List.head?_cons, Option.mem_some_iff] at hm'
      rw [← hm', hdeclared, decide_eq_false hcond]

end Analysis

end CodeAtlas
