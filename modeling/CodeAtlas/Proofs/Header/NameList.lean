/-
The list of exported names as it is written.

An assignment of `__all__` is given by its names, each between quotes of a kind, with any blanks
around them and a comma behind the last one or not, by the brackets around the list, and by its
annotation, if it has one. Three readers follow one another on it. The lines are joined by a count
of brackets: nothing but the two of the list has any, so the count is one up to the last line
(`IsWrittenOn.joinBrackets_eq`). The joined text is matched by a pattern whose clause takes as
little as it can: it cannot end in front of the closing bracket, since what is left there is not
blank (`exists_match?_text`). The names are found in the clause from left to right, whatever stands
around them (`Yields`).
-/
import Mathlib.Data.List.Forall2
import CodeAtlas.Header.Indent.Import
import CodeAtlas.Proofs.Header.ImportMatch
import CodeAtlas.Proofs.Nesting.Cutting
import CodeAtlas.Proofs.Pattern.Occurrences

set_option autoImplicit false

namespace CodeAtlas.Indent

open Pattern

/-! ## Names between quotes -/

theorem quotedName_eq : quotedName = one Brace.isModuleQuote ++
    (keep .name (some1 (noneOf "'\"")) ++ one Brace.isModuleQuote) := rfl

/-- The brackets by which lines are joined. -/
def isBracket (c : Char) : Bool := c = '(' || c = '[' || c = ')' || c = ']'

/-- A name between quotes of a kind. -/
structure ListedName where
  isDouble : Bool
  name : List Char
  named : name ≠ []
  plain : ∀ c ∈ name, Brace.isModuleQuote c = false ∧ isBracket c = false

namespace ListedName

variable (x : ListedName)

def quote : Char := if x.isDouble then '"' else '\''

def text : List Char := x.quote :: (x.name ++ [x.quote])

theorem isQuote : Brace.isModuleQuote x.quote = true ∧ isBracket x.quote = false := by
  rw [quote]
  cases x.isDouble <;> decide

theorem isBracket_text : ∀ c ∈ x.text, isBracket c = false := by
  exact List.forall_mem_cons.mpr ⟨x.isQuote.2, List.forall_mem_append.mpr
    ⟨fun c hc => (x.plain c hc).2, List.forall_mem_singleton.mpr x.isQuote.2⟩⟩

/-- A name is matched from its first quote to the next one. -/
theorem exists_run_quotedName (prev : Option Char) (rest : List Char) :
    ∃ r, quotedName.run done ⟨prev, x.text ++ rest, (x.text ++ rest).length⟩ = some r ∧
      r.stop.left = rest.length ∧ r.part .name = x.name := by
  have htext : x.text ++ rest = x.quote :: (x.name ++ x.quote :: rest) := by
    rw [text, List.cons_append, List.append_assoc]
    rfl
  let m : Spot := ⟨prev, x.text ++ rest, (x.text ++ rest).length⟩
  have hfound := Brace.finds_quoted (m := m) x.isQuote.1 x.named (fun c hc => (x.plain c hc).1)
    htext .name
  have hm : m.Exact := rfl
  refine ⟨_, hfound (k := done) rfl, ?_, ?_⟩
  · show (x.text ++ rest).length - 1 - x.name.length - 1 = rest.length
    rw [htext]
    simp only [List.length_cons, List.length_append]
    omega
  · exact part_of_marks (b := []) (List.prefix_append _ _) List.not_mem_nil
      (hm.behind (t := [x.quote]) htext) rfl

end ListedName

/-! ## Names in a text -/

/-- The names that are found behind a character. -/
def namesFrom (col : Column) (prev : Option Char) (t : List Char) : List (List Char) :=
  (apart col 0 (spots prev t t.length)).map (·.2.part .name)

/-- In the text the names are found, whatever stands around it. -/
def Yields (t : List Char) (names : List (List Char)) : Prop :=
  ∀ ⦃col : Column⦄ ⦃prev : Option Char⦄ ⦃rest : List Char⦄,
    Answers quotedName col prev (t ++ rest) →
      namesFrom col prev (t ++ rest) = names ++ namesFrom col (t.getLast?.or prev) rest

section

variable {t u : List Char} {names names' : List (List Char)}

theorem Yields.append (ht : Yields t names) (hu : Yields u names') :
    Yields (t ++ u) (names ++ names') := by
  intro col prev rest hcol
  rw [List.append_assoc] at hcol ⊢
  rw [ht hcol, hu hcol.behind, List.getLast?_append, Option.or_assoc, List.append_assoc]

theorem yields_nil : Yields [] [] := fun _ _ _ _ => rfl

/-- Where no quote stands, no name is found. -/
theorem yields_of_forall (h : ∀ c ∈ t, Brace.isModuleQuote c = false) : Yields t [] := by
  induction t with
  | nil => exact yields_nil
  | cons c t ih =>
    obtain ⟨hc, ht⟩ := List.forall_mem_cons.mp h
    have hone : Yields [c] [] := by
      intro col prev rest hcol
      have hnone : quotedName.run done ⟨prev, c :: rest, (c :: rest).length⟩ = none := by
        rw [quotedName_eq, run_append]
        exact run_one_of_not rfl hc
      have hat : col.at_ (c :: rest).length = none := hcol.first.trans hnone
      rw [namesFrom, List.singleton_append, apart_of_none hat]
      rfl
    exact hone.append (ih ht)

theorem ListedName.yields (x : ListedName) : Yields x.text [x.name] := by
  intro col prev rest hcol
  obtain ⟨r, hrun, hstop, hpart⟩ := x.exists_run_quotedName prev rest
  have hlast : (x.name ++ [x.quote]).getLast?.or (some x.quote) = x.text.getLast?.or prev := by
    rw [text, ← List.cons_append, List.getLast?_concat, List.getLast?_concat]
    rfl
  have hfound : apart col 0 (spots prev (x.text ++ rest) (x.text ++ rest).length) = _ :=
    apart_of_some (hcol.first.trans hrun) hstop
  rw [hlast] at hfound
  rw [namesFrom, hfound, List.map_cons, hpart]
  rfl

/-- Pieces yield their names one after the other, with commas between them. -/
theorem yields_intercalate {pieces : List (List Char)} {found : List (List (List Char))}
    (h : List.Forall₂ Yields pieces found) : Yields ([','].intercalate pieces) found.flatten := by
  induction h with
  | nil => exact yields_nil
  | @cons piece names pieces found hpiece hmore ih =>
    cases hmore with
    | nil =>
      rw [List.intercalate_singleton, List.flatten_singleton]
      exact hpiece
    | cons hnext hmore =>
      rw [List.intercalate_cons_cons, List.flatten_cons]
      have hcomma : Yields [','] [] := yields_of_forall (by decide)
      have hjoined := (hpiece.append hcomma).append ih
      rwa [List.append_nil] at hjoined

/-- Blanks around a text yield nothing. -/
theorem Yields.of_trim (h : Yields (Text.trim t) names) : Yields t names := by
  obtain ⟨g, g', hg, hg', hsplit⟩ := Text.exists_trim t
  have hblank : ∀ g : List Char, Text.isBlank g = true → Yields g [] := by
    intro g hg
    refine yields_of_forall fun c hc => Bool.eq_false_iff.mpr fun hquote => ?_
    have hneutral := (neutral_of_isBlankChar (Text.isBlankChar_of_mem hg hc)).1
    rw [Brace.isQuote_of_isModuleQuote hquote] at hneutral
    cases hneutral
  rw [hsplit]
  have hall := (hblank g hg).append (h.append (hblank g' hg'))
  rwa [List.append_nil] at hall

/-- A list yields the names of its entries. -/
theorem yields_of_isListOf {xs : List ListedName} (h : IsListOf ',' (xs.map ListedName.text) t) :
    Yields t (xs.map ListedName.name) := by
  obtain ⟨pieces, -, rfl, hpieces⟩ := h
  have hforall : ∀ {ts : List (List Char)} {found : List (List (List Char))},
      pieces.map Text.trim = ts → List.Forall₂ Yields ts found →
        Yields ([','].intercalate pieces) found.flatten := by
    rintro ts found rfl hts
    exact yields_intercalate ((List.forall₂_map_left_iff.mp hts).imp fun _ _ => Yields.of_trim)
  have hnames : List.Forall₂ Yields (xs.map ListedName.text) (xs.map fun x => [x.name]) := by
    rw [List.forall₂_map_left_iff, List.forall₂_map_right_iff, List.forall₂_same]
    exact fun x _ => x.yields
  have hflat : (xs.map fun x => [x.name]).flatten = xs.map ListedName.name := by
    rw [← List.flatMap_def, ← List.map_eq_flatMap]
  rcases hpieces with heq | heq
  · rw [← hflat]
    exact hforall heq hnames
  · -- behind a comma at the end stands one more piece, which is blank
    have hlast := List.rel_append hnames (.cons yields_nil .nil)
    have hall := hforall heq hlast
    rwa [List.flatten_append, hflat, List.flatten_singleton, List.append_nil] at hall

/-- What is found in a text by itself. -/
theorem Yields.parts_eq (h : Yields t names) : quotedName.parts .name t = names := by
  have hcol : Answers quotedName (quotedName.allMatches t) none (t ++ []) := by
    rw [List.append_nil]
    exact holds_allMatches quotedName t
  have hnames := h hcol
  -- at the end there is no room for a quote
  have hend : namesFrom (quotedName.allMatches t) (t.getLast?.or none) [] = [] := by
    have hnone : (quotedName.allMatches t).at_ 0 = none := hcol.behind.first
    rw [namesFrom, List.length_nil, spots, apart, hnone]
    rfl
  rwa [hend, List.append_nil, List.append_nil] at hnames

end

/-! ## Lists -/

/-- An assignment of `__all__`. -/
structure NameList where
  names : List ListedName
  list : List Char
  gap : List Char
  annotation : Option (List Char)
  behind : List Char
  isRound : Bool
  isList : IsListOf ',' (names.map ListedName.text) list
  isGap : Text.isBlank gap = true
  isBehind : Text.isBlank behind = true
  isAnnotation : ∀ a ∈ annotation, a ≠ [] ∧ ∀ c ∈ a, c ≠ '=' ∧ isBracket c = false

namespace NameList

variable (s : NameList)

/-- The annotation, with the sign in front of it. -/
def typed : List Char := (s.annotation.map (':' :: ·)).getD []

/-- What stands in front of the list. -/
def front : List Char := "__all__".toList ++ (s.gap ++ (s.typed ++ '=' :: s.behind))

def opener : Char := if s.isRound then '(' else '['

def closer : Char := if s.isRound then ')' else ']'

/-- The assignment on one line. -/
def text : List Char := s.front ++ s.opener :: (s.list ++ [s.closer])

/-- The lines write the assignment: the list begins on the first one, and goes on over the others
up to the bracket that closes it. -/
inductive IsWrittenOn : List Line → Prop where
  | lines {first : Line} {more : List Line} {x : List Char} :
      Text.trim first = s.front ++ s.opener :: x →
      [' '].intercalate (x :: more.map Text.trim) = s.list ++ [s.closer] →
      IsWrittenOn (first :: more)

/-! ## The lines of a list -/

theorem isBracket_of_isBlankChar {c : Char} (hc : Text.isBlankChar c = true) :
    isBracket c = false := by
  refine Bool.eq_false_iff.mpr fun hbracket => ?_
  simp only [isBracket, Bool.or_eq_true, decide_eq_true_eq] at hbracket
  obtain ((rfl | rfl) | rfl) | rfl := hbracket <;> revert hc <;> decide

theorem isBracket_list : ∀ c ∈ s.list, isBracket c = false := by
  refine s.isList.forall_mem rfl (fun c hc => isBracket_of_isBlankChar hc) fun u hu => ?_
  obtain ⟨x, -, rfl⟩ := List.mem_map.mp hu
  exact x.isBracket_text

theorem isBracket_front : ∀ c ∈ s.front, isBracket c = false := by
  have hblank : ∀ {g : List Char}, Text.isBlank g = true → ∀ c ∈ g, isBracket c = false :=
    fun hg c hc => isBracket_of_isBlankChar (Text.isBlankChar_of_mem hg hc)
  have hword : ∀ c ∈ "__all__".toList, isBracket c = false := by decide
  have htyped : ∀ c ∈ s.typed, isBracket c = false := by
    rw [typed]
    cases h : s.annotation with
    | none => exact List.forall_mem_nil _
    | some a => exact List.forall_mem_cons.mpr ⟨rfl, fun c hc => ((s.isAnnotation a h).2 c hc).2⟩
  exact List.forall_mem_append.mpr ⟨hword, List.forall_mem_append.mpr ⟨hblank s.isGap,
    List.forall_mem_append.mpr ⟨htyped,
      List.forall_mem_cons.mpr ⟨rfl, hblank s.isBehind⟩⟩⟩⟩

theorem openBrackets_append {t : List Char} (ht : ∀ c ∈ t, isBracket c = false) (u : List Char) :
    openBrackets (t ++ u) = openBrackets u := by
  induction t with
  | nil => rfl
  | cons c t ih =>
    obtain ⟨hc, ht⟩ := List.forall_mem_cons.mp ht
    simp only [isBracket, Bool.or_eq_false_iff] at hc
    rw [List.cons_append, openBrackets, sumOf_cons, ← openBrackets, ih ht]
    simp [hc]

/-- The list is open from its first bracket on. -/
theorem openBrackets_open {y : List Char} (hy : ∀ c ∈ y, isBracket c = false) :
    openBrackets (s.front ++ s.opener :: y) = 1 := by
  have hnone : openBrackets y = 0 := by
    have happend := openBrackets_append hy []
    rwa [List.append_nil] at happend
  rw [openBrackets_append s.isBracket_front, openBrackets, sumOf_cons, ← openBrackets, hnone,
    opener]
  cases s.isRound <;> rfl

theorem openBrackets_text : openBrackets s.text = 0 := by
  have hclose : openBrackets (s.list ++ [s.closer]) = -1 := by
    rw [openBrackets_append s.isBracket_list, closer]
    cases s.isRound <;> rfl
  rw [text, openBrackets_append s.isBracket_front, openBrackets, sumOf_cons, ← openBrackets, hclose,
    opener]
  cases s.isRound <;> rfl

variable {s} in
/-- From any line of the list on, the lines are joined through the last one. -/
theorem joinBracketsFrom_lines {y : List Char} {more : List Line} {n : Nat}
    (hjoined : y ++ (more.map Text.trim).flatMap (' ' :: ·) = s.list ++ [s.closer])
    (hfits : n + more.length ≤ maxLookahead) (after : List Line) :
    joinBracketsFrom (s.front ++ s.opener :: y) n (more ++ after) = ⟨s.text, n + more.length⟩ := by
  -- the induction is on the lines to come, and what has been joined begins the list
  induction more generalizing y n with
  | nil =>
    rw [List.map_nil, List.flatMap_nil, List.append_nil] at hjoined
    rw [hjoined, ← text]
    cases after with
    | nil => rfl
    | cons l after =>
      rw [List.nil_append, joinBracketsFrom, s.openBrackets_text]
      rfl
  | cons l more ih =>
    rw [List.map_cons, List.flatMap_cons] at hjoined
    rw [List.length_cons] at hfits
    -- the line that is still to come has the bracket
    have hopen : y <+: s.list := by
      refine (List.prefix_concat_iff.mp (hjoined ▸ List.prefix_append y _)).resolve_left ?_
      rintro rfl
      simp at hjoined
    have hcount := s.openBrackets_open fun c hc => s.isBracket_list c (hopen.subset hc)
    have hgoes : (0 < openBrackets (s.front ++ s.opener :: y) && decide (n < maxLookahead)) =
        true := by
      rw [hcount, decide_eq_true (by omega : n < maxLookahead)]
      rfl
    have hnext := ih (y := y ++ ' ' :: Text.trim l) (n := n + 1)
      (by rw [← hjoined, List.append_assoc]) (by omega)
    rw [List.cons_append, joinBracketsFrom, if_pos hgoes, List.append_assoc, List.cons_append,
      hnext, List.length_cons, Nat.add_assoc, Nat.add_comm 1]

variable {s} in
theorem IsWrittenOn.joinBrackets_eq {ls : List Line} (h : s.IsWrittenOn ls)
    (hfits : ls.length ≤ maxLookahead + 1) (after : List Line) :
    joinBrackets (ls ++ after) = ⟨s.text, ls.length - 1⟩ := by
  cases h with
  | @lines first more x hfirst hjoined =>
    rw [Brace.intercalate_space] at hjoined
    have hall := joinBracketsFrom_lines (n := 0) hjoined
      (by rw [List.length_cons] at hfits; omega) after
    have hopening : firstTrimmed (first :: more ++ after) = s.front ++ s.opener :: x := hfirst
    rw [joinBrackets, hopening, List.cons_append, List.drop_one, List.tail_cons, hall,
      List.length_cons, Nat.zero_add, Nat.add_sub_cancel]

/-! ## The joined text -/

/-- What closes the list. -/
def listEnd : Pattern := opt (one fun c => c = ']' || c = ')') ++ (blanks ++ last)

/-- The part of the pattern in front of the list. -/
def listFront : Pattern :=
  lit "__all__" ++ blanks ++ opt (lit ":" ++ some1 (noneOf "=")) ++ lit "=" ++ blanks ++
    one (fun c => c = '[' || c = '(')

theorem allAssignment_eq :
    allAssignment = listFront ++ (keep .clause (few inLine) ++ listEnd) := rfl

/-- In front of the bracket that closes the list the clause cannot end. -/
theorem run_listEnd_eq_none {m : Spot} {c d : Char} {v : List Char} (hm : m.rest = c :: (v ++ [d]))
    (hc : isBracket c = false) (hd : Text.isBlankChar d = false) (k : Spot → Option Match) :
    listEnd.run k m = none := by
  have hopen : ∀ k, (one fun c => c = ']' || c = ')').run k m = none := by
    intro k
    refine run_one_of_not hm ?_
    simp only [isBracket, Bool.or_eq_false_iff] at hc
    rw [hc.1.2, hc.2]
    rfl
  rw [listEnd, run_append, run_opt_of_none (hopen _)]
  -- what is left in front of the end would be blank
  refine Option.eq_none_iff_forall_ne_some.mpr fun r hr => ?_
  obtain ⟨m', ms, -, hmatch, -⟩ := exists_matches_of_run hr
  obtain ⟨m₁, ms₁, ms₂, hblanks, hlast, -⟩ := matches_append_iff.mp hmatch
  cases hblanks with
  | @many _ w rest _ hw hrest =>
    cases hlast with
    | last hend =>
      obtain rfl : rest = [] := hend
      have hmem : d ∈ w := by
        rw [← List.append_nil w, ← hrest, hm]
        simp
      rw [hw d hmem] at hd
      cases hd

theorem isBlankChar_closer : Text.isBlankChar s.closer = false := by
  rw [closer]
  cases s.isRound <;> decide

/-- An annotation is passed up to the sign behind it. -/
theorem finds_typed {m : Spot} {rest : List Char} (hm : m.rest = s.typed ++ '=' :: rest) :
    Finds (opt (lit ":" ++ some1 (noneOf "="))) m (m.behind s.typed ('=' :: rest)) [] := by
  rw [typed] at hm ⊢
  -- without an annotation the sign follows at once
  cases h : s.annotation with
  | none =>
    rw [h] at hm
    have hrest : m.rest = '=' :: rest := hm
    have hnothing : m.behind [] ('=' :: rest) = m := by rw [← hrest, Spot.behind_nil]
    show Finds _ m (m.behind [] ('=' :: rest)) []
    rw [hnothing]
    refine finds_opt_nothing fun k => run_append_of_lit ?_
    rw [hrest]
    rfl
  | some a =>
    rw [h] at hm
    obtain ⟨hne, hchars⟩ := s.isAnnotation a h
    have hrest : m.rest = ":".toList ++ (a ++ '=' :: rest) := hm
    have hnone : ∀ c ∈ a, noneOf "=" c = true := by
      intro c hc
      simp [noneOf, (hchars c hc).1]
    let m' := m.behind ":".toList (a ++ '=' :: rest)
    have hsome : Finds (some1 (noneOf "=")) m' (m'.behind a ('=' :: rest)) [] :=
      finds_some1 hne hnone rfl rfl
    rw [Spot.behind_behind] at hsome
    exact ((finds_lit hrest).append hsome).opt

/-- The assignment is read up to its list. -/
theorem exists_finds_listFront (t : List Char) : ∃ m,
    Finds listFront (.start (s.front ++ s.opener :: t)) m [] ∧ m.rest = t ∧ m.Exact := by
  -- no repetition takes the sign behind it, so each is passed in the only way there is
  let list := s.opener :: t
  let value := s.behind ++ list
  let declared := s.typed ++ '=' :: value
  have hassoc : ∀ a b c d e : List Char,
      (a ++ (b ++ (c ++ d))) ++ e = a ++ (b ++ (c ++ (d ++ e))) := by
    simp only [List.append_assoc, implies_true]
  have htext : s.front ++ list = "__all__".toList ++ (s.gap ++ declared) := hassoc _ _ _ _ _
  have hdeclared : declared.head?.any Text.isBlankChar = false := by
    simp only [declared, typed]
    cases s.annotation <;> rfl
  have hlist : list.head?.any Text.isBlankChar = false := by
    simp only [list, opener]
    cases s.isRound <;> rfl
  have hopener : (decide (s.opener = '[') || decide (s.opener = '(')) = true := by
    rw [opener]
    cases s.isRound <;> decide
  let m₁ := (Spot.start (s.front ++ list)).behind "__all__".toList (s.gap ++ declared)
  let m₂ := m₁.behind s.gap declared
  let m₃ := m₂.behind s.typed ('=' :: value)
  let m₄ := m₃.behind "=".toList value
  let m₅ := m₄.behind s.behind list
  have hword : Finds (lit "__all__") (.start (s.front ++ list)) m₁ [] := finds_lit htext
  have hgap : Finds blanks m₁ m₂ [] :=
    finds_many rfl (fun c hc => Text.isBlankChar_of_mem s.isGap hc) hdeclared
  have htyped : Finds _ m₂ m₃ [] := s.finds_typed rfl
  have hassign : Finds (lit "=") m₃ m₄ [] := finds_lit rfl
  have hbehind : Finds blanks m₄ m₅ [] :=
    finds_many rfl (fun c hc => Text.isBlankChar_of_mem s.isBehind hc) hlist
  have hopen : Finds (one fun c => c = '[' || c = '(') m₅ (m₅.behind [s.opener] t) [] :=
    finds_one rfl hopener
  have hall := ((((hword.append hgap).append htyped).append hassign).append hbehind).append hopen
  exact ⟨_, hall, rfl, hall.matches.exact rfl⟩

/-- The clause of the assignment is the whole list. -/
theorem exists_match?_text (hline : '\n' ∉ s.list) :
    ∃ m, allAssignment.match? s.text = some m ∧ m.part .clause = s.list := by
  obtain ⟨m, hfront, hm, hexact⟩ := s.exists_finds_listFront (s.list ++ [s.closer])
  have hinLine : ∀ c ∈ s.list, inLine c = true := by
    intro c hc
    refine decide_eq_true ?_
    rintro rfl
    exact hline hc
  -- the list goes on to the last bracket of its kind, since the line must end behind it
  have hopen : ∀ u c v, s.list = u ++ c :: v → ∀ k,
      listEnd.run k (m.behind u (c :: v ++ [s.closer])) = none := by
    intro u c v hsplit
    refine run_listEnd_eq_none rfl (s.isBracket_list c ?_) s.isBlankChar_closer
    rw [hsplit]
    exact List.mem_append_right u List.mem_cons_self
  have hclose : (decide (s.closer = ']') || decide (s.closer = ')')) = true := by
    rw [closer]
    cases s.isRound <;> decide
  let m' := m.behind s.list [s.closer]
  have hbracket : Finds (one fun c => c = ']' || c = ')') m' (m'.behind [s.closer] []) [] :=
    finds_one rfl hclose
  have hend : Finds listEnd m' _ _ :=
    hbracket.opt.append ((finds_many_nothing rfl).append (finds_last rfl))
  have hall := hfront.append (finds_few hm hinLine hopen hend .clause).2
  rw [← allAssignment_eq] at hall
  refine ⟨_, hall.match?, ?_⟩
  exact part_of_marks (b := []) (List.prefix_append _ _) List.not_mem_nil hexact hm

/-- The names of an assignment are read from it as they are listed. -/
theorem exportsOf_text (hline : '\n' ∉ s.list) : exportsOf s.text =
    s.names.map fun x => { name := textOf x.name, kind := .named, line := 1 } := by
  obtain ⟨m, hm, hclause⟩ := s.exists_match?_text hline
  simp only [exportsOf, hm, hclause, (yields_of_isListOf s.isList).parts_eq, List.map_map]
  rfl

end NameList

end CodeAtlas.Indent
