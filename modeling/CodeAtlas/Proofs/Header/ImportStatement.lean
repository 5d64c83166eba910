/-
Statements that import names.

A statement `from m import ..` is given by its module, its items, and the rows that write their
list, behind `import` or in round brackets, with comments behind any of them. The header is
followed up to the list, which the match keeps as it stands; the list is joined from its rows
and cut at its commas. What comes out is the part of the list in front of the first comment,
and that is the whole list exactly if no item stands on a later line.
-/
import CodeAtlas.Proofs.Header.ImportList
import CodeAtlas.Proofs.Pattern.Word

set_option autoImplicit false

namespace CodeAtlas.Indent

open Pattern

/-! ## The header -/

/-- The text in front of a list. -/
def importHeader (module : List Char) : List Char :=
  "from ".toList ++ (module ++ (" ".toList ++ "import ".toList))

theorem isBlankChar_of_isModule {module : List Char} (h : IsModule module) :
    module.head?.any Text.isBlankChar = false := by
  obtain ⟨c, rest, rfl⟩ := List.exists_cons_of_ne_nil h.1
  have hc := h.2 c List.mem_cons_self
  refine Bool.eq_false_iff.mpr ?_
  intro hblank
  have hblank : Text.isBlankChar c = true := hblank
  rw [Text.isWordChar_of_isBlankChar hblank, Bool.false_or, decide_eq_true_eq] at hc
  rw [hc] at hblank
  revert hblank
  decide

theorem IsModule.isNameOf {module : List Char} (h : IsModule module) :
    IsNameOf (fun c => Text.isWordChar c || c = '.') (fun c => Text.isWordChar c || c = '.')
      module := by
  obtain ⟨c, rest, rfl⟩ := List.exists_cons_of_ne_nil h.1
  exact ⟨c, rest, rfl, List.forall_mem_cons.mp h.2⟩

/-- The word takes the blanks in front of the list. -/
theorem isWord_import {g : List Char} (hg : Text.isBlank g = true) :
    IsWord "import" ("import ".toList ++ g) := by
  refine ⟨' ' :: g, List.cons_ne_nil _ _, List.forall_mem_cons.mpr ⟨by decide, ?_⟩, by simp⟩
  exact fun c hc => Text.isBlankChar_of_mem hg hc

/-- What is left of a text on one line is taken whole where anything of a line is. -/
theorem isNameOf_trim {x : List Char} (hx : Text.trim x ≠ []) (hline : '\n' ∉ x) :
    IsNameOf inLine inLine (Text.trim x) := by
  have hall : ∀ c ∈ Text.trim x, inLine c = true := by
    intro c hc
    refine decide_eq_true ?_
    rintro rfl
    exact hline (Text.mem_of_mem_trim hc)
  obtain ⟨c, rest, htrim⟩ := List.exists_cons_of_ne_nil hx
  rw [htrim] at hall ⊢
  exact ⟨c, rest, rfl, List.forall_mem_cons.mp hall⟩

/-- The line in pieces, each as the header takes it. -/
theorem trim_importHeader {indent g : List Char} (module s : List Char) {c : Char}
    (hindent : Text.isBlank indent = true) (hc : Text.isBlankChar c = false) :
    Text.trim (indent ++ (importHeader module ++ (g ++ c :: s))) =
      "from ".toList ++ (module ++ (" ".toList ++ ("import ".toList ++ g ++
        c :: Text.trimEnd s))) := by
  have hfirst : importHeader module ++ (g ++ c :: s) = [] ++ 'f' :: ("rom ".toList ++ (module ++
      (" ".toList ++ ("import ".toList ++ g))) ++ c :: s) := by
    simp [importHeader]
  have hend := Text.trimEnd_append_cons hc ('f' :: ("rom ".toList ++ (module ++
    (" ".toList ++ ("import ".toList ++ g))))) s
  rw [List.cons_append] at hend
  rw [Text.trim_append_of_isBlank hindent, hfirst, Text.trim,
    Text.trimStart_append_cons (by decide)]
  show Text.trimEnd ('f' :: _) = _
  rw [hend]
  simp

/-- What stands behind `import` is the clause of the match, trimmed. -/
theorem match?_fromImport {indent module x : List Char} (hindent : Text.isBlank indent = true)
    (hmodule : IsModule module) (hx : Text.trim x ≠ []) (hline : '\n' ∉ x) :
    ∃ m, fromImport.match? (Text.trim (indent ++ (importHeader module ++ x))) = some m ∧
      m.part .module = module ∧ m.part .clause = Text.trim x := by
  obtain ⟨g, c, s, hg, hc, hsplit, htrim⟩ := Text.exists_cons_of_trim_ne_nil hx
  have hclause := isNameOf_trim hx hline
  have hblack : (Text.trim x).head?.any Text.isBlankChar = false := by
    rw [htrim]
    exact hc
  have hwhole : Text.trim (indent ++ (importHeader module ++ x)) =
      "from ".toList ++ (module ++ (" ".toList ++ ("import ".toList ++ g ++ Text.trim x))) := by
    rw [htrim, hsplit]
    exact trim_importHeader module s hindent hc
  have hfrom : IsWord "from" "from ".toList := isWord_space "from"
  have hbehind : (module ++ (" ".toList ++ ("import ".toList ++ g ++ Text.trim x))).head?.any
      Text.isBlankChar = false := by
    have hhead := isBlankChar_of_isModule hmodule
    obtain ⟨d, u, rfl⟩ := List.exists_cons_of_ne_nil hmodule.1
    exact hhead
  have hword := finds_word (m := .start ("from ".toList ++ (module ++ (" ".toList ++
    ("import ".toList ++ g ++ Text.trim x))))) hfrom rfl hbehind
  have hbefore := ((hword.append ((finds_name hmodule.isNameOf rfl rfl).keep .module)).append
    (finds_gap (List.cons_ne_nil ' ' []) isBlankChar_space rfl rfl)).append
    (finds_word (isWord_import hg) rfl hblack)
  have hfinds := hbefore.append
    ((finds_name hclause (show _ = _ ++ [] from (List.append_nil _).symm) rfl).keep .clause)
  have hmatch := (hfinds.append (finds_last rfl)).match?
  rw [hwhole]
  refine ⟨_, hmatch, ?_, ?_⟩
  · exact part_of_marks (b := []) ⟨_, rfl⟩ List.not_mem_nil (hword.matches.exact rfl) rfl
  · exact part_of_marks (b := [(.module, _), (.module, _)]) ⟨_, rfl⟩ (by simp)
      (hbefore.matches.exact rfl) (List.append_nil _).symm

/-! ## The statement -/

/-- The rows write the list of the items: behind `import`, or in round brackets over several
rows. The first text is what opens the list. -/
inductive Writes (items : List ImportItem) : List Char → List Row → Prop where
  | bare {row : Row} : IsList items (Text.trim row.code) → Writes items [] [row]
  | bracketed {t : List Char} {rows : List Row} : IsList items t →
      spaced Row.code rows = t ++ [')'] → Writes items ['('] rows

/-- A statement that imports names from a module. No comment has a bracket that closes. -/
structure ImportStatement where
  indent : List Char
  module : List Char
  items : List ImportItem
  opener : List Char
  first : Row
  more : List Row
  isIndent : Text.isBlank indent = true
  isModule : IsModule module
  someItem : items ≠ []
  writes : Writes items opener (first :: more)
  openComment : ∀ row ∈ first :: more, ∀ x ∈ row.comment, ')' ∉ x
  onLines : ∀ row ∈ first :: more, '\n' ∉ row.text
  fits : more.length ≤ maxLookahead

namespace ImportStatement

variable (s : ImportStatement)

def rows : List Row := s.first :: s.more

/-- The lines of the statement. -/
def lines : List Line :=
  (s.indent ++ (importHeader s.module ++ (s.opener ++ s.first.text))) :: s.more.map Row.text

/-- The list is bare and on one row, or in brackets. -/
theorem bare_or_bracketed :
    (s.opener = [] ∧ s.more = [] ∧ IsList s.items (Text.trim s.first.code)) ∨
      s.opener = ['('] ∧ ∃ t, IsList s.items t ∧ spaced Row.code s.rows = t ++ [')'] := by
  have hwrites : Writes s.items s.opener s.rows := s.writes
  generalize s.opener = opener at hwrites ⊢
  generalize hrows : s.rows = rows at hwrites ⊢
  cases hwrites with
  | bare hlist =>
    obtain ⟨hfirst, hmore⟩ := List.cons.inj hrows
    exact .inl ⟨rfl, hmore, hfirst ▸ hlist⟩
  | bracketed hlist hspaced => exact .inr ⟨rfl, _, hlist, hspaced⟩

theorem opener_eq : s.opener = [] ∨ s.opener = ['('] :=
  s.bare_or_bracketed.imp And.left And.left

/-- What stands in the code of the list. -/
theorem isListChar_of_mem {c : Char} (hc : c ∈ spaced Row.code s.rows) :
    isListChar c = true ∨ c = ')' := by
  rcases s.bare_or_bracketed with ⟨-, hmore, hlist⟩ | ⟨-, t, hlist, hspaced⟩
  · rw [rows, hmore, spaced_singleton] at hc
    exact .inl (hlist.isListChar hc)
  · rw [hspaced] at hc
    rcases List.mem_append.mp hc with hc | hc
    · exact .inl (hlist.isListChar hc)
    · exact .inr (List.mem_singleton.mp hc)

theorem isListChar_of_mem_shownRows {c : Char} (hc : c ∈ spaced Row.code (shownRows s.rows)) :
    isListChar c = true ∨ c = ')' := by
  rcases of_mem_spaced hc with rfl | ⟨row, hrow, hmem⟩
  · exact .inl rfl
  · have hrow : row ∈ s.rows := by
      rw [← shownRows_append_hiddenRows s.rows]
      exact List.mem_append_left _ hrow
    rcases mem_spaced hrow hmem with hblank | hmem
    · refine .inl ?_
      rw [isListChar, hblank]
      rfl
    · exact s.isListChar_of_mem hmem

theorem notMem_shownRows {c : Char} (hlist : isListChar c = false) (hclose : c ≠ ')') :
    c ∉ spaced Row.code (shownRows s.rows) := by
  intro hmem
  rcases s.isListChar_of_mem_shownRows hmem with h | h
  · rw [hlist] at h
    cases h
  · exact hclose h

theorem sign_notMem_code {row : Row} (hrow : row ∈ s.rows) : '#' ∉ row.code := by
  intro hmem
  rcases mem_spaced hrow hmem with hblank | hmem
  · revert hblank
    decide
  · have hchar := s.isListChar_of_mem hmem
    revert hchar
    decide

/-- Either no row is hidden, and the shown rows are the list with what closes it, or the list goes
on behind the shown rows. -/
theorem shownRows_cases :
    (hiddenRows s.rows = [] ∧ listNames (spaced Row.code (shownRows s.rows)) =
        s.items.map ImportItem.text ∧
      (')' ∉ spaced Row.code (shownRows s.rows) ∨
        ∃ t, spaced Row.code (shownRows s.rows) = t ++ [')'] ∧ ')' ∉ t)) ∨
    ∃ t, IsList s.items (spaced Row.code (shownRows s.rows) ++ ' ' :: t) ∧
      hiddenRows s.rows ≠ [] ∧ spaced Row.code (hiddenRows s.rows) = t ++ [')'] := by
  have hclose : isListChar ')' = false := by decide
  have hall := shownRows_append_hiddenRows s.rows
  rcases s.bare_or_bracketed with ⟨-, hmore, hlist⟩ | ⟨-, t, hlist, hspaced⟩
  · rw [rows, hmore, shownRows_singleton, hiddenRows_singleton, spaced_singleton, listNames,
      Text.dropEndWhile_of_not_mem (hlist.notMem hclose)]
    exact .inl ⟨rfl, hlist.entries_eq s.someItem, .inl (hlist.notMem hclose)⟩
  · -- a comment hides rows only of a list in brackets
    by_cases hnil : hiddenRows s.rows = []
    · rw [hnil, List.append_nil] at hall
      rw [hall, hspaced, listNames, Text.dropEndWhile_concat (hlist.notMem hclose)]
      exact .inl ⟨hnil, hlist.entries_eq s.someItem, .inr ⟨t, rfl, hlist.notMem hclose⟩⟩
    · have hsome : shownRows s.rows ≠ [] := shownRows_ne_nil (List.cons_ne_nil _ _)
      rw [← hall, spaced_append hsome hnil] at hspaced
      obtain ⟨t', rfl, hrest⟩ := exists_of_append_cons_eq hspaced
      exact .inr ⟨t', hlist, hnil, hrest⟩

/-- All items are named in the shown rows exactly if the hidden ones hold none. -/
theorem listNames_shownRows_eq_iff :
    listNames (spaced Row.code (shownRows s.rows)) = s.items.map ImportItem.text ↔
      ∀ row ∈ hiddenRows s.rows, ∀ c ∈ row.code,
        Text.isBlankChar c = true ∨ c = ',' ∨ c = ')' := by
  rcases s.shownRows_cases with ⟨hnil, hnames, -⟩ | ⟨t, hlist, -, hspaced⟩
  · rw [hnil]
    exact iff_of_true hnames (by simp)
  · have hopen := hlist.notMem (c := ')') (by decide)
    have hentries := hlist.entries_eq s.someItem
    rw [List.mem_append, List.mem_cons, not_or, not_or] at hopen
    rw [listNames, Text.dropEndWhile_of_not_mem hopen.1, ← hentries]
    constructor
    · -- the same entries have the same characters, so that the rest of the list has none
      intro hsame row hrow c hc
      have hink := congrArg (fun names => names.flatMap (·.filter isInk)) hsame
      simp only [ink_entries, List.filter_append] at hink
      have hrest : (' ' :: t).filter isInk = [] := List.self_eq_append_right.mp hink
      have hnone := List.filter_eq_nil_iff.mp hrest
      rcases mem_spaced hrow hc with hblank | hmem
      · exact .inl hblank
      · rw [hspaced, List.mem_append, List.mem_singleton] at hmem
        rcases hmem with hmem | hmem
        · have hc := hnone c (List.mem_cons_of_mem _ hmem)
          by_cases hcomma : c = ','
          · exact .inr (.inl hcomma)
          · refine .inl ?_
            simpa [isInk, hcomma] using hc
        · exact .inr (.inr hmem)
    · intro hblank
      refine (entries_append_of_not_ink ?_ _).symm
      intro c hc
      rcases List.mem_cons.mp hc with rfl | hmem
      · rfl
      · have hspacedmem : c ∈ spaced Row.code (hiddenRows s.rows) := by
          rw [hspaced]
          exact List.mem_append_left _ hmem
        rcases of_mem_spaced hspacedmem with rfl | ⟨row, hrow, hrowmem⟩
        · rfl
        · rcases hblank row hrow c hrowmem with hc | rfl | rfl
          · rw [isInk, hc]
            rfl
          · rfl
          · exact absurd hmem hopen.2.2

/-- No bracket stands in front of a bare list, in its comment or before it. -/
theorem head?_ne_of_bare (hmore : s.more = []) :
    (Text.trim s.first.text).head? ≠ some '(' := by
  have hcode : ∀ row ∈ [s.first], '#' ∉ row.code := by
    intro row hrow
    refine s.sign_notMem_code ?_
    rw [rows, hmore]
    exact hrow
  have hfree := s.notMem_shownRows (c := '(') (by decide) (by decide)
  rw [rows, hmore, shownRows_singleton] at hfree
  intro hparen
  obtain ⟨u, hu⟩ := List.head?_eq_some_iff.mp hparen
  obtain ⟨g, hg, hdrop⟩ := exists_dropComment_spaced hcode
  rw [spaced_singleton, hu, shownRows_singleton] at hdrop
  -- the bracket is in front of the comment, so it would stay when the comment is dropped
  have hmem : '(' ∈ spaced Row.code [s.first] ++ g := by
    rw [← hdrop]
    exact List.mem_cons_self
  rcases List.mem_append.mp hmem with hmem | hmem
  · exact hfree hmem
  · exact Text.notMem_of_isBlank hg (by decide) hmem

/-- The list in brackets is joined from its rows, behind the blanks of the bracket. -/
theorem exists_importList_bracketed {t : List Char} (hlist : IsList s.items t)
    (hspaced : spaced Row.code s.rows = t ++ [')']) (after : List Line) :
    ∃ g, Text.isBlank g = true ∧
      importList (Text.trim (['('] ++ s.first.text)) (s.more.map Row.text ++ after) =
        ['('] ++ (g ++ spaced Row.text s.rows) := by
  obtain ⟨g, hg, hend⟩ := Text.exists_trimEnd_eq s.first.text
  have htrim : Text.trim (['('] ++ s.first.text) = '(' :: g ++ Text.trim s.first.text := by
    rw [List.singleton_append, List.cons_append, ← hend]
    exact Text.trimEnd_append_cons (by decide) [] _
  have hfront : ')' ∉ '(' :: g := by
    intro hmem
    rcases List.mem_cons.mp hmem with heq | hmem
    · revert heq
      decide
    · exact Text.notMem_of_isBlank hg (by decide) hmem
  have hjoin := joinList_rows hspaced (hlist.notMem (by decide)) s.openComment hfront
    (n := 0) (by rw [Nat.zero_add]; exact s.fits) after
  refine ⟨g, hg, ?_⟩
  rw [importList, Text.trim_trim, htrim, hjoin]
  rfl

/-- The list that the reader takes up: the rows with their comments, behind the bracket and
its blanks. -/
theorem exists_importList (after : List Line) : ∃ g, Text.isBlank g = true ∧
    (s.opener = ['('] ∨ s.opener = [] ∧ g = [] ∧
      Text.trim (spaced Row.code (shownRows s.rows)) = spaced Row.code (shownRows s.rows)) ∧
    importList (Text.trim (s.opener ++ s.first.text)) (s.more.map Row.text ++ after) =
      s.opener ++ (g ++ spaced Row.text s.rows) := by
  rcases s.bare_or_bracketed with ⟨hopener, hmore, -⟩ | ⟨hopener, t, hlist, hspaced⟩
  · refine ⟨[], rfl, .inr ⟨hopener, rfl, ?_⟩, ?_⟩
    · rw [rows, hmore, shownRows_singleton, spaced_singleton, Text.trim_trim]
    · rw [rows, hopener, hmore, spaced_singleton, importList, Text.trim_trim, List.nil_append,
        List.nil_append, List.nil_append, if_neg (s.head?_ne_of_bare hmore)]
  · obtain ⟨g, hg, himport⟩ := s.exists_importList_bracketed hlist hspaced after
    rw [hopener]
    exact ⟨g, hg, .inl rfl, himport⟩

theorem trim_clause_ne_nil : Text.trim (s.opener ++ s.first.text) ≠ [] := by
  rcases s.bare_or_bracketed with ⟨hopener, -, hlist⟩ | ⟨hopener, -⟩
  · -- without a bracket the first row has a character of the first item
    have hentries := hlist.entries_eq s.someItem
    have hne : Text.trim s.first.code ≠ [] := by
      intro hnil
      rw [hnil] at hentries
      exact s.someItem (List.map_eq_nil_iff.mp hentries.symm)
    obtain ⟨g, c, u, -, hc, hsplit, -⟩ := Text.exists_cons_of_trim_ne_nil hne
    have hcode : c ∈ s.first.code := by
      rw [hsplit]
      exact List.mem_append_right g List.mem_cons_self
    refine Text.trim_ne_nil_of_mem (c := c) ?_ hc
    rw [hopener, List.nil_append, Row.text]
    split
    · exact hcode
    · exact List.mem_append_left _ hcode
  · rw [hopener]
    exact Text.trim_ne_nil_of_mem (c := '(') List.mem_cons_self (by decide)

/-- The record of the list that is taken up. -/
theorem fromRecord_eq {g : List Char} (hg : Text.isBlank g = true) (hopener : s.opener = ['('] ∨
    s.opener = [] ∧ g = [] ∧
      Text.trim (spaced Row.code (shownRows s.rows)) = spaced Row.code (shownRows s.rows)) :
    fromRecord s.module (s.opener ++ (g ++ spaced Row.text s.rows)) =
      { module := textOf s.module,
        names := (listNames (spaced Row.code (shownRows s.rows))).map textOf,
        isNamespace := false, line := 1, origin := some (originOf s.module) } := by
  obtain ⟨g', hg', hdrop⟩ := exists_dropComment_spaced fun row hrow => s.sign_notMem_code hrow
  have hfree : '#' ∉ s.opener ++ g := by
    rw [List.mem_append, not_or]
    refine ⟨?_, Text.notMem_of_isBlank hg (by decide)⟩
    rcases s.opener_eq with h | h <;> rw [h] <;> decide
  have hcomment : dropComment (s.opener ++ (g ++ spaced Row.text s.rows)) =
      s.opener ++ (g ++ spaced Row.code (shownRows s.rows) ++ g') := by
    rw [← List.append_assoc, dropComment_append_of_not_mem hfree, hdrop, List.append_assoc,
      List.append_assoc]
  have hinner := dropWhile_trim_opener hg hg' (s.notMem_shownRows (by decide) (by decide)) hopener
  have hclose : ')' ∉ spaced Row.code (shownRows s.rows) ∨
      ∃ t, spaced Row.code (shownRows s.rows) = t ++ [')'] ∧ ')' ∉ t := by
    rcases s.shownRows_cases with ⟨-, -, hclose⟩ | ⟨t, hlist, -⟩
    · exact hclose
    · refine .inl ?_
      intro hmem
      exact hlist.notMem (by decide) (List.mem_append_left _ hmem)
  -- no star is in the shown rows
  have hstar : Text.trim (Text.dropEndWhile (· = ')')
      (Text.trimEnd (g ++ spaced Row.code (shownRows s.rows)))) ≠ ['*'] := by
    intro hstar
    have hmem : '*' ∈ Text.dropEndWhile (· = ')')
        (Text.trimEnd (g ++ spaced Row.code (shownRows s.rows))) := by
      refine Text.mem_of_mem_trim ?_
      rw [hstar]
      exact List.mem_cons_self
    have hinside : '*' ∈ g ++ spaced Row.code (shownRows s.rows) :=
      Text.dropEndWhile_subset _ _ (Text.dropEndWhile_subset _ _ hmem)
    rcases List.mem_append.mp hinside with hmem | hmem
    · exact Text.notMem_of_isBlank hg (by decide) hmem
    · exact s.notMem_shownRows (by decide) (by decide) hmem
  simp only [fromRecord, hcomment, hinner, hstar, decide_false]
  rw [← entries, entries_dropEndWhile hg hclose]

/-- The statement is one import from its module. It names what is read of the list in front of
the first comment, and these are all items exactly if no item stands on a later line. -/
theorem importStatement?_lines (after : List Line) :
    importStatement? (s.lines ++ after) = some (.imports
      [{ module := textOf s.module,
         names := (listNames (spaced Row.code (shownRows s.rows))).map textOf,
         isNamespace := false, line := 1, origin := some (originOf s.module) }]) ∧
    (listNames (spaced Row.code (shownRows s.rows)) = s.items.map ImportItem.text ↔
      ∀ row ∈ hiddenRows s.rows, ∀ c ∈ row.code,
        Text.isBlankChar c = true ∨ c = ',' ∨ c = ')') := by
  refine ⟨?_, s.listNames_shownRows_eq_iff⟩
  have hline : '\n' ∉ s.opener ++ s.first.text := by
    have hopener : '\n' ∉ s.opener := by
      rcases s.opener_eq with h | h <;> rw [h] <;> decide
    rw [List.mem_append, not_or]
    exact ⟨hopener, s.onLines s.first List.mem_cons_self⟩
  obtain ⟨m, hmatch, hmodule, hclause⟩ :=
    match?_fromImport s.isIndent s.isModule s.trim_clause_ne_nil hline
  obtain ⟨g, hg, hopener, hlist⟩ := s.exists_importList after
  have hrecord := s.fromRecord_eq hg hopener
  have hfirst : firstTrimmed (s.lines ++ after) =
      Text.trim (s.indent ++ (importHeader s.module ++ (s.opener ++ s.first.text))) := rfl
  have hbehind : (s.lines ++ after).drop 1 = s.more.map Row.text ++ after := rfl
  simp only [importStatement?, hfirst, hmatch, hmodule, hclause, hbehind, hlist, hrecord]
  rfl

end ImportStatement

/-- Nothing is lost where the first comment is behind the last item. -/
theorem importStatement?_lines_lastComment :
    importStatement? ["from m import (".toList, "    a,".toList, "    b as c,  # last".toList,
        ")".toList] =
      some (.imports [{ module := "m", names := ["a", "b as c"], isNamespace := false, line := 1,
                        origin := some .external }]) := by
  have hword : ∀ w ∈ ["a".toList, "b".toList, "c".toList, "m".toList], IsWordText w := by
    have hall : ∀ w ∈ ["a".toList, "b".toList, "c".toList, "m".toList],
        w ≠ [] ∧ w.all Text.isWordChar = true := by decide
    exact fun w hw => ⟨(hall w hw).1, List.all_eq_true.mp (hall w hw).2⟩
  have hlist : IsList
      [⟨"a".toList, none, hword _ (by simp), by simp⟩,
        ⟨"b".toList, some "c".toList, hword _ (by simp), by rintro w ⟨⟩; exact hword _ (by simp)⟩]
      " a, b as c, ".toList :=
    ⟨[" a".toList, " b as c".toList, " ".toList], by decide, .inr rfl⟩
  exact (ImportStatement.importStatement?_lines
    { indent := [], module := "m".toList, items := _, opener := ['('], first := ⟨[], none⟩,
      more := [⟨"    a,".toList, none⟩, ⟨"    b as c,  ".toList, some " last".toList⟩,
        ⟨")".toList, none⟩],
      isIndent := rfl, isModule := ⟨by decide, List.all_eq_true.mp rfl⟩,
      someItem := List.cons_ne_nil _ _,
      writes := .bracketed hlist (by decide), openComment := by simp, onLines := by decide,
      fits := by decide } []).1

/-- Behind the comment on the first item, the second one is lost. -/
theorem importStatement?_firstComment :
    importStatement? ["from m import (".toList, "    a,  # first".toList, "    b,".toList,
        ")".toList] =
      some (.imports [{ module := "m", names := ["a"], isNamespace := false, line := 1,
                        origin := some .external }]) := by
  decide +kernel

end CodeAtlas.Indent
