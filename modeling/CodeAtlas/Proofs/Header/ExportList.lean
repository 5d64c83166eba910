/-
Export lists as they are written.

A statement is given by the entries of its list, with any blanks around them and a comma behind the
last one or not, and by what follows the list: the module that the names come from, or a semicolon.
The recogniser of exports is shown one line. If the whole statement stands on it, it answers one
record for each entry (`exportsOf_text`); if the line ends inside the list, it answers nothing at
all (`exportsOf_opening`), since the pattern asks for the bracket that closes the list. No other
recogniser takes a line that begins like that, so that nothing is made up for it
(`firstHit_opening`).
-/
import CodeAtlas.Header.Brace.Export
import CodeAtlas.Proofs.Header.ImportClause
import CodeAtlas.Proofs.Text.Search

set_option autoImplicit false

namespace CodeAtlas

/-! ## Behind the last needle -/

namespace Text

/-- A renamed entry leaves under the name behind `as`. -/
theorem afterLast_as_append {w : List Char} (hw : ' ' ∉ w) (u : List Char) :
    afterLast " as " (u ++ (" as ".toList ++ w)) = w := by
  have hrev : (u ++ (" as ".toList ++ w)).reverse =
      w.reverse ++ (" as ".toList.reverse ++ u.reverse) := by
    simp
  have hcut : cut? " as ".toList.reverse (" as ".toList.reverse ++ u.reverse) =
      some ([], u.reverse) := rfl
  have hfree : ' ' ∉ w.reverse := by rwa [List.mem_reverse]
  have hall : cut? " as ".toList.reverse (w.reverse ++ (" as ".toList.reverse ++ u.reverse)) =
      some (w.reverse, u.reverse) := by
    have hsplit := cut?_append_of_notMem hfree ['s', 'a', ' '] (" as ".toList.reverse ++ u.reverse)
    rw [show ' ' :: ['s', 'a', ' '] = " as ".toList.reverse from rfl, hcut] at hsplit
    simpa using hsplit
  rw [afterLast, hrev, hall]
  exact List.reverse_reverse w

/-- Behind a beginning that is too short for the needle nothing is cut off. -/
theorem afterLast_as_of_short {w : List Char} (hw : ' ' ∉ w) {u : List Char}
    (hu : cut? " as ".toList.reverse u.reverse = none) : afterLast " as " (u ++ w) = u ++ w := by
  have hfree : ' ' ∉ w.reverse := by rwa [List.mem_reverse]
  have hall : cut? " as ".toList.reverse (u ++ w).reverse = none := by
    have hsplit := cut?_append_of_notMem hfree ['s', 'a', ' '] u.reverse
    rw [show ' ' :: ['s', 'a', ' '] = " as ".toList.reverse from rfl, hu] at hsplit
    rw [List.reverse_append]
    simpa using hsplit
  rw [afterLast, hall]

end Text

namespace Brace

open Pattern

/-! ## Entries -/

/-- An entry of an export list: a name, the one under which it leaves the file, and whether it is
a type. -/
structure ExportEntry where
  typed : Bool
  name : List Char
  given : Option (List Char)
  isName : IsNameOf Text.isNameStart Text.isNameChar name
  isGiven : ∀ w ∈ given, IsNameOf Text.isNameStart Text.isNameChar w

namespace ExportEntry

variable (e : ExportEntry)

/-- The entry without the word in front of it. -/
def kept : List Char :=
  match e.given with
  | none => e.name
  | some w => e.name ++ (" as ".toList ++ w)

def text : List Char := wordIf e.typed "type" ++ e.kept

/-- Is the name taken for the word that marks types? That takes a value that is called `type` and
is renamed. -/
def isMisread : Bool := !e.typed && e.given.isSome && e.name = "type".toList

/-- The name under which the entry is recorded. -/
def outer : List Char :=
  if e.isMisread then "as ".toList ++ e.given.getD [] else e.given.getD e.name

/-- What is recorded of the entry, on line one. -/
def record : ExportRecord :=
  { name := textOf e.outer, kind := if textOf e.outer == "default" then .default else .named,
    isDefault := textOf e.outer == "default", line := 1 }

theorem notMem_space {w : List Char} (hw : IsNameOf Text.isNameStart Text.isNameChar w) :
    ' ' ∉ w := Text.not_mem_of_isName hw (by decide)

theorem isEntryChar_kept : ∀ c ∈ e.kept, isEntryChar c = true := by
  rw [kept]
  split
  · exact isEntryChar_of_isName e.isName
  · rename_i w hw
    have hword : ∀ c ∈ " as ".toList, isEntryChar c = true := by decide
    exact List.forall_mem_append.mpr ⟨isEntryChar_of_isName e.isName,
      List.forall_mem_append.mpr ⟨hword, isEntryChar_of_isName (e.isGiven w hw)⟩⟩

theorem isEntryChar_text : ∀ c ∈ e.text, isEntryChar c = true := by
  have hword : ∀ c ∈ wordIf e.typed "type", isEntryChar c = true := by
    rw [wordIf]
    split <;> decide
  exact List.forall_mem_append.mpr ⟨hword, e.isEntryChar_kept⟩

theorem trim_kept : Text.trim e.kept = e.kept := by
  rw [kept]
  split
  · exact trim_isName e.isName
  · rename_i w hw
    have htrim := trim_of_isName e.isName (e.isGiven w hw) " as ".toList
    rwa [List.append_assoc] at htrim

theorem kept_ne_nil : e.kept ≠ [] := by
  obtain ⟨c, u, hname, -⟩ := e.isName
  rw [kept]
  split <;> rw [hname] <;> exact List.cons_ne_nil _ _

theorem trim_text : Text.trim e.text = e.text := by
  rw [text, wordIf]
  split
  · exact Text.trim_append_eq_self (by decide) ['y', 'p', 'e', ' '] e.trim_kept e.kept_ne_nil
  · exact e.trim_kept

/-- The name of an entry is taken for the word that marks types only if it is that word, and is
renamed. -/
theorem after?_type_kept : Text.after? "type ".toList e.kept =
    if e.given.isSome && e.name = "type".toList then some ("as ".toList ++ e.given.getD [])
    else none := by
  have hchars : ∀ c ∈ e.name, Text.isNameChar c = true := fun c => Text.isNameChar_of_mem e.isName
  -- what the text would begin with is the word and a blank
  have hname : ∀ {r rest : List Char}, r.head?.any Text.isNameChar = false →
      Text.after? "type ".toList (e.name ++ r) = some rest → e.name = "type".toList := by
    intro r rest hr hafter
    have hfront := congrArg (List.takeWhile Text.isNameChar) (Text.after?_eq_some_iff.mp hafter)
    rwa [takeWhile_append_of_ends hchars hr] at hfront
  have hnone : ∀ {r : List Char}, r.head?.any Text.isNameChar = false →
      e.name ≠ "type".toList → Text.after? "type ".toList (e.name ++ r) = none :=
    fun hr hne => Option.eq_none_iff_forall_ne_some.mpr fun rest hrest => hne (hname hr hrest)
  rw [kept]
  cases e.given with
  | none =>
    rw [Option.isSome_none, Bool.false_and, if_neg Bool.false_ne_true]
    refine Option.eq_none_iff_forall_ne_some.mpr fun rest hrest => ?_
    have hsplit : e.name = "type ".toList ++ rest := Text.after?_eq_some_iff.mp hrest
    refine notMem_space e.isName ?_
    rw [hsplit]
    exact List.mem_append_left rest (by decide)
  | some w =>
    by_cases htype : e.name = "type".toList
    · simp only [htype]
      exact Text.after?_eq_some_iff.mpr rfl
    · rw [hnone rfl htype, decide_eq_false htype, Bool.and_false]
      rfl

variable {e} in
theorem exists_given (h : e.isMisread = true) : ∃ w ∈ e.given, e.outer = "as ".toList ++ w := by
  rw [outer, if_pos h]
  simp only [isMisread, Bool.and_eq_true] at h
  obtain ⟨w, hw⟩ := Option.isSome_iff_exists.mp h.1.2
  exact ⟨w, hw, by rw [hw]; rfl⟩

variable {e} in
/-- An entry that is not misread leaves under the name that it is given, or under its own. -/
theorem isName_outer (h : e.isMisread = false) :
    IsNameOf Text.isNameStart Text.isNameChar e.outer := by
  rw [outer, if_neg (by rw [h]; exact Bool.false_ne_true)]
  cases hw : e.given with
  | none => exact e.isName
  | some w => exact e.isGiven w hw

theorem trim_outer : Text.trim e.outer = e.outer := by
  cases h : e.isMisread with
  | true =>
    obtain ⟨w, hw, houter⟩ := exists_given h
    have has : IsNameOf Text.isNameStart Text.isNameChar "as".toList :=
      ⟨'a', ['s'], rfl, rfl, by decide⟩
    rw [houter]
    exact trim_of_isName has (e.isGiven w hw) [' ']
  | false => exact trim_isName (isName_outer h)

/-- What the reader looks at: the entry, and where it is misread what it is recorded under. -/
def read : List Char := if e.isMisread then e.outer else e.kept

theorem read_ne_nil : e.read ≠ [] := by
  rw [read]
  split
  · rename_i h
    obtain ⟨w, -, houter⟩ := exists_given h
    rw [houter]
    exact List.cons_ne_nil _ _
  · exact e.kept_ne_nil

/-- The word that marks types is taken away. -/
theorem trim_dropLead_text : Text.trim (Text.dropLead "type " e.text) = e.read := by
  rw [text, wordIf, Text.dropLead, read]
  cases htyped : e.typed with
  | true =>
    have hafter : Text.after? "type ".toList ("type".toList ++ [' '] ++ e.kept) = some e.kept :=
      Text.after?_eq_some_iff.mpr rfl
    have hread : e.isMisread = false := by rw [isMisread, htyped]; rfl
    rw [if_pos rfl, hafter, Option.getD_some, e.trim_kept, hread, if_neg Bool.false_ne_true]
  | false =>
    have hread : e.isMisread = (e.given.isSome && e.name = "type".toList) := by
      rw [isMisread, htyped]
      rfl
    rw [if_neg Bool.false_ne_true, List.nil_append, e.after?_type_kept, ← hread]
    split
    · rename_i hmisread
      have houter : e.outer = "as ".toList ++ e.given.getD [] := if_pos hmisread
      rw [Option.getD_some, ← houter, e.trim_outer]
    · exact e.trim_kept

/-- What stands behind the last `as` is the name under which the entry leaves. -/
theorem afterLast_as_read : Text.afterLast " as " e.read = e.outer := by
  rw [read]
  split
  · rename_i h
    obtain ⟨w, hw, houter⟩ := exists_given h
    rw [houter]
    exact Text.afterLast_as_of_short (notMem_space (e.isGiven w hw)) rfl
  · rename_i h
    rw [outer, if_neg h, kept]
    cases hw : e.given with
    | none => exact Text.afterLast_as_of_short (u := []) (notMem_space e.isName) rfl
    | some w => exact Text.afterLast_as_append (notMem_space (e.isGiven w hw)) e.name

/-- Each entry is recorded under its name. -/
theorem exportEntry?_text : exportEntry? e.text = some e.record := by
  rw [ exportEntry?, e.trim_text, e.trim_dropLead_text]
  simp only [List.isEmpty_iff, e.read_ne_nil, if_false, e.afterLast_as_read, trimmedText,
    e.trim_outer]
  rfl

end ExportEntry

/-! ## Statements -/

/-- What may follow a list: the module that the names come from, or nothing, and a semicolon or
none. -/
inductive ExportTail where
  | own (semicolon : Bool)
  | taken (source : Quoted) (closed : source.behind = [] ∨ source.behind = [';'])

def ExportTail.text : ExportTail → List Char
  | own semicolon => if semicolon then [';'] else []
  | taken source _ => " from ".toList ++ source.text

/-- A statement with a list, which has the text. -/
structure ExportStatement where
  entries : List ExportEntry
  list : List Char
  tail : ExportTail
  isList : IsListOf ',' (entries.map ExportEntry.text) list

namespace ExportStatement

variable (s : ExportStatement)

/-- What opens a list. -/
def opening : List Char := "export \x7b".toList

/-- What closes the list, with what follows it. -/
def closing : List Char := '\x7d' :: s.tail.text

/-- The statement on one line. -/
def text : List Char := opening ++ (s.list ++ s.closing)

/-- What is exported, on line one. -/
def records : List ExportRecord := s.entries.map ExportEntry.record

/-- The lines write the statement: it stands on one line, or its list is broken over several. -/
inductive IsWrittenOn : List Line → Prop where
  | whole {l : Line} : Text.trim l = s.text → IsWrittenOn [l]
  | broken {first last : Line} {mid : List Line} {x y : List Char} :
      s.list = [' '].intercalate (x :: mid.map Text.trim ++ [y]) →
      Text.trim first = opening ++ x → Text.trim last = y ++ s.closing →
      IsWrittenOn (first :: mid ++ [last])

/-! ## The recogniser of exports -/

theorem isEntryChar_list : ∀ c ∈ s.list, isEntryChar c = true ∨ c = ',' := by
  refine s.isList.forall_mem (.inr rfl) (fun c hc => .inl ?_) fun u hu c hc => .inl ?_
  · rw [isEntryChar, hc, Bool.true_or]
  · obtain ⟨e, -, rfl⟩ := List.mem_map.mp hu
    exact e.isEntryChar_text c hc

theorem isNeutral_list : ∀ c ∈ s.list, IsNeutral c := by
  intro c hc
  rcases s.isEntryChar_list c hc with hchar | rfl
  · exact isNeutral_of_class (by decide) hchar
  · decide

theorem filterMap_listEntries : (s.list.splitOn ',').filterMap exportEntry? = s.records := by
  obtain ⟨pieces, hne, hlist, hpieces⟩ := s.isList
  have hfree : ∀ piece ∈ pieces, ',' ∉ piece := by
    intro piece hpiece hcomma
    have hin : ',' ∈ Text.trim piece := (Text.mem_trim_of_mem hcomma).resolve_left (by decide)
    rcases trim_mem_of_listed hpieces hpiece with hmem | hnil
    · obtain ⟨e, -, heq⟩ := List.mem_map.mp hmem
      have hchar := e.isEntryChar_text ',' (heq ▸ hin)
      revert hchar
      decide
    · rw [hnil] at hin
      cases hin
  -- the reader sees a piece through its trimmed text only
  have htrim : ∀ piece, exportEntry? (Text.trim piece) = exportEntry? piece := by
    intro piece
    rw [ exportEntry?, Text.trim_trim, exportEntry?]
  have hread : pieces.filterMap exportEntry? = (pieces.map Text.trim).filterMap exportEntry? := by
    rw [List.filterMap_map]
    exact congrArg (fun f => pieces.filterMap f) (funext fun piece => (htrim piece).symm)
  have hentries : (s.entries.map ExportEntry.text).filterMap exportEntry? = s.records := by
    rw [List.filterMap_map, records, ← List.filterMap_eq_map]
    exact List.filterMap_congr fun e _ => e.exportEntry?_text
  rw [hlist, List.splitOn_intercalate ',' hfree hne, hread]
  rcases hpieces with heq | heq
  · rw [heq, hentries]
  · rw [heq, List.filterMap_append, hentries]
    exact List.append_nil _

/-- A pattern does not match what is seen from the first characters on that it cannot. -/
theorem match?_eq_none {p : Pattern} {t : List Char} (h : ∀ k, p.run k (.start t) = none) :
    p.match? t = none := by
  rw [match?_eq_run, h]

/-- A line that opens a list is read by the pattern of lists alone. -/
theorem exportsOf_opening_append (t : List Char) : exportsOf (opening ++ t) =
    match exportList.match? (opening ++ t) with
    | some m => ((m.part .clause).splitOn ',').filterMap exportEntry?
    | none => [] := by
  have hstarts : Text.starts "export" (opening ++ t) = true := rfl
  have hdeclaration : exportDeclaration.match? (opening ++ t) = none := match?_eq_none fun _ => rfl
  have hall : exportAll.match? (opening ++ t) = none := match?_eq_none fun _ => rfl
  have hdefault : exportDefault.match? (opening ++ t) = none := match?_eq_none fun _ => rfl
  simp only [exportsOf, hstarts, hdeclaration, hall, hdefault]
  rfl

theorem exists_match?_text :
    ∃ m, exportList.match? s.text = some m ∧ m.part .clause = s.list := by
  let m₁ := (Spot.start s.text).behind "export ".toList ('\x7b' :: (s.list ++ s.closing))
  let m₂ := m₁.behind "\x7b".toList (s.list ++ s.closing)
  have hword : Finds (word "export") (.start s.text) m₁ [] :=
    finds_word (isWord_space "export") rfl rfl
  have htype : Finds (opt (word "type")) m₁ m₁ [] := finds_opt_nothing fun _ => rfl
  have hopen : Finds (lit "\x7b") m₁ m₂ [] := finds_lit rfl
  have hchars : ∀ c ∈ s.list, noneOf "\x7d" c = true := by
    intro c hc
    have hne : c ≠ '\x7d' := (s.isNeutral_list c hc).2.2.2
    simp [noneOf, hne]
  have hinside : Finds (many (noneOf "\x7d")) m₂ (m₂.behind s.list s.closing) [] :=
    finds_many rfl hchars rfl
  have hrest : (m₂.behind s.list s.closing).rest = "\x7d".toList ++ s.tail.text := rfl
  have hclose : Finds (lit "\x7d") (m₂.behind s.list s.closing) _ [] := finds_lit hrest
  have hfront := (hword.append htype).append hopen
  refine ⟨_, ((hfront.append (hinside.keep .clause)).append hclose).match?, ?_⟩
  exact part_of_marks (b := []) List.prefix_rfl List.not_mem_nil
    (hfront.matches.exact rfl) rfl

/-- The statement on one line is read with all its entries. -/
theorem exportsOf_text : exportsOf s.text = s.records := by
  obtain ⟨m, hm, hclause⟩ := s.exists_match?_text
  have hread := exportsOf_opening_append (s.list ++ s.closing)
  rw [← text, hm] at hread
  simp only [hclause, s.filterMap_listEntries] at hread
  exact hread

/-- A line that does not close the list exports nothing. -/
theorem exportsOf_opening {x : List Char} (hx : '\x7d' ∉ x) : exportsOf (opening ++ x) = [] := by
  have hnone : exportList.match? (opening ++ x) = none := by
    refine Option.eq_none_iff_forall_ne_some.mpr fun r hr => ?_
    obtain ⟨m, ms, ms', hfront, hclose, -⟩ := matches_append_iff.mp (matches_of_match? hr)
    obtain ⟨v, hv, -⟩ := hfront.exists_behind
    have hmem : '\x7d' ∈ (Spot.start (opening ++ x)).rest := by
      rw [hv, hclose.rest_of_lit]
      exact List.mem_append_right v List.mem_cons_self
    rcases List.mem_append.mp hmem with hmem | hmem
    · revert hmem
      decide
    · exact hx hmem
  rw [exportsOf_opening_append, hnone]

/-! ## The other recognisers -/

/-- A line that opens an export list declares nothing. -/
theorem firstHit_opening {ls : List Line} {t : List Char} (h : firstTrimmed ls = opening ++ t) :
    firstHit outside ls = none := by
  obtain ⟨more, hjoin⟩ := prefix_joinOpen (firstTrimmed ls) 0 (ls.drop 1)
  have hsig : (joinSignature ls).text = opening ++ (t ++ more) := by
    rw [← List.append_assoc, ← h, hjoin]
    rfl
  have hfirst : ∀ p ∈ [requireCall, classHeader, interfaceHeader, aliasHeader, enumHeader,
      namespaceHeader, constantHeader], p.match? (firstTrimmed ls) = none := by
    rw [h]
    simp only [List.forall_mem_cons]
    exact ⟨match?_eq_none fun _ => rfl, match?_eq_none fun _ => rfl, match?_eq_none fun _ => rfl,
      match?_eq_none fun _ => rfl, match?_eq_none fun _ => rfl, match?_eq_none fun _ => rfl,
      match?_eq_none fun _ => rfl, List.forall_mem_nil _⟩
  -- a header that is joined from several lines begins with the first one
  have hjoined : ∀ p ∈ [functionHeader, arrowHeader], p.match? (joinSignature ls).text = none := by
    rw [hsig]
    simp only [List.forall_mem_cons]
    exact ⟨match?_eq_none fun _ => rfl, match?_eq_none fun _ => rfl, List.forall_mem_nil _⟩
  have himport : importStatement? ls = none := by
    simp only [importStatement?, hfirst requireCall (by simp)]
    rw [h]
    rfl
  simp only [List.forall_mem_cons] at hfirst hjoined
  simp [firstHit, outside, himport, classDeclaration?, interfaceDeclaration?, aliasDeclaration?,
    enumDeclaration?, namespaceDeclaration?, functionDeclaration?, arrowDeclaration?,
    constantDeclaration?, hfirst, hjoined]

end ExportStatement

end Brace

end CodeAtlas
