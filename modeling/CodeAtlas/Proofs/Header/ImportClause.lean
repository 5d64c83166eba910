/-
Imports as they are written.

A statement is given by the name of its default import, by what it imports besides, and by its
module; a list of names has any blanks around its entries, and a comma may follow the last one.
The recogniser joins the lines of a list that is broken until both quotes are there, which is
on its last line; what it has then is the statement on one line, and the parts of its clause are
pieces that the cutter finds again.
-/
import CodeAtlas.Proofs.Header.ImportMatch
import CodeAtlas.Proofs.Header.TypeHeader
import CodeAtlas.Proofs.Nesting.FirstCut

set_option autoImplicit false

namespace CodeAtlas.Brace

open Pattern

/-! ## Entries of a list -/

/-- An entry of a list: a name, the one that it is given, and whether it is a type. -/
structure ImportEntry where
  typed : Bool
  name : List Char
  given : Option (List Char)
  isName : IsNameOf Text.isNameStart Text.isNameChar name
  isGiven : ∀ w ∈ given, IsNameOf Text.isNameStart Text.isNameChar w
  noKeyword : name ≠ "type".toList

namespace ImportEntry

variable (e : ImportEntry)

/-- The entry as it is recorded. -/
def kept : List Char :=
  match e.given with
  | none => e.name
  | some w => e.name ++ ' ' :: ("as ".toList ++ w)

def text : List Char := wordIf e.typed "type" ++ e.kept

end ImportEntry

/-- The entries between commas, with any blanks around them; a comma may follow the last one. -/
structure IsEntryList (entries : List ImportEntry) (t : List Char) : Prop where
  isList : IsListOf ',' (entries.map ImportEntry.text) t
  onLine : '\n' ∉ t

/-- A character that may stand in an entry. -/
def isEntryChar (c : Char) : Bool := Text.isBlankChar c || Text.isNameChar c

/-! ## Statements -/

/-- What a statement imports besides the default export. -/
inductive ImportTarget where
  | nothing
  /-- the whole module, under a name -/
  | whole (name : List Char) (isName : IsNameOf Text.isNameStart Text.isNameChar name)
  /-- the entries of a list, which has the text -/
  | list (entries : List ImportEntry) (t : List Char) (isList : IsEntryList entries t)

namespace ImportTarget

def text? : ImportTarget → Option (List Char)
  | nothing => none
  | whole name _ => some ('*' :: (" as ".toList ++ name))
  | list _ t _ => some ('\x7b' :: (t ++ ['\x7d']))

def names : ImportTarget → List (List Char)
  | nothing => []
  | whole name _ => [name]
  | list entries _ _ => entries.map ImportEntry.kept

def isWhole : ImportTarget → Bool
  | whole _ _ => true
  | _ => false

end ImportTarget

/-- An import statement. -/
structure ImportStatement where
  default : Option (List Char)
  target : ImportTarget
  source : Quoted
  isDefault : ∀ w ∈ default, IsNameOf Text.isNameStart Text.isNameChar w
  closed : source.behind = [] ∨ source.behind = [';']

namespace ImportStatement

variable (s : ImportStatement)

/-- The parts of the clause. -/
def parts : List (List Char) := s.default.toList ++ s.target.text?.toList

/-- What stands between `import` and the module. -/
def front : List Char := if s.parts.isEmpty then [] else fromFront (listed s.parts)

/-- The statement on one line. -/
def text : List Char := importText s.front s.source

/-- What is recorded of it. -/
def record : ImportRecord :=
  importRecord s.source.module
    { names := (s.default.toList ++ s.target.names).map textOf, isDefault := s.default.isSome,
      isNamespace := s.target.isWhole }

/-- What opens the list. -/
def opening : List Char :=
  "import ".toList ++ (listed (s.default.toList ++ [['\x7b']]))

/-- What closes the list, with the module. -/
def closing : List Char := '\x7d' :: (" from ".toList ++ s.source.text)

/-- The lines write the statement: it stands on one line, or its list is broken over several. -/
inductive IsWrittenOn : List Line → Prop where
  | whole {l : Line} : Text.trim l = s.text → IsWrittenOn [l]
  | broken {first last : Line} {mid : List Line} {entries : List ImportEntry} {x y t : List Char}
      {isList : IsEntryList entries t} : s.target = .list entries t isList →
      t = [' '].intercalate (x :: mid.map Text.trim ++ [y]) →
      Text.trim first = s.opening ++ x → Text.trim last = y ++ s.closing →
      mid.length + 1 ≤ maxLookahead → IsWrittenOn (first :: mid ++ [last])

end ImportStatement

/-! ## What the entries bind -/

theorem isPlain_of_isEntryChar {c : Char} (hc : isEntryChar c = true) : IsPlain c :=
  (Bool.or_eq_true_iff.mp hc).elim isPlain_of_isBlankChar isPlain_of_isNameChar

theorem isEntryChar_of_isName {w : List Char} (hw : IsNameOf Text.isNameStart Text.isNameChar w) :
    ∀ c ∈ w, isEntryChar c = true := by
  intro c hc
  rw [isEntryChar, Text.isNameChar_of_mem hw hc, Bool.or_true]

theorem ne_nil_of_isName {w : List Char} (hw : IsNameOf Text.isNameStart Text.isNameChar w) :
    w ≠ [] := by
  obtain ⟨c, v, rfl, -⟩ := hw
  exact List.cons_ne_nil c v

/-- A text between names is trimmed. -/
theorem trim_of_isName {u w : List Char} (hu : IsNameOf Text.isNameStart Text.isNameChar u)
    (hw : IsNameOf Text.isNameStart Text.isNameChar w) (v : List Char) :
    Text.trim (u ++ v ++ w) = u ++ v ++ w := by
  have hblack : ∀ c ∈ w, Text.isBlankChar c = false := fun c hc =>
    Text.isBlankChar_of_isNameChar (Text.isNameChar_of_mem hw hc)
  have htrim := Text.trim_eq_self_of_forall hblack
  have hne := ne_nil_of_isName hw
  obtain ⟨c, u, rfl, hc, -⟩ := hu
  exact Text.trim_append_eq_self
    (Text.isBlankChar_of_isNameChar (Text.isNameChar_of_isNameStart hc)) (u ++ v) htrim hne

theorem trim_isName {w : List Char} (hw : IsNameOf Text.isNameStart Text.isNameChar w) :
    Text.trim w = w :=
  Text.trim_eq_self_of_forall fun _ hc =>
    Text.isBlankChar_of_isNameChar (Text.isNameChar_of_mem hw hc)

namespace ImportEntry

variable (e : ImportEntry)

theorem isEntryChar_kept : ∀ c ∈ e.kept, isEntryChar c = true := by
  rw [kept]
  split
  · exact isEntryChar_of_isName e.isName
  · rename_i w hw
    intro c hc
    simp only [List.mem_append, List.mem_cons] at hc
    rcases hc with hc | rfl | hc | hc
    · exact isEntryChar_of_isName e.isName c hc
    · rfl
    · exact List.all_eq_true.mp (show "as ".toList.all isEntryChar = true by decide) c hc
    · exact isEntryChar_of_isName (e.isGiven w hw) c hc

theorem isEntryChar_text : ∀ c ∈ e.text, isEntryChar c = true := by
  intro c hc
  rw [text, List.mem_append, wordIf] at hc
  rcases hc with hc | hc
  · split at hc
    · have hword : ∀ c ∈ "type".toList ++ [' '], isEntryChar c = true := by decide
      exact hword c hc
    · cases hc
  · exact e.isEntryChar_kept c hc

theorem trim_kept : Text.trim e.kept = e.kept := by
  rw [kept]
  split
  · exact trim_isName e.isName
  · rename_i w hw
    have htrim := trim_of_isName e.isName (e.isGiven w hw) (' ' :: "as ".toList)
    rwa [List.append_assoc, List.cons_append] at htrim

theorem kept_ne_nil : e.kept ≠ [] := by
  obtain ⟨c, u, hname, -⟩ := e.isName
  rw [kept]
  split <;> rw [hname] <;> exact List.cons_ne_nil _ _

/-- The name of an entry is not taken for the keyword in front of it. -/
theorem after?_type_kept : Text.after? "type ".toList e.kept = none := by
  refine Option.eq_none_iff_forall_ne_some.mpr fun rest hrest => e.noKeyword ?_
  have hsame := Text.after?_eq_some_iff.mp hrest
  have hname : e.kept.takeWhile Text.isNameChar = e.name := by
    have hchars : ∀ c ∈ e.name, Text.isNameChar c = true := fun c => Text.isNameChar_of_mem e.isName
    rw [kept]
    split
    · have hall : (e.name ++ []).takeWhile Text.isNameChar = e.name :=
        takeWhile_append_of_ends hchars rfl
      rwa [List.append_nil] at hall
    · exact takeWhile_append_of_ends hchars rfl
  rw [← hname, hsame]
  rfl

/-- What is left of an entry is its name, with the one that it is given. -/
theorem trim_dropLead_text : Text.trim (Text.dropLead "type " e.text) = e.kept := by
  rw [text, wordIf]
  split
  · have hafter : Text.after? "type ".toList ("type".toList ++ [' '] ++ e.kept) = some e.kept :=
      Text.after?_eq_some_iff.mpr rfl
    rw [Text.dropLead, hafter]
    exact e.trim_kept
  · rw [Text.dropLead, List.nil_append, e.after?_type_kept]
    exact e.trim_kept

end ImportEntry

namespace IsEntryList

variable {entries : List ImportEntry} {t : List Char}

theorem isEntryChar_entries (h : IsEntryList entries t) :
    ∀ c ∈ t, isEntryChar c = true ∨ c = ',' := by
  refine h.isList.forall_mem (.inr rfl) (fun c hc => .inl ?_) fun u hu c hc => .inl ?_
  · rw [isEntryChar, hc, Bool.true_or]
  · obtain ⟨e, -, rfl⟩ := List.mem_map.mp hu
    exact e.isEntryChar_text c hc

theorem exists_pieces (h : IsEntryList entries t) : ∃ pieces : List (List Char),
    pieces ≠ [] ∧ t = [','].intercalate pieces ∧ (∀ piece ∈ pieces, ',' ∉ piece) ∧
    ((pieces.map Text.trim).map fun n => Text.trim (Text.dropLead "type " n)).filter
      (!·.isEmpty) = entries.map ImportEntry.kept := by
  obtain ⟨pieces, hne, ht, hpieces⟩ := h.isList
  have hkept : (entries.map ImportEntry.text).map (fun n => Text.trim (Text.dropLead "type " n)) =
      entries.map ImportEntry.kept := by
    rw [List.map_map]
    exact List.map_congr_left fun e _ => e.trim_dropLead_text
  have hall : (entries.map ImportEntry.kept).filter (!·.isEmpty) =
      entries.map ImportEntry.kept := by
    refine List.filter_eq_self.mpr fun u hu => ?_
    obtain ⟨e, -, rfl⟩ := List.mem_map.mp hu
    simp [e.kept_ne_nil]
  refine ⟨pieces, hne, ht, ?_, ?_⟩
  · intro piece hpiece hcomma
    have hin : ',' ∈ Text.trim piece :=
      (Text.mem_trim_of_mem hcomma).resolve_left (by decide)
    rcases trim_mem_of_listed hpieces hpiece with hmem | hnil
    · obtain ⟨e, -, heq⟩ := List.mem_map.mp hmem
      have hchar := e.isEntryChar_text ',' (heq ▸ hin)
      revert hchar
      decide
    · rw [hnil] at hin
      cases hin
  -- a comma behind the last entry leaves an empty piece, which is dropped
  · rcases hpieces with heq | heq
    · rw [heq, hkept, hall]
    · rw [heq, List.map_append, hkept, List.filter_append, hall]
      exact List.append_nil _

theorem isPlain (h : IsEntryList entries t) : ∀ c ∈ t, IsPlain c := by
  intro c hc
  rcases h.isEntryChar_entries c hc with hchar | rfl
  · exact isPlain_of_isEntryChar hchar
  · decide

theorem notMem (h : IsEntryList entries t) {c : Char} (hc : ¬ IsPlain c) : c ∉ t :=
  fun hmem => hc (h.isPlain c hmem)

/-- The reader finds the entries of a list. -/
theorem braceEntries_eq (h : IsEntryList entries t) :
    ((braceEntries ('\x7b' :: (t ++ ['\x7d']))).map fun n =>
      Text.trim (Text.dropLead "type " n)).filter (!·.isEmpty) = entries.map ImportEntry.kept := by
  have hopen : (t ++ ['\x7d']).dropWhile (· = '\x7b') = t ++ ['\x7d'] := by
    cases t with
    | nil => rfl
    | cons c t =>
      refine List.dropWhile_cons_of_neg ?_
      rw [decide_eq_true_eq]
      rintro rfl
      exact h.notMem (by decide) List.mem_cons_self
  have hinner : Text.dropEndWhile (· = '\x7d')
      (('\x7b' :: (t ++ ['\x7d'])).dropWhile (· = '\x7b')) = t := by
    rw [List.dropWhile_cons_of_pos (by decide), hopen,
      Text.dropEndWhile_concat (h.notMem (by decide))]
  obtain ⟨pieces, hne, rfl, hfree, hnames⟩ := h.exists_pieces
  rw [braceEntries, hinner, List.splitOn_intercalate ',' hfree hne]
  exact hnames

end IsEntryList

/-! ## The parts of a clause -/

theorem addPart_of_isName {w : List Char} (hw : IsNameOf Text.isNameStart Text.isNameChar w)
    (b : Binding) : b.addPart w = { b with isDefault := true, names := b.names ++ [textOf w] } := by
  obtain ⟨c, v, rfl, hc, -⟩ := hw
  unfold Binding.addPart
  split
  · rename_i heq
    rw [(List.cons.inj heq).1] at hc
    cases hc
  · rename_i heq
    rw [(List.cons.inj heq).1] at hc
    cases hc
  · rfl

/-- No word with blanks is in front of a name that a comma or nothing follows. -/
theorem not_isWord_prefix_name {w r y : List Char}
    (hw : IsNameOf Text.isNameStart Text.isNameChar w) (hr : r = [] ∨ r.head? = some ',')
    (hy : IsWord "type" y) : ¬ y <+: w ++ r := by
  rintro ⟨z, hz⟩
  have hends : r.head?.any Text.isNameChar = false := by
    rcases hr with hr | hr <;> rw [hr] <;> rfl
  -- what follows the name would be the blank
  obtain ⟨-, g, hne, hg, rfl⟩ := exists_gap_of_isWord (by decide) hw hends hy hz.symm
  obtain ⟨b, g, rfl⟩ := List.exists_cons_of_ne_nil hne
  rcases hr with hr | hr
  · cases hr
  · have hb := hg b List.mem_cons_self
    rw [Option.some.inj hr] at hb
    cases hb

/-- What the part of a target adds to a binding. -/
theorem foldl_addPart_target (target : ImportTarget) (b : Binding) :
    target.text?.toList.foldl Binding.addPart b =
      { b with names := b.names ++ target.names.map textOf,
               isNamespace := b.isNamespace || target.isWhole } := by
  cases target with
  | nothing => simp [ImportTarget.text?, ImportTarget.names, ImportTarget.isWhole]
  | whole name isName =>
    have hname := trim_isName isName
    have hspace : Text.trim (' ' :: name) = name := by
      rw [← List.singleton_append, Text.trim_append_of_isBlank rfl, hname]
    have hne := ne_nil_of_isName isName
    have hrenamed : Text.trim (" as ".toList ++ name) = "as".toList ++ ' ' :: name := by
      have has : " as ".toList ++ name = [' '] ++ ('a' :: ['s', ' '] ++ name) := rfl
      rw [has, Text.trim_append_of_isBlank rfl, Text.trim_append_eq_self (by decide) _ hname hne]
      rfl
    have hdrop : Text.dropLead "as" ("as".toList ++ ' ' :: name) = ' ' :: name := by
      rw [Text.dropLead, Text.after?_eq_some_iff.mpr rfl, Option.getD_some]
    show b.addPart ('*' :: (" as ".toList ++ name)) = _
    rw [Binding.addPart]
    simp only [hrenamed, hdrop, hspace]
    simp [nonempty?, hne, ImportTarget.names, ImportTarget.isWhole]
  | list entries t isList =>
    show b.addPart ('\x7b' :: (t ++ ['\x7d'])) = _
    rw [Binding.addPart]
    simp only [isList.braceEntries_eq, ImportTarget.names, ImportTarget.isWhole, Bool.or_false]

/-- What may stand between two commas of a clause. -/
structure IsPart (p : List Char) : Prop extends IsPiece p where
  onLine : '\n' ∉ p

theorem isPart_of_plain {p : List Char} (hne : p ≠ []) (htrim : Text.trim p = p)
    (h : ∀ c ∈ p, IsPlain c ∧ c ≠ ',' ∧ c ≠ '\n') : IsPart p where
  ne_nil := hne
  trimmed := htrim
  noQuote c hc := (h c hc).1.1
  closes := by
    have hclose := closesFrom_of_plain (fun c hc => ⟨(h c hc).1, (h c hc).2.1⟩)
      (show closesFrom ' ' 0 [] = true from rfl) ' '
    rwa [List.append_nil] at hclose
  onLine hc := (h '\n' hc).2.2 rfl

theorem plain_of_isName {w : List Char} (hw : IsNameOf Text.isNameStart Text.isNameChar w) :
    ∀ c ∈ w, IsPlain c ∧ c ≠ ',' ∧ c ≠ '\n' := by
  have hne : ∀ d, Text.isNameChar d = false → ∀ c ∈ w, c ≠ d := by
    rintro d hd c hc rfl
    exact Text.not_mem_of_isName hw hd hc
  exact fun c hc => ⟨isPlain_of_isNameChar (Text.isNameChar_of_mem hw hc), hne ',' (by decide) c hc,
    hne '\n' (by decide) c hc⟩

theorem isPart_list {entries : List ImportEntry} {t : List Char} (h : IsEntryList entries t) :
    IsPart ('\x7b' :: (t ++ ['\x7d'])) where
  ne_nil := List.cons_ne_nil _ _
  trimmed := Text.trim_append_eq_self (by decide) t rfl (List.cons_ne_nil _ _)
  noQuote := by
    have hclose : ∀ c ∈ ['\x7d'], Quoting.isQuote c = false := by decide
    exact List.forall_mem_cons.mpr ⟨rfl, List.forall_mem_append.mpr
      ⟨fun c hc => (h.isPlain c hc).1, hclose⟩⟩
  closes := by
    obtain ⟨last, hlast⟩ := exists_closesFrom_append
      (fun c hc => ⟨h.isPlain c hc, fun _ => Int.one_pos⟩) (show (0 : Int) ≤ 1 by decide) '\x7b' ['\x7d']
    have hopen : closesFrom ' ' 0 ('\x7b' :: (t ++ ['\x7d'])) =
        closesFrom '\x7b' 1 (t ++ ['\x7d']) := rfl
    rw [hopen, hlast]
    rfl
  onLine := by
    simp [h.onLine]

/-- The parts of a clause may stand between commas. -/
theorem isPart_target {target : ImportTarget} {p : List Char} (hp : p ∈ target.text?) :
    IsPart p := by
  cases target with
  | nothing => cases hp
  | whole name isName =>
    obtain rfl := Option.mem_some_iff.mp hp
    have hword : ∀ c ∈ '*' :: " as ".toList, IsPlain c ∧ c ≠ ',' ∧ c ≠ '\n' := by decide
    refine isPart_of_plain (List.cons_ne_nil _ _) ?_
      (List.forall_mem_append.mpr ⟨hword, plain_of_isName isName⟩)
    exact Text.trim_append_eq_self (by decide) _ (trim_isName isName) (ne_nil_of_isName isName)
  | list entries t isList =>
    obtain rfl := Option.mem_some_iff.mp hp
    exact isPart_list isList

namespace ImportStatement

variable (s : ImportStatement)

theorem isPart {p : List Char} (hp : p ∈ s.parts) : IsPart p := by
  rcases List.mem_append.mp hp with hp | hp
  · have hname := s.isDefault p (Option.mem_toList.mp hp)
    exact isPart_of_plain (ne_nil_of_isName hname) (trim_isName hname) (plain_of_isName hname)
  · exact isPart_target (Option.mem_toList.mp hp)

/-- The clause binds what the statement imports. -/
theorem clauseBinding_parts : clauseBinding (listed s.parts) =
    { names := (s.default.toList ++ s.target.names).map textOf, isDefault := s.default.isSome,
      isNamespace := s.target.isWhole } := by
  have hsplit := splitOuter_listed (g := []) (fun p hp => (s.isPart hp).toIsPiece) rfl
  rw [List.append_nil] at hsplit
  have hdefault : s.default.toList.foldl Binding.addPart {} =
      { names := s.default.toList.map textOf, isDefault := s.default.isSome } := by
    cases hd : s.default with
    | none => rfl
    | some w => exact addPart_of_isName (s.isDefault w hd) {}
  rw [clauseBinding, hsplit, parts, List.foldl_append, hdefault, foldl_addPart_target]
  simp

/-- A clause does not begin with the keyword of types: a name `type` has a comma behind it. -/
theorem not_typed {y : List Char} (hy : IsWord "type" y) : ¬ y <+: listed s.parts := by
  cases hd : s.default with
  | none =>
    rintro ⟨z, hz⟩
    obtain ⟨g, -, -, rfl⟩ := hy
    have hparts : s.parts = s.target.text?.toList := by
      rw [parts, hd]
      rfl
    rw [hparts] at hz
    cases htarget : s.target <;> rw [htarget] at hz <;> cases hz
  | some w =>
    obtain ⟨r, hr, hends⟩ := exists_listed_cons w s.target.text?.toList
    have hparts : listed s.parts = w ++ r := by
      rw [← hr, parts, hd]
      rfl
    rw [hparts]
    exact not_isWord_prefix_name (s.isDefault w hd) hends hy

theorem isClause (hne : s.parts ≠ []) : IsClause (listed s.parts) where
  ne_nil := by
    obtain ⟨p, ps, hparts⟩ := List.exists_cons_of_ne_nil hne
    obtain ⟨r, hr, -⟩ := exists_listed_cons p ps
    rw [hparts, hr]
    exact List.append_ne_nil_of_left_ne_nil
      (s.isPart (hparts ▸ List.mem_cons_self)).ne_nil r
  trimmed := trim_listed fun p hp => (s.isPart hp).toIsPiece
  onLine := by
    intro c hc
    refine decide_eq_true ?_
    rintro rfl
    obtain ⟨p, hp, hmem⟩ := mem_of_mem_listed (by decide) (by decide) hc
    exact (s.isPart hp).onLine hmem
  -- no part has a quote, and neither has what stands between the parts
  noQuote := by
    intro c hc
    refine Bool.eq_false_iff.mpr fun hquote => ?_
    have hne : c ≠ ',' ∧ c ≠ ' ' := by
      constructor <;> rintro rfl <;> cases hquote
    obtain ⟨p, hp, hmem⟩ := mem_of_mem_listed hne.1 hne.2 hc
    have hfree := (s.isPart hp).noQuote c hmem
    rw [isQuote_of_isModuleQuote hquote] at hfree
    cases hfree
  notTyped _ := s.not_typed

/-! ## The recogniser -/

theorem isWholeImport_text : isWholeImport s.text = true := by
  by_cases hnil : s.parts = []
  · obtain ⟨r, hr, -⟩ := match?_importBare s.source
    rw [text, front, hnil, List.isEmpty_nil, if_pos rfl, isWholeImport, fits, fits, hr,
      Option.isSome_some, Bool.or_true]
  · rw [text, front, if_neg (mt List.isEmpty_iff.mp hnil)]
    exact isWholeImport_fromFront (s.isClause hnil) s.source

/-- The statement on one line is read with its clause and its module. -/
theorem importRecord_text :
    (∃ m, importFrom.match? s.text = some m ∧
      importRecord (m.part .module) (clauseBinding (m.part .clause)) = s.record) ∨
    importFrom.match? s.text = none ∧ ∃ m, importBare.match? s.text = some m ∧
      importRecord (m.part .module) {} = s.record := by
  by_cases hnil : s.parts = []
  · obtain ⟨m, hm, hmodule⟩ := match?_importBare s.source
    obtain ⟨hdefault, htarget⟩ := List.append_eq_nil_iff.mp hnil
    have hdefault : s.default = none := Option.toList_eq_nil_iff.mp hdefault
    have htarget : s.target = .nothing := by
      cases hcase : s.target <;> rw [hcase] at htarget <;> first | rfl | cases htarget
    right
    rw [text, front, hnil, List.isEmpty_nil, if_pos rfl]
    refine ⟨match?_importFrom_bare s.source, m, hm, ?_⟩
    rw [hmodule, record, hdefault, htarget]
    rfl
  · obtain ⟨m, hm, hclause, hmodule⟩ := match?_importFrom (s.isClause hnil) s.source
    left
    rw [text, front, if_neg (mt List.isEmpty_iff.mp hnil)]
    exact ⟨m, hm, by rw [hclause, hmodule, clauseBinding_parts, record]⟩

section

variable {entries : List ImportEntry} {t : List Char} {isList : IsEntryList entries t}

theorem opening_append (h : s.target = .list entries t isList) :
    s.opening ++ (t ++ ['\x7d']) = "import ".toList ++ listed s.parts := by
  have hparts : s.parts = s.default.toList ++ [['\x7b'] ++ (t ++ ['\x7d'])] := by
    rw [parts, h]
    rfl
  unfold opening
  rw [hparts, listed_concat_append, List.append_assoc]

/-- A list stands between what opens it and what closes it. -/
theorem text_eq_of_list (h : s.target = .list entries t isList) :
    s.text = s.opening ++ t ++ s.closing := by
  have hne : s.parts ≠ [] := by
    rw [parts, h]
    exact List.append_ne_nil_of_right_ne_nil _ (List.cons_ne_nil _ _)
  have hopen := s.opening_append h
  have hclose : s.opening ++ t ++ s.closing =
      s.opening ++ (t ++ ['\x7d']) ++ (" from ".toList ++ s.source.text) := by
    simp [closing]
  rw [hclose, hopen, text, front, if_neg (mt List.isEmpty_iff.mp hne)]
  unfold importText fromFront
  simp only [List.append_assoc]

theorem noQuote_opening (h : s.target = .list entries t isList) :
    ∀ c ∈ s.opening ++ t, isModuleQuote c = false := by
  have hne : s.parts ≠ [] := by
    rw [parts, h]
    exact List.append_ne_nil_of_right_ne_nil _ (List.cons_ne_nil _ _)
  have hword : ∀ c ∈ "import ".toList, isModuleQuote c = false := by decide
  intro c hc
  have hmem : c ∈ "import ".toList ++ listed s.parts := by
    rw [← s.opening_append h, ← List.append_assoc]
    exact List.mem_append_left _ hc
  exact (List.mem_append.mp hmem).elim (hword c) ((s.isClause hne).noQuote c)

end

variable {s} in
/-- The lines of a statement are joined to the statement on one line. -/
theorem IsWrittenOn.join {ls : List Line} (h : s.IsWrittenOn ls) (after : List Line) :
    joinImport (firstTrimmed (ls ++ after)) 0 ((ls ++ after).drop 1) = s.text ∧
      ∃ t, firstTrimmed (ls ++ after) = "import ".toList ++ t := by
  cases h with
  | @whole l hl =>
    have hfirst : firstTrimmed ([l] ++ after) = s.text := hl
    rw [hfirst]
    exact ⟨joinImport_of_isWhole s.isWholeImport_text _ _, _, rfl⟩
  | @broken first last mid entries x y t isList htarget ht hfirst hlast hfits =>
    have hopen : firstTrimmed (first :: mid ++ [last] ++ after) = s.opening ++ x := hfirst
    have htext := s.text_eq_of_list htarget
    have hjoined : s.opening ++ x ++ (mid.map Text.trim ++ [y]).flatMap (' ' :: ·) =
        s.opening ++ t := by
      rw [ht, List.cons_append, intercalate_space, List.append_assoc]
    have hjoin := joinImport_lines (n := 0) hjoined (s.noQuote_opening htarget)
      (by rw [← htext]; exact s.isWholeImport_text) hlast (by omega) after
    rw [hopen]
    refine ⟨?_, _, List.append_assoc _ _ _⟩
    rw [htext, ← hjoin]
    simp

/-- A statement is recognised as the one import that it is, on whatever lines it stands. -/
theorem importStatement?_of_isWrittenOn {ls : List Line} (h : s.IsWrittenOn ls)
    (after : List Line) : importStatement? (ls ++ after) = some (.imports [s.record]) := by
  obtain ⟨hjoin, t, hfirst⟩ := h.join after
  have hstarts : Text.starts "import " (firstTrimmed (ls ++ after)) = true := by
    rw [hfirst]
    exact List.isPrefixOf_iff_prefix.mpr (List.prefix_append _ t)
  have hrequire : requireCall.match? (firstTrimmed (ls ++ after)) = none := by
    rw [hfirst]
    exact match?_requireCall t
  simp only [importStatement?, hrequire, hjoin, hstarts]
  rcases s.importRecord_text with ⟨m, hm, hrecord⟩ | ⟨hnone, m, hm, hrecord⟩
  · simp only [hm, hrecord]
    rfl
  · simp only [hnone, hm, Option.bind_eq_bind, Option.bind_some, hrecord]
    rfl

end ImportStatement

end CodeAtlas.Brace
