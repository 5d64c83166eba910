/-
Only the order of indentations matters, and the kind of line breaks does not.

A file whose lines get other blanks in front, wider ones where there were wider ones, has
the same outline; only its size in bytes may differ. The constructs are those of the scan,
which is carried over line by line. The labels of a file are made from words, none of
which begins with a blank or spans lines, and from the variables of the environment, of
which the patterns take blanks only in whole runs.

A file whose line feeds get a carriage return in front has the same outline too; only its size
grows, by one byte for each break. The constructs are those of the lines, which are the same
lines. The labels of a file are made from its text as a whole, where the carriage returns
stand: no word that they look for has one.
-/
import CodeAtlas.Proofs.Pattern.Steady
import CodeAtlas.Proofs.Pattern.Word
import CodeAtlas.Proofs.Scan.Transport
import CodeAtlas.Proofs.Text.Respace

set_option autoImplicit false

namespace CodeAtlas

/-! ## Variables of the environment -/

namespace Label

open Pattern Text

theorem isBlankChar_eq_false {c : Char} (h : c.isAlphanum = true ∨ c = '_') :
    isBlankChar c = false := by
  have hword : isWordChar c = true := by
    rcases h with h | rfl
    · exact isWordChar_of_isAlphanum h
    · decide
  by_contra hblank
  rw [Bool.not_eq_false] at hblank
  rw [isWordChar_of_isBlankChar hblank] at hword
  exact Bool.false_ne_true hword

/-- The characters of the names of variables. -/
theorem isBlankChar_of_nameChar {c : Char} :
    ((c.isUpper || c = '_') = true → isBlankChar c = false) ∧
      ((c.isUpper || c.isDigit || c = '_') = true → isBlankChar c = false) ∧
      ((c.isAlpha || c = '_') = true → isBlankChar c = false) ∧
      ((c.isAlphanum || c = '_') = true → isBlankChar c = false) := by
  have halpha : c.isAlpha = true → c.isAlphanum = true :=
    fun h => Bool.or_eq_true_iff.mpr (.inl h)
  have hupper : c.isUpper = true → c.isAlphanum = true :=
    fun h => halpha (Bool.or_eq_true_iff.mpr (.inl h))
  have hdigit : c.isDigit = true → c.isAlphanum = true :=
    fun h => Bool.or_eq_true_iff.mpr (.inr h)
  simp only [Bool.or_eq_true, decide_eq_true_eq]
  refine ⟨fun h => ?_, fun h => ?_, fun h => ?_, fun h => ?_⟩
  · exact isBlankChar_eq_false (h.imp_left hupper)
  · exact isBlankChar_eq_false (h.imp_left fun h => h.elim hupper hdigit)
  · exact isBlankChar_eq_false (h.imp_left halpha)
  · exact isBlankChar_eq_false h

theorem isBlankChar_of_oneOf {a b c : Char} (ha : isBlankChar a = false)
    (hb : isBlankChar b = false) (h : decide (c = a) || decide (c = b)) :
    isBlankChar c = false := by
  simp only [Bool.or_eq_true, decide_eq_true_eq] at h
  rcases h with rfl | rfl
  · exact ha
  · exact hb

theorem steadyPart_processVariable : SteadyPart processVariable .name where
  steady := .seq (.exactly (by decide)) (.seq .mark
    (.seq (.one fun _ => isBlankChar_of_nameChar.1)
      (.seq (.many fun _ => isBlankChar_of_nameChar.2.1) .mark)))
  solid := (solid_exactly (by decide)).seq _
  takes := fun _ _ _ h => rest_lt_of_exactly (by decide) h
  kept := by
    intro m r hm h
    obtain ⟨a, w, -, hk⟩ := exists_kept_last (by decide) (by decide) hm h
      (List.append_nil r.marks).symm
    exact ⟨_, a, _, w, hk,
      ⟨fun _ => isBlankChar_of_nameChar.1, fun _ => isBlankChar_of_nameChar.2.1⟩⟩

theorem steadyPart_osVariable : SteadyPart osVariable .name := by
  have hquote : ∀ c : Char, (decide (c = '\'') || decide (c = '"')) = true →
      isBlankChar c = false := fun _ h => isBlankChar_of_oneOf (by decide) (by decide) h
  have hbracket : ∀ c : Char, (decide (c = '[') || decide (c = '(')) = true →
      isBlankChar c = false := fun _ h => isBlankChar_of_oneOf (by decide) (by decide) h
  constructor
  · refine .seq (.exactly (by decide)) (.seq (.either ?_ ?_) (.blanks ?_ ?_))
    · exact .seq (.exactly (by decide))
        (.seq (.either (.exactly (by decide)) (.exactly (by decide)))
          (.blanks (solid_one hbracket) (.one hbracket)))
    · exact .seq (.exactly (by decide)) (.blanks (solid_exactly (by decide)) (.exactly (by decide)))
    · exact (solid_one hquote).seq _
    · exact .seq (.one hquote) (.seq .mark (.seq (.one fun _ => isBlankChar_of_nameChar.2.2.1)
        (.seq (.many fun _ => isBlankChar_of_nameChar.2.2.2) (.seq .mark (.one hquote)))))
  · exact (solid_exactly (by decide)).seq _
  · exact fun _ _ _ h => rest_lt_of_exactly (by decide) h
  · intro m r hm h
    obtain ⟨a, b, w, -, hk⟩ := exists_kept_between (by decide) (by decide) hm h
    exact ⟨_, a, b, w, hk,
      ⟨fun _ => isBlankChar_of_nameChar.2.2.1, fun _ => isBlankChar_of_nameChar.2.2.2⟩⟩

/-! ## Labels -/

/-- The words that the labels of a file look for in its content. -/
def contentWords : List String :=
  ["export default", "function", "interface", "export", "class", "describe(", "it(",
    "process.env", "config"] ++ Vocabulary.businessDomains.flatMap (·.1) ++
    Vocabulary.configWords ++ Vocabulary.secretWords ++ Vocabulary.validationWords

theorem isCompact_of_mem_contentWords : ∀ w ∈ contentWords, isCompact w = true := by
  decide +kernel

theorem mem_contentWords_of_domains :
    ∀ row ∈ Vocabulary.businessDomains, ∀ w ∈ row.1, w ∈ contentWords := by
  decide +kernel

theorem mem_contentWords_of_configuration {vocabulary : List String}
    (h : vocabulary ∈ [Vocabulary.configWords, Vocabulary.secretWords,
      Vocabulary.validationWords]) : ∀ w ∈ vocabulary, w ∈ contentWords := by
  revert vocabulary
  decide +kernel

section

variable {s t : List Char}
  (h : ∀ w ∈ contentWords, Text.has w (lower s) = Text.has w (lower t))
include h

theorem purpose_eq_of_words (path : List Char) : purpose path s = purpose path t := by
  have hword : ∀ w, contentWords.contains w = true →
      Text.has w (lower s) = Text.has w (lower t) :=
    fun w hw => h w (List.contains_iff_mem.mp hw)
  have hcontent : purposeByContent (lower s) = purposeByContent (lower t) := by
    simp only [purposeByContent, hword "export default" (by decide),
      hword "function" (by decide), hword "interface" (by decide), hword "export" (by decide),
      hword "class" (by decide), hword "describe(" (by decide), hword "it(" (by decide),
      hword "process.env" (by decide), hword "config" (by decide)]
  rw [purpose, purpose, hcontent]

theorem domain_eq_of_words : domain s = domain t := by
  have hfind := Text.find?_hasAny_eq h mem_contentWords_of_domains
  simp only [domain, hfind]

theorem configuration_eq_of_words (hsame : SameWords (trimStart s) (trimStart t)) :
    configuration s = configuration t := by
  have henvironment : environment s = environment t := by
    rw [environment, environment, steadyPart_processVariable.parts_eq hsame,
      steadyPart_osVariable.parts_eq hsame]
  have hwords : ∀ vocabulary : List String, (∀ w ∈ vocabulary, w ∈ contentWords) →
      Text.hasAny vocabulary (lower s) = Text.hasAny vocabulary (lower t) :=
    fun _ hvocabulary => Text.hasAny_eq h hvocabulary
  rw [configuration, configuration, henvironment,
    hwords Vocabulary.configWords (mem_contentWords_of_configuration (by simp)),
    hwords Vocabulary.secretWords (mem_contentWords_of_configuration (by simp)),
    hwords Vocabulary.validationWords (mem_contentWords_of_configuration (by simp))]

end

section

variable {s t : List Char}
  (h : ∀ w, isCompact w = true → Text.has w (lower s) = Text.has w (lower t))
include h

theorem purpose_eq (path : List Char) : purpose path s = purpose path t :=
  purpose_eq_of_words (fun w hw => h w (isCompact_of_mem_contentWords w hw)) path

theorem domain_eq : domain s = domain t :=
  domain_eq_of_words fun w hw => h w (isCompact_of_mem_contentWords w hw)

theorem configuration_eq (hsame : SameWords (trimStart s) (trimStart t)) :
    configuration s = configuration t :=
  configuration_eq_of_words (fun w hw => h w (isCompact_of_mem_contentWords w hw)) hsame

end

end Label

/-! ## Outlines -/

theorem Item.shift_zero (a : Item) : a.shift 0 = a := by
  have hmethods : ∀ fs : List FunctionRecord, fs.map (·.shift 0) = fs := List.map_id
  cases a with
  | classItem c => simp only [shift, ClassRecord.shift, hmethods, Nat.add_zero]
  | interface r => simp only [shift, InterfaceRecord.shift, hmethods, Nat.add_zero]
  | _ => rfl

theorem scanLines_map {line : Line → Line} {width : Nat → Nat} (h : Reindents line width)
    (path : String) (family : Family) (ls : List Line) :
    scanLines path family (ls.map line) = scanLines path family ls := by
  have hcarry := Scan.itemsFrom_carry (t := ⟨line, width, 0⟩) h { path, family } 0 ls
  have hstill : ∀ items : List Item, items.map (·.shift 0) = items := fun items =>
    (List.map_congr_left fun a _ => a.shift_zero).trans (List.map_id items)
  rw [Carry.items, hstill] at hcarry
  exact congrArg (Outline.ofItems path family) hcarry

/-- Other blanks in front of the lines of a file, wider ones where there were wider ones,
change nothing in its outline but the size of the file. -/
theorem Outline.build_respaced (width : Nat → Nat) (hwidth : StrictMono width) (path : String)
    (content : List Char) (family : Family) :
    Outline.build path (Text.respaced width content) family =
      { Outline.build path content family with
        size := Text.byteLength (Text.respaced width content) } := by
  have hwords : ∀ w, Text.isCompact w = true →
      Text.has w (Text.lower (Text.respaced width content)) =
        Text.has w (Text.lower content) :=
    fun w hw => Text.has_lower_respaced width content hw
  have hsame := Text.sameWords_respaced width content
  simp only [build, Text.lines_respaced width hwidth, scanLines_map (Text.reindents_respace hwidth),
    List.length_map, Label.purpose_eq hwords, Label.domain_eq hwords,
    Label.configuration_eq hwords hsame]
  rfl

/-- A file that is indented with tabs. -/
def indentedWithTabs : List Char := "class A:\n\tdef m(self):\n\t\treturn 1\n".toList

theorem build_indentedWithTabs :
    StrictMono (4 * ·) ∧
      Text.respaced (4 * ·) indentedWithTabs =
        "class A:\n    def m(self):\n        return 1\n".toList ∧
      Outline.build "a.py" (Text.respaced (4 * ·) indentedWithTabs) .indent =
        { Outline.build "a.py" indentedWithTabs .indent with
          size := Text.byteLength (Text.respaced (4 * ·) indentedWithTabs) } := by
  have hwidth : StrictMono (4 * · : Nat → Nat) := fun a b hab => by simp only; omega
  exact ⟨hwidth, by decide +kernel,
    Outline.build_respaced (4 * ·) hwidth "a.py" indentedWithTabs .indent⟩

/-! ## Line breaks -/

/-- No word that a label looks for is empty or has a character of a line break. -/
theorem Label.unbroken_of_mem_contentWords :
    ∀ w ∈ contentWords, w.toList ≠ [] ∧ '\r' ∉ w.toList ∧ '\n' ∉ w.toList := by
  decide +kernel

/-- A carriage return in front of each line feed of a file without carriage returns changes
nothing in its outline but the size of the file. -/
theorem Outline.build_withCarriages (path : String) (content : List Char) (family : Family)
    (h : '\r' ∉ content) :
    Outline.build path (Text.withCarriages content) family =
      { Outline.build path content family with
        size := (Outline.build path content family).size + content.count '\n' } := by
  have hwords : ∀ w ∈ Label.contentWords,
      Text.has w (Text.lower (Text.withCarriages content)) = Text.has w (Text.lower content) := by
    intro w hw
    obtain ⟨hne, hreturn, hfeed⟩ := Label.unbroken_of_mem_contentWords w hw
    exact Text.has_lower_withCarriages hne hreturn hfeed content
  have hsame := (Text.sameWords_withCarriages content).trimStart
  simp only [build, Text.lines_withCarriages h, Label.purpose_eq_of_words hwords,
    Label.domain_eq_of_words hwords, Label.configuration_eq_of_words hwords hsame,
    Text.byteLength_withCarriages]
  rfl

/-- A variable of the environment that is asked for over two lines. -/
def environmentOverLines : List Char :=
  "import os\nTOKEN = os.getenv(\n    'API_TOKEN')\n".toList

theorem build_environmentOverLines :
    '\r' ∉ environmentOverLines ∧
      (Outline.build "a.py" environmentOverLines .indent).configuration.environment =
        ["API_TOKEN"] ∧
      Outline.build "a.py" (Text.withCarriages environmentOverLines) .indent =
        { Outline.build "a.py" environmentOverLines .indent with
          size := (Outline.build "a.py" environmentOverLines .indent).size + 3 } :=
  ⟨by decide, by decide +kernel,
    Outline.build_withCarriages "a.py" environmentOverLines .indent (by decide)⟩

end CodeAtlas
