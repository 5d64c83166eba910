/-
A declaration and the export on its line.

The line of an exported declaration is read twice: its own header reads it, and so does the
pattern of exports, which knows all keywords and all words in front of them. `Exporting` is
such a line in pieces. What the export is called is seen by following the pattern of exports
along the pieces (`Exporting.exportsOf_text`); and each header, read the other way, says that
its line is one of these and that its name is the name of the pieces.

The two do not always agree. A constant enumeration, a module, and a function whose name
follows the keyword without a blank are declared by their headers, but are no lines of this
kind: `oddType` and `gluedFunction` describe them. A namespace is exported under the first
part of its name.
-/
import CodeAtlas.Proofs.Header.Name
import CodeAtlas.Proofs.Pattern.Word

set_option autoImplicit false

namespace CodeAtlas.Brace

open Pattern

/-! ## Lines that export a declaration -/

/-- The keywords behind which the name of an export is looked for. -/
def exportedWords : List String :=
  ["function", "class", "interface", "type", "const", "let", "var", "enum", "namespace"]

/-- What may stand between a keyword and a name: blanks, and the star of a generator. -/
def IsSign (x : List Char) : Prop :=
  ∃ g star g', (∀ c ∈ g, Text.isBlankChar c = true) ∧ (star = [] ∨ star = ['*']) ∧
    (∀ c ∈ g', Text.isBlankChar c = true) ∧ x = g ++ (star ++ g')

/-- A line that begins with `export` and declares a name, in pieces. -/
structure Exporting where
  lead : List Char
  byDefault : List Char
  declared : List Char
  abstracted : List Char
  asynchronous : List Char
  keyword : String
  sign : List Char
  name : List Char
  rest : List Char
  isWord_lead : IsWord "export" lead
  mayBe_byDefault : MayBeWord "default" byDefault
  mayBe_declared : MayBeWord "declare" declared
  mayBe_abstracted : MayBeWord "abstract" abstracted
  mayBe_asynchronous : MayBeWord "async" asynchronous
  mem_keyword : keyword ∈ exportedWords
  isSign_sign : IsSign sign
  isName_name : IsNameOf Text.isNameStart Text.isNameChar name
  ends_name : rest.head?.any Text.isNameChar = false

namespace Exporting

/-! What is left of the line from a piece on. -/

def fromKeyword (x : Exporting) : List Char :=
  x.keyword.toList ++ (x.sign ++ (x.name ++ x.rest))

def fromAsync (x : Exporting) : List Char := x.asynchronous ++ x.fromKeyword

def fromAbstract (x : Exporting) : List Char := x.abstracted ++ x.fromAsync

def fromDeclare (x : Exporting) : List Char := x.declared ++ x.fromAbstract

def fromDefault (x : Exporting) : List Char := x.byDefault ++ x.fromDeclare

def text (x : Exporting) : List Char := x.lead ++ x.fromDefault

theorem text_eq (x : Exporting) : x.text =
    x.lead ++ (x.byDefault ++ (x.declared ++ (x.abstracted ++ (x.asynchronous ++
      (x.keyword.toList ++ (x.sign ++ (x.name ++ x.rest))))))) := rfl

def isDefault (x : Exporting) : Bool := !x.byDefault.isEmpty

/-- The keyword does not run into the name. -/
def IsApart (x : Exporting) : Prop := (x.sign ++ x.name).head?.any Text.isWordChar = false

end Exporting

/-! ## Signs and names -/

theorem isSign_of_blanks {g : List Char} (hg : ∀ c ∈ g, Text.isBlankChar c = true) : IsSign g :=
  ⟨g, [], [], hg, .inl rfl, by simp, by simp⟩

theorem IsSign.head? {x : List Char} (h : IsSign x) : x.head?.any Text.isWordChar = false := by
  obtain ⟨g, star, g', hg, hstar, hg', rfl⟩ := h
  have hblank : ∀ (c : Char) (g : List Char), (∀ d ∈ c :: g, Text.isBlankChar d = true) →
      Text.isWordChar c = false :=
    fun c g hg => Text.isWordChar_of_isBlankChar (hg c List.mem_cons_self)
  cases g with
  | cons c g => exact hblank c g hg
  | nil =>
    rcases hstar with rfl | rfl
    · cases g' with
      | nil => rfl
      | cons c g' => exact hblank c g' hg'
    · show Text.isWordChar '*' = false
      decide

theorem IsSign.not_mem {x : List Char} (h : IsSign x) {c : Char} (hstar : c ≠ '*')
    (hc : Text.isBlankChar c = false) : c ∉ x := by
  obtain ⟨g, star, g', hg, hstars, hg', rfl⟩ := h
  have hblank : ∀ g : List Char, (∀ d ∈ g, Text.isBlankChar d = true) → c ∉ g := by
    intro g hg hmem
    rw [hg c hmem] at hc
    cases hc
  simp only [List.mem_append, not_or]
  refine ⟨hblank g hg, ?_, hblank g' hg'⟩
  rcases hstars with rfl | rfl
  · exact List.not_mem_nil
  · rw [List.mem_singleton]
    exact hstar

theorem isBlankChar_head?_of_isName {u t : List Char}
    (h : IsNameOf Text.isNameStart Text.isNameChar u) :
    (u ++ t).head?.any Text.isBlankChar = false := by
  obtain ⟨c, v, rfl, hc, -⟩ := h
  exact Text.isBlankChar_of_isNameChar (Text.isNameChar_of_isNameStart hc)

/-- A word with blanks that a text begins with, where it begins with a name, is that name. -/
theorem exists_gap_of_isWord {v : String} {u r y z : List Char}
    (hv : ∀ c ∈ v.toList, Text.isNameChar c = true)
    (hu : IsNameOf Text.isNameStart Text.isNameChar u) (hr : r.head?.any Text.isNameChar = false)
    (hy : IsWord v y) (h : u ++ r = y ++ z) :
    u = v.toList ∧ ∃ g, g ≠ [] ∧ (∀ c ∈ g, Text.isBlankChar c = true) ∧ r = g ++ z := by
  obtain ⟨g, hne, hg, rfl⟩ := hy
  have hblank : (g ++ z).head?.any Text.isNameChar = false := by
    obtain ⟨b, g, rfl⟩ := List.exists_cons_of_ne_nil hne
    refine Bool.eq_false_iff.mpr fun hnamed => ?_
    have hb := hg b List.mem_cons_self
    rw [Text.isBlankChar_of_isNameChar hnamed] at hb
    cases hb
  rw [List.append_assoc] at h
  have hfront := congrArg (List.takeWhile Text.isNameChar) h
  rw [takeWhile_append_of_ends hv hblank,
    takeWhile_append_of_ends (fun c => Text.isNameChar_of_mem hu) hr] at hfront
  rw [hfront] at h
  exact ⟨hfront, g, hne, hg, List.append_cancel_left h⟩

theorem after?_star_of_isName {u t : List Char}
    (h : IsNameOf Text.isNameStart Text.isNameChar u) :
    Text.after? "*".toList (u ++ t) = none := by
  obtain ⟨c, v, rfl, hc, -⟩ := h
  have hne : '*' ≠ c := by
    rintro rfl
    revert hc
    decide
  exact if_neg hne

/-- Blanks, a star and blanks again are found in front of a name. -/
theorem exists_finds_sign {x u t : List Char} (hx : IsSign x)
    (hname : IsNameOf Text.isNameStart Text.isNameChar u) {m : Spot}
    (hm : m.rest = x ++ (u ++ t)) :
    ∃ a b, Finds blanks m a [] ∧ Finds (opt (lit "*")) a b [] ∧
      Finds blanks b (m.behind x (u ++ t)) [] := by
  obtain ⟨g, star, g', hg, hstar, hg', rfl⟩ := hx
  have hblack := isBlankChar_head?_of_isName (t := t) hname
  rcases hstar with rfl | rfl
  · -- all blanks stand in front of the star that is missing
    rw [List.nil_append] at hm ⊢
    have hall : ∀ c ∈ g ++ g', Text.isBlankChar c = true := by
      intro c hc
      exact (List.mem_append.mp hc).elim (hg c) (hg' c)
    have hlast : Finds blanks (m.behind (g ++ g') (u ++ t)) (m.behind (g ++ g') (u ++ t)) [] := by
      have hnone := finds_many (p := Text.isBlankChar) (w := [])
        (m := m.behind (g ++ g') (u ++ t)) rfl (by simp) hblack
      rwa [Spot.behind_behind, List.append_nil] at hnone
    exact ⟨_, _, finds_many hm hall hblack,
      finds_opt_nothing fun _ => run_lit_of_none (after?_star_of_isName hname), hlast⟩
  · simp only [List.append_assoc, List.singleton_append] at hm
    have hblanks := finds_many (p := Text.isBlankChar) hm hg rfl
    have hstar := finds_lit (s := "*") (m := m.behind g ('*' :: (g' ++ (u ++ t)))) rfl
    have hmore := finds_many (p := Text.isBlankChar)
      (m := m.behind (g ++ ['*']) (g' ++ (u ++ t))) rfl hg' hblack
    rw [Spot.behind_behind] at hstar hmore
    rw [List.append_assoc] at hmore
    exact ⟨_, _, hblanks, hstar.opt, hmore⟩

/-! ## Following the pattern of exports -/

/-- A keyword ends in a letter. -/
theorem isEdge_behind_keyword {w : String} (hw : w ∈ exportedWords) {m : Spot} {t : List Char}
    (ht : t.head?.any Text.isWordChar = false) : (m.behind w.toList t).isEdge = true := by
  have hall : ∀ w ∈ exportedWords, w.toList.getLast?.any Text.isWordChar = true := by decide
  have hlast := hall w hw
  cases hend : w.toList.getLast? with
  | none =>
    rw [hend] at hlast
    cases hlast
  | some c =>
    rw [hend, Option.any_some] at hlast
    rw [Spot.isEdge, Spot.behind, hend, ht, Option.some_or, Option.any_some, hlast]
    rfl

namespace Exporting

variable (x : Exporting)

theorem head?_sign_name (hapart : x.IsApart) :
    (x.sign ++ (x.name ++ x.rest)).head?.any Text.isWordChar = false := by
  obtain ⟨c, u, hname, -⟩ := x.isName_name
  rw [IsApart, hname] at hapart
  rw [hname]
  cases hsign : x.sign with
  | nil =>
    rw [hsign] at hapart
    exact hapart
  | cons d v =>
    rw [hsign] at hapart
    exact hapart

/-- The pattern of exports is followed from word to word up to the name. -/
theorem exists_finds (hapart : x.IsApart) : ∃ m ms, Finds exportDeclaration (.start x.text) m ms ∧
    (Match.mk m ms).part .name = x.name ∧ (Match.mk m ms).part .keyword = x.keyword.toList ∧
      (Match.mk m ms).has .byDefault = x.isDefault := by
  have hkeyword : Begins exportedWords x.fromKeyword :=
    ⟨x.keyword, x.mem_keyword, List.prefix_append _ _⟩
  have hasync := hkeyword.mayBeWord x.mayBe_asynchronous
  have habstract := hasync.mayBeWord x.mayBe_abstracted
  have hdeclare := habstract.mayBeWord x.mayBe_declared
  have hdefault := hdeclare.mayBeWord x.mayBe_byDefault
  have hother : ∀ v ∈ exportedWords, v ≠ x.keyword →
      Text.after? v.toList x.fromKeyword = none := by
    have hapart : ∀ w ∈ exportedWords, ∀ v ∈ exportedWords, v ≠ w → Apart v w := by decide
    intro v hv hne
    exact after?_of_apart (List.prefix_append _ _) (hapart x.keyword x.mem_keyword v hv hne)
  -- one spot behind each piece of the line
  let m₁ := (Spot.start x.text).behind x.lead x.fromDefault
  let m₂ := m₁.behind x.byDefault x.fromDeclare
  let m₃ := m₂.behind x.declared x.fromAbstract
  let m₄ := m₃.behind x.abstracted x.fromAsync
  let m₅ := m₄.behind x.asynchronous x.fromKeyword
  let m₆ := m₅.behind x.keyword.toList (x.sign ++ (x.name ++ x.rest))
  have hlead : Finds (word "export") (.start x.text) m₁ [] :=
    finds_word x.isWord_lead rfl (hdefault.head? (by decide))
  have hflag : Finds (flag .byDefault "default") m₁ m₂
      (wordMarks .byDefault m₁ x.byDefault x.fromDeclare) :=
    finds_flag x.mayBe_byDefault rfl (hdeclare.head? (by decide)) (hdeclare.after? (by decide))
  have hdeclared : Finds (opt (word "declare")) m₂ m₃ [] :=
    finds_opt_word x.mayBe_declared rfl (habstract.head? (by decide))
      (habstract.after? (by decide))
  have habstracted : Finds (opt (word "abstract")) m₃ m₄ [] :=
    finds_opt_word x.mayBe_abstracted rfl (hasync.head? (by decide)) (hasync.after? (by decide))
  have hasynchronous : Finds (opt (word "async")) m₄ m₅ [] :=
    finds_opt_word x.mayBe_asynchronous rfl (hkeyword.head? (by decide))
      (hkeyword.after? (by decide))
  have hword := (finds_oneOf (m := m₅) x.mem_keyword rfl hother).keep .keyword
  have hedge : Finds edge m₆ m₆ [] :=
    finds_edge (isEdge_behind_keyword x.mem_keyword (x.head?_sign_name hapart))
  obtain ⟨a, b, hblanks, hstar, hmore⟩ :=
    exists_finds_sign (m := m₆) x.isSign_sign x.isName_name rfl
  have hname := (finds_name (m := m₆.behind x.sign (x.name ++ x.rest)) x.isName_name rfl
    x.ends_name).keep .name
  have hwords := (((hlead.append hflag).append hdeclared).append habstracted).append hasynchronous
  have hfront := ((((hwords.append hword).append hedge).append hblanks).append hstar).append hmore
  refine ⟨_, _, hfront.append hname, ?_, ?_, ?_⟩
  · exact part_of_marks List.prefix_rfl (mt hfront.matches.mem_slots (by decide))
      (hfront.matches.exact rfl) rfl
  · refine part_of_marks (a := m₅) ?_ (mt hwords.matches.mem_slots (by decide))
      (hwords.matches.exact rfl) rfl
    simp only [List.append_nil]
    exact List.prefix_append _ _
  · by_cases hnone : x.byDefault.isEmpty <;> simp [Match.has, wordMarks, isDefault, hnone]

/-- The line exports its name, and nothing else. -/
theorem exportsOf_text (hapart : x.IsApart) : exportsOf x.text =
    [{ name := textOf x.name, kind := ExportKind.ofKeyword x.keyword.toList,
       isDefault := x.isDefault, line := 1 }] := by
  obtain ⟨m, ms, hfinds, hname, hkeyword, hdefault⟩ := x.exists_finds hapart
  have hstarts : Text.starts "export" x.text = true := by
    obtain ⟨g, -, -, hlead⟩ := x.isWord_lead
    rw [Text.starts, text, hlead, List.append_assoc]
    exact List.isPrefixOf_iff_prefix.mpr (List.prefix_append _ _)
  rw [exportsOf, hstarts, hfinds.match?]
  simp [hname, hkeyword, hdefault]

end Exporting

theorem Exporting.isApart_of_blank (x : Exporting) (hne : x.sign ≠ [])
    (hblank : ∀ c ∈ x.sign, Text.isBlankChar c = true) : x.IsApart := by
  obtain ⟨c, g, hsign⟩ := List.exists_cons_of_ne_nil hne
  rw [IsApart, hsign]
  exact Text.isWordChar_of_isBlankChar (hblank c (by rw [hsign]; exact List.mem_cons_self))

/-- The line exports the name, alone, as the default export or not. -/
def LineExports (t name : List Char) (isDefault : Bool) : Prop :=
  ∃ x : Exporting, x.text = t ∧ x.IsApart ∧ x.name = name ∧ x.isDefault = isDefault

theorem LineExports.exists_kind {t name : List Char} {isDefault : Bool}
    (h : LineExports t name isDefault) :
    ∃ kind, exportsOf t = [{ name := textOf name, kind, isDefault, line := 1 }] := by
  obtain ⟨x, rfl, hapart, rfl, rfl⟩ := h
  exact ⟨_, x.exportsOf_text hapart⟩

/-- A line in words: `export`, words that may be left out, a keyword, and the name. -/
theorem lineExports_of_words {v : String} {e d c a w u rest : List Char} (hv : v ∈ exportedWords)
    (he : IsWord "export" e) (hd : MayBeWord "default" d) (hc : MayBeWord "declare" c)
    (ha : MayBeWord "abstract" a) (hw : IsWord v w)
    (hu : IsNameOf Text.isNameStart Text.isNameChar u)
    (hrest : rest.head?.any Text.isNameChar = false) :
    LineExports (e ++ (d ++ (c ++ (a ++ (w ++ (u ++ rest)))))) u (!d.isEmpty) := by
  obtain ⟨g, hne, hg, rfl⟩ := hw
  let x : Exporting :=
    { lead := e, byDefault := d, declared := c, abstracted := a, asynchronous := [],
      keyword := v, sign := g, name := u, rest := rest, isWord_lead := he, mayBe_byDefault := hd,
      mayBe_declared := hc, mayBe_abstracted := ha, mayBe_asynchronous := .inl rfl,
      mem_keyword := hv, isSign_sign := isSign_of_blanks hg, isName_name := hu,
      ends_name := hrest }
  refine ⟨x, ?_, x.isApart_of_blank hne hg, rfl, rfl⟩
  simp only [x, Exporting.text_eq, List.nil_append, List.append_assoc]

/-! ## Lines that are read differently -/

/-- A constant enumeration. -/
def constEnum : Pattern :=
  word "export" ++ opt (word "declare") ++ word "const" ++ word "enum"

/-- A namespace with the older keyword. -/
def moduleHeader : Pattern := word "export" ++ opt (word "declare") ++ word "module"

/-- A type that is no export, or an export of another name. -/
def oddType (t : List Char) : Bool := constEnum.fits t || moduleHeader.fits t

/-- A function whose name follows the keyword without a blank, so that there is no keyword. -/
def gluedFunction : Pattern :=
  word "export" ++ opt (word "default") ++ opt (word "declare") ++ opt (word "async") ++
    lit "function" ++ one Text.isWordChar

theorem fits_of_finds {p : Pattern} {t : List Char} {m : Spot} {ms : List (Slot × Spot)}
    (h : Finds p (.start t) m ms) : p.fits t = true := by
  rw [fits, h.match?]
  rfl

theorem fits_constEnum {e c k g rest : List Char} (he : IsWord "export" e)
    (hc : MayBeWord "declare" c) (hk : IsWord "const" k) (hg : IsWord "enum" g)
    (hrest : rest.head?.any Text.isBlankChar = false) :
    constEnum.fits (e ++ (c ++ (k ++ (g ++ rest)))) = true := by
  have henum : Begins ["enum"] (g ++ rest) := hg.begins rest
  have hconst : Begins ["const"] (k ++ (g ++ rest)) := hk.begins _
  have hdeclare := hconst.mayBeWord hc
  let m₁ := (Spot.start (e ++ (c ++ (k ++ (g ++ rest))))).behind e (c ++ (k ++ (g ++ rest)))
  let m₂ := m₁.behind c (k ++ (g ++ rest))
  let m₃ := m₂.behind k (g ++ rest)
  have h₁ := finds_word (m := .start _) he rfl (hdeclare.head? (by decide))
  have h₂ := finds_opt_word (m := m₁) hc rfl (hconst.head? (by decide))
    (hconst.after? (by decide))
  have h₃ := finds_word (m := m₂) hk rfl (henum.head? (by decide))
  have h₄ := finds_word (m := m₃) hg rfl hrest
  exact fits_of_finds (((h₁.append h₂).append h₃).append h₄)

theorem fits_moduleHeader {e c k rest : List Char} (he : IsWord "export" e)
    (hc : MayBeWord "declare" c) (hk : IsWord "module" k)
    (hrest : rest.head?.any Text.isBlankChar = false) :
    moduleHeader.fits (e ++ (c ++ (k ++ rest))) = true := by
  have hmodule : Begins ["module"] (k ++ rest) := hk.begins _
  have hdeclare := hmodule.mayBeWord hc
  let m₁ := (Spot.start (e ++ (c ++ (k ++ rest)))).behind e (c ++ (k ++ rest))
  let m₂ := m₁.behind c (k ++ rest)
  have h₁ := finds_word (m := .start _) he rfl (hdeclare.head? (by decide))
  have h₂ := finds_opt_word (m := m₁) hc rfl (hmodule.head? (by decide))
    (hmodule.after? (by decide))
  have h₃ := finds_word (m := m₂) hk rfl hrest
  exact fits_of_finds ((h₁.append h₂).append h₃)

theorem fits_gluedFunction {e d c a rest : List Char} {b : Char} (he : IsWord "export" e)
    (hd : MayBeWord "default" d) (hc : MayBeWord "declare" c) (ha : MayBeWord "async" a)
    (hb : Text.isWordChar b = true) :
    gluedFunction.fits (e ++ (d ++ (c ++ (a ++ ("function".toList ++ b :: rest))))) = true := by
  have hfunction : Begins ["function"] ("function".toList ++ b :: rest) :=
    ⟨"function", List.mem_singleton.mpr rfl, List.prefix_append _ _⟩
  have hasync := hfunction.mayBeWord ha
  have hdeclare := hasync.mayBeWord hc
  have hdefault := hdeclare.mayBeWord hd
  -- one spot behind each word, present or not
  let m₁ := (Spot.start (e ++ (d ++ (c ++ (a ++ ("function".toList ++ b :: rest)))))).behind e
    (d ++ (c ++ (a ++ ("function".toList ++ b :: rest))))
  let m₂ := m₁.behind d (c ++ (a ++ ("function".toList ++ b :: rest)))
  let m₃ := m₂.behind c (a ++ ("function".toList ++ b :: rest))
  let m₄ := m₃.behind a ("function".toList ++ b :: rest)
  let m₅ := m₄.behind "function".toList (b :: rest)
  have h₁ := finds_word (m := .start _) he rfl (hdefault.head? (by decide))
  have h₂ := finds_opt_word (m := m₁) hd rfl (hdeclare.head? (by decide))
    (hdeclare.after? (by decide))
  have h₃ := finds_opt_word (m := m₂) hc rfl (hasync.head? (by decide)) (hasync.after? (by decide))
  have h₄ := finds_opt_word (m := m₃) ha rfl (hfunction.head? (by decide))
    (hfunction.after? (by decide))
  have h₅ := finds_lit (s := "function") (m := m₄) rfl
  have h₆ := finds_one (p := Text.isWordChar) (m := m₅) rfl hb
  exact fits_of_finds (((((h₁.append h₂).append h₃).append h₄).append h₅).append h₆)

/-! ## Lines that are joined -/

/-- What stands in front of the name, and the name. -/
def Exporting.uptoName (x : Exporting) : List Char :=
  x.lead ++ (x.byDefault ++ (x.declared ++ (x.abstracted ++ (x.asynchronous ++
    (x.keyword.toList ++ (x.sign ++ x.name))))))

theorem Exporting.text_eq_uptoName (x : Exporting) : x.text = x.uptoName ++ x.rest := by
  simp only [text_eq, uptoName, List.append_assoc]

/-- The same line with something else behind the name. -/
def Exporting.withRest (x : Exporting) (rest : List Char)
    (h : rest.head?.any Text.isNameChar = false) : Exporting :=
  { x with rest := rest, ends_name := h }

/-- No round bracket stands in front of the name or in it. -/
theorem Exporting.not_mem_uptoName (x : Exporting) : '(' ∉ x.uptoName := by
  have hkeyword : ∀ w ∈ exportedWords, '(' ∉ w.toList := by decide
  have hblank : Text.isBlankChar '(' = false := by decide
  simp only [uptoName, List.mem_append, not_or]
  exact ⟨x.isWord_lead.not_mem (by decide) hblank,
    x.mayBe_byDefault.not_mem (by decide) hblank,
    x.mayBe_declared.not_mem (by decide) hblank,
    x.mayBe_abstracted.not_mem (by decide) hblank,
    x.mayBe_asynchronous.not_mem (by decide) hblank,
    hkeyword _ x.mem_keyword, x.isSign_sign.not_mem (by decide) hblank,
    Text.not_mem_of_isName x.isName_name (by decide)⟩

/-- A line that is joined with others stands in the same pieces on its own. -/
theorem Exporting.exists_firstTrimmed (x : Exporting) {ls : List Line}
    (hx : x.text = (joinSignature ls).text) :
    ∃ rest h, (x.withRest rest h).text = firstTrimmed ls := by
  have hprefix : x.uptoName <+: (joinSignature ls).text := by
    rw [← hx, x.text_eq_uptoName]
    exact List.prefix_append _ _
  obtain ⟨rest, hrest⟩ := prefix_firstTrimmed hprefix x.not_mem_uptoName
  obtain ⟨more, hmore⟩ := prefix_joinOpen (firstTrimmed ls) 0 (ls.drop 1)
  have hsplit : x.rest = rest ++ more := by
    have hall : x.uptoName ++ x.rest = x.uptoName ++ (rest ++ more) := by
      rw [← List.append_assoc, hrest, ← x.text_eq_uptoName, hx]
      exact hmore.symm
    exact List.append_cancel_left hall
  have hends : rest.head?.any Text.isNameChar = false := by
    have hends := x.ends_name
    rw [hsplit] at hends
    cases rest with
    | nil => rfl
    | cons c rest => exact hends
  refine ⟨rest, hends, ?_⟩
  rw [text_eq_uptoName, ← hrest]
  rfl

/-- A header that is joined with others exports on its own line what it exports when joined. -/
theorem LineExports.firstTrimmed {ls : List Line} {u : List Char} {isDefault : Bool}
    (h : LineExports (joinSignature ls).text u isDefault) :
    LineExports (firstTrimmed ls) u isDefault := by
  obtain ⟨x, hx, hapart, rfl, rfl⟩ := h
  obtain ⟨rest, hends, hfirst⟩ := x.exists_firstTrimmed hx
  exact ⟨x.withRest rest hends, hfirst, hapart, rfl, rfl⟩

/-- If the keyword runs into the name, it is no keyword. -/
theorem Exporting.isApart_of_not_glued (x : Exporting) (hkeyword : x.keyword = "function")
    (habstracted : x.abstracted = []) (hglued : gluedFunction.fits x.text = false) : x.IsApart := by
  have hsign := x.isSign_sign.head?
  rw [IsApart]
  cases hlist : x.sign with
  | cons c g =>
    rw [hlist] at hsign
    exact hsign
  | nil =>
    obtain ⟨c, u, hname, -⟩ := x.isName_name
    rw [List.nil_append, hname]
    refine Bool.eq_false_iff.mpr ?_
    intro hword
    rw [text_eq, hkeyword, habstracted, hlist, hname, List.nil_append, List.nil_append,
      List.cons_append, fits_gluedFunction x.isWord_lead x.mayBe_byDefault x.mayBe_declared
        x.mayBe_asynchronous hword] at hglued
    cases hglued

end CodeAtlas.Brace
