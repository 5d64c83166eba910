/-
Parameter lists as they are written.

A parameter is given by its parts: the dots and the name, the question mark, a type behind a colon
and a default behind an equals sign, with any blanks around these two signs (`ParamText`). A list
of such parameters is cut where it was joined, and each parameter is read back as it was written,
except where the equals sign touches a type that ends in an angle bracket or an exclamation mark
(`ParamText.Crowded`): there the two characters are taken for a comparison, and what follows is
read as part of the type.
-/
import CodeAtlas.Header.Brace.Params
import CodeAtlas.Proofs.Nesting.FirstCut
import CodeAtlas.Proofs.Pattern.Word

set_option autoImplicit false

namespace CodeAtlas.Brace

/-! ## Parts -/

/-- A text behind a sign, with what stands on both sides of the sign. -/
structure Signed where
  before : List Char
  behind : List Char
  text : List Char

namespace Signed

def written (sign : Char) (s : Signed) : List Char := s.before ++ sign :: (s.behind ++ s.text)

/-- There are only blanks around the sign, and the text may stand between two commas. -/
structure IsWritten (s : Signed) : Prop where
  before : Text.isBlank s.before = true
  behind : Text.isBlank s.behind = true
  piece : IsPiece s.text

end Signed

/-- Does an equals sign make a comparison of the character that the text ends in? -/
def comparesWith (t : List Char) : Bool := t.getLast? = some '>' || t.getLast? = some '!'

/-- The parts of a parameter. -/
structure ParamText where
  rest : Bool
  name : List Char
  marked : Bool
  type : Option Signed
  default : Option Signed

namespace ParamText

/-- The name with its question mark. -/
def bare (p : ParamText) : List Char := p.name ++ if p.marked then ['?'] else []

/-- What stands in front of the default. -/
def front (p : ParamText) : List Char := p.bare ++ (p.type.map (Signed.written ':')).getD []

def text (p : ParamText) : List Char :=
  (if p.rest then "...".toList else []) ++
    (p.front ++ (p.default.map (Signed.written '=')).getD [])

/-- What the parameter says. -/
def record (p : ParamText) : Parameter where
  name := textOf p.name
  typeText := p.type.map fun s => textOf s.text
  optional := p.marked || p.default.isSome
  defaultValue := p.default.map fun s => textOf s.text
  rest := p.rest

/-- What a parameter is taken for if the equals sign in front of its default is not: the type goes
on to the next one. -/
def crowdedRecord (p : ParamText) (s d : Signed) : Parameter :=
  let cut := cutOuter? '=' (d.behind ++ d.text)
  let back := (cut.map Prod.fst).getD (d.behind ++ d.text)
  { p.record with
    typeText := some (textOf (s.text ++ '=' :: Text.trimEnd back))
    optional := p.marked || cut.isSome
    defaultValue := cut.bind fun cut => nonempty? (Text.trim cut.2) }

/-- What the parameter is taken for. -/
def reading (p : ParamText) : Parameter :=
  match p.type, p.default with
  | some s, some d =>
    if d.before.isEmpty && comparesWith s.text then p.crowdedRecord s d else p.record
  | _, _ => p.record

/-- The name is no modifier, an outer equals sign in the type is part of an arrow, and the default
does not make a comparison or an arrow of the sign in front of it. -/
structure IsWritten (p : ParamText) : Prop where
  named : p.name ≠ []
  isName : ∀ c ∈ p.name, Text.isNameChar c = true
  noModifier : ∀ m ∈ paramModifiers, m.toList ≠ p.name ++ [' ']
  type : ∀ s ∈ p.type, s.IsWritten ∧ arrowsOnly ' ' 0 s.text = true
  default : ∀ s ∈ p.default, s.IsWritten ∧ s.text.head? ≠ some '=' ∧ s.text.head? ≠ some '>'

/-- The equals sign stands directly behind a type with which it makes a comparison. -/
def Crowded (p : ParamText) : Prop :=
  ∃ s ∈ p.type, ∃ d ∈ p.default, d.before = [] ∧ comparesWith s.text = true

end ParamText

/-! ## Names and blanks -/

section

variable {p : ParamText} {sep c : Char} {g t u : List Char}

/-- The signs between the parts of a parameter and between parameters. -/
def paramSigns : List Char := [',', ':', '=']

theorem isBlankChar_of_mem_paramSigns (hsep : sep ∈ paramSigns) :
    Text.isBlankChar sep = false := by
  have hsigns : ∀ d ∈ paramSigns, Text.isBlankChar d = false :=
    List.all_iff_forall_prop.mp (by decide)
  exact hsigns sep hsep

theorem ParamText.IsWritten.plain (h : p.IsWritten) (hc : c ∈ p.bare) :
    IsPlain c ∧ c ∉ paramSigns ∧ Text.isBlankChar c = false ∧ c ≠ '!' := by
  rcases List.mem_append.mp hc with hname | hmark
  · have hnamed := h.isName c hname
    have hne : ∀ d, Text.isNameChar d = false → c ≠ d := by
      rintro d hd rfl
      rw [hd] at hnamed
      cases hnamed
    have hsigns : ∀ d ∈ paramSigns, Text.isNameChar d = false :=
      List.all_iff_forall_prop.mp (by decide)
    exact ⟨isPlain_of_isNameChar hnamed, fun hc => hne c (hsigns c hc) rfl,
      Text.isBlankChar_of_isNameChar hnamed, hne '!' (by decide)⟩
  · have heq : c = '?' := by
      by_contra hne
      cases hm : p.marked <;> simp [hm, hne] at hmark
    rw [heq]
    decide

theorem plain_of_isBlank (hsep : sep ∈ paramSigns) (hg : Text.isBlank g = true) :
    ∀ c ∈ g, IsPlain c ∧ c ≠ sep := by
  intro c hc
  have hblank := Text.isBlankChar_of_mem hg hc
  refine ⟨isPlain_of_isBlankChar hblank, ?_⟩
  rintro rfl
  rw [isBlankChar_of_mem_paramSigns hsep] at hblank
  cases hblank

theorem ParamText.IsWritten.bare_ne_nil (h : p.IsWritten) : p.bare ≠ [] := by
  simp [ParamText.bare, h.named]

theorem ParamText.IsWritten.trim_bare (h : p.IsWritten) : Text.trim p.bare = p.bare :=
  Text.trim_eq_self_of_forall fun _ hc => (h.plain hc).2.2.1

/-- So is what begins with them and ends in a trimmed text. -/
theorem ParamText.IsWritten.trim_bare_append (h : p.IsWritten) (ht : Text.trim t = t)
    (hne : t ≠ []) (u : List Char) : Text.trim (p.bare ++ u ++ t) = p.bare ++ u ++ t := by
  obtain ⟨c, v, hbare⟩ := List.exists_cons_of_ne_nil h.bare_ne_nil
  have hc := (h.plain (c := c) (by rw [hbare]; exact List.mem_cons_self)).2.2.1
  rw [hbare]
  exact Text.trim_append_eq_self hc (v ++ u) ht hne

theorem ParamText.IsWritten.no_mark (h : p.IsWritten) : '?' ∉ p.name := fun hc =>
  absurd (h.isName '?' hc) (by decide)

end

/-! ## Dots and marks -/

section

variable {n u t raw head : List Char} {default type : Option (List Char)}

theorem dropEndWhile_mark (h : '?' ∉ n) (marked : Bool) :
    Text.dropEndWhile (· = '?') (n ++ if marked then ['?'] else []) = n := by
  have hlast : n.reverse.dropWhile (fun c => c = '?') = n.reverse := by
    cases hrev : n.reverse with
    | nil => rfl
    | cons c v =>
      have hc : c ≠ '?' := by
        rintro rfl
        exact h (List.mem_reverse.mp (by rw [hrev]; exact List.mem_cons_self))
      exact List.dropWhile_cons_of_neg (by simpa using hc)
  rw [Text.dropEndWhile]
  cases marked with
  | false => simp [hlast]
  | true => simp [hlast]

theorem getLast?_mark (h : '?' ∉ n) (marked : Bool) :
    decide ((n ++ if marked then ['?'] else []).getLast? = some '?') = marked := by
  cases marked with
  | true => simp
  | false =>
    have hlast : n.getLast? ≠ some '?' := fun hlast => h (List.mem_of_getLast? hlast)
    simpa using hlast

/-- The dots in front are dropped, and they are what tells a rest parameter. -/
theorem dropDots_dots (h : u.head? ≠ some '.') (rest : Bool) :
    dropDots ((if rest then "...".toList else []) ++ u) = u ∧
      Text.starts "..." ((if rest then "...".toList else []) ++ u) = rest := by
  have hself : dropDots u = u := by
    unfold dropDots
    split
    · exact absurd rfl h
    · rfl
  cases rest with
  | true => exact ⟨hself, by simp [Text.starts]⟩
  | false =>
    refine ⟨hself, ?_⟩
    cases u with
    | nil => rfl
    | cons c u =>
      have hne : '.' ≠ c := by
        rintro rfl
        exact h rfl
      simp [Text.starts, List.isPrefixOf, hne]

/-- What is recorded follows from where the parameter is cut. -/
theorem param?_of_parts {rest marked : Bool} (hraw : Text.trim raw = t)
    (hwords : dropModifiers t = t) (ht : t = (if rest then "...".toList else []) ++ u)
    (hu : u.head? ≠ some '.') (hequals : headAndRest '=' u = (head, default))
    (hcolon : headAndRest ':' head = (n ++ if marked then ['?'] else [], type))
    (hn : n ≠ [] ∧ '?' ∉ n ∧ ∀ c ∈ n, Text.isBlankChar c = false) :
    param? raw = some
      { name := textOf n, typeText := type.bind nonempty?,
        optional := marked || default.isSome, defaultValue := default.bind nonempty?,
        rest := rest } := by
  obtain ⟨hne, hmark, hblack⟩ := hn
  obtain ⟨hdots, hrest⟩ := dropDots_dots hu rest
  rw [← ht] at hdots hrest
  -- neither the name nor its mark has blanks
  have hbare : Text.trim (n ++ if marked then ['?'] else []) =
      n ++ if marked then ['?'] else [] := by
    refine Text.trim_eq_self_of_forall fun c hc => ?_
    rcases List.mem_append.mp hc with hc | hc
    · exact hblack c hc
    · cases marked with
      | false => cases hc
      | true =>
        rw [List.mem_singleton.mp hc]
        rfl
  have hempty : n.isEmpty = false := List.isEmpty_eq_false_iff.mpr hne
  simp only [param?, hraw, hwords, hdots, hequals, hcolon, hbare, dropEndWhile_mark hmark,
    Text.trim_eq_self_of_forall hblack, hempty, Bool.false_eq_true, if_false, hrest,
    getLast?_mark hmark]

end

/-! ## Cutting the list -/

section

variable {p : ParamText} {s d : Signed} {sign c : Char} {raw head r u w : List Char}
  {default type : Option (List Char)}

theorem fills_of_plain (h : ∀ c ∈ u, IsPlain c ∧ c ≠ ',') : Fills ',' u :=
  fills_of_forall fun c hc => ⟨(h c hc).1.1, (h c hc).2, bracketValue_plain (h c hc).1⟩

theorem Signed.IsWritten.fills (h : s.IsWritten) (hsign : IsPlain sign ∧ sign ≠ ',') :
    Fills ',' (s.written sign) := by
  have hplain : Fills ',' [sign] := fills_of_plain fun c hc => by
    rwa [List.mem_singleton.mp hc]
  have hbehind := (fills_of_isBlank isSeparator_comma.noBlank h.behind).append h.piece.fills
  exact (fills_of_isBlank isSeparator_comma.noBlank h.before).append (hplain.append hbehind)

theorem ParamText.IsWritten.fills (h : p.IsWritten) : Fills ',' p.text := by
  have hdots : Fills ',' (if p.rest then "...".toList else []) := by
    have hplain : ∀ c ∈ "...".toList, IsPlain c ∧ c ≠ ',' := List.all_iff_forall_prop.mp (by decide)
    cases p.rest with
    | true => exact fills_of_plain hplain
    | false => exact fills_of_plain nofun
  have hbare : Fills ',' p.bare := by
    refine fills_of_plain fun c hc => ⟨(h.plain hc).1, ?_⟩
    rintro rfl
    exact (h.plain hc).2.1 (by decide)
  have hpart : ∀ {o : Option Signed}, (∀ s ∈ o, s.IsWritten) → ∀ sign, IsPlain sign ∧ sign ≠ ',' →
      Fills ',' ((o.map (Signed.written sign)).getD []) := by
    intro o ho sign hsign
    cases o with
    | none => exact fills_of_plain nofun
    | some s => exact (ho s rfl).fills hsign
  have htype := hpart (fun s hs => (h.type s hs).1) ':' (by decide)
  have hdefault := hpart (fun s hs => (h.default s hs).1) '=' (by decide)
  exact hdots.append ((hbare.append htype).append hdefault)

theorem ParamText.IsWritten.text_ne_nil (h : p.IsWritten) : p.text ≠ [] := by
  simp [ParamText.text, ParamText.front, h.bare_ne_nil]

/-! ## Words and dots in front -/

theorem Signed.IsWritten.head? (h : s.IsWritten) (hsign : Text.isNameChar sign = false)
    (x : List Char) : (s.written sign ++ x).head?.any Text.isNameChar = false := by
  cases hb : s.before with
  | nil =>
    rw [Signed.written, hb]
    exact hsign
  | cons c g =>
    have hblank := Text.isBlankChar_of_mem h.before (by rw [hb]; exact List.mem_cons_self)
    rw [Signed.written, hb]
    refine Bool.eq_false_iff.mpr fun hname => ?_
    rw [Text.isBlankChar_of_isNameChar hname] at hblank
    cases hblank

/-- The name ends where the characters of names do. -/
theorem ParamText.IsWritten.exists_takeWhile (h : p.IsWritten) : ∃ u,
    p.front ++ (p.default.map (Signed.written '=')).getD [] = p.name ++ u ∧
      (p.name ++ u).takeWhile Text.isNameChar = p.name := by
  refine ⟨(if p.marked then ['?'] else []) ++ (p.type.map (Signed.written ':')).getD [] ++
    (p.default.map (Signed.written '=')).getD [], ?_, ?_⟩
  · simp only [ParamText.front, ParamText.bare, List.append_assoc]
  · refine Pattern.takeWhile_append_of_ends h.isName ?_
    cases p.marked with
    | true => exact show Text.isNameChar '?' = false by decide
    | false =>
      cases ht : p.type with
      | some s => exact (h.type s ht).1.head? (by decide) _
      | none =>
        cases hd : p.default with
        | some d =>
          have hhead : (d.written '=' ++ []).head?.any Text.isNameChar = false :=
            (h.default d hd).1.head? (by decide) []
          rwa [List.append_nil] at hhead
        | none => rfl

/-- The name is no modifier, so that none is dropped. -/
theorem dropModifiers_text (h : p.IsWritten) : dropModifiers p.text = p.text := by
  have hnone : afterModifier? p.text = none := by
    refine List.findSome?_eq_none_iff.mpr fun m hm => ?_
    by_contra hsome
    obtain ⟨r, hr⟩ := Option.ne_none_iff_exists'.mp hsome
    rw [Text.after?_eq_some_iff, ParamText.text] at hr
    obtain ⟨u, hsplit, htake⟩ := h.exists_takeWhile
    cases hrest : p.rest with
    | true =>
      have hletter : ∀ m ∈ paramModifiers, ∃ c w, m.toList = c :: w ∧ c ≠ '.' := by
        simp [paramModifiers]
      obtain ⟨c, w, hm', hne⟩ := hletter m hm
      rw [hrest, hm'] at hr
      exact hne (List.cons.inj hr).1.symm
    | false =>
      -- the word in front of the space is the name
      have hword : ∀ m ∈ paramModifiers, (∀ c ∈ m.toList.dropLast, Text.isNameChar c = true) ∧
          m.toList = m.toList.dropLast ++ [' '] := by
        have hletters : ∀ m ∈ paramModifiers, m.toList.dropLast.all Text.isNameChar = true ∧
            m.toList = m.toList.dropLast ++ [' '] := List.all_iff_forall_prop.mp (by decide)
        exact fun m hm => ⟨List.all_eq_true.mp (hletters m hm).1, (hletters m hm).2⟩
      obtain ⟨hchars, hm'⟩ := hword m hm
      rw [hrest, hsplit, hm'] at hr
      have hname : p.name = m.toList.dropLast := by
        have hsame := congrArg (List.takeWhile Text.isNameChar) hr
        rw [if_neg Bool.false_ne_true, List.nil_append, htake, List.append_assoc,
          List.takeWhile_append_of_pos hchars, List.singleton_append,
          List.takeWhile_cons_of_neg (by decide), List.append_nil] at hsame
        exact hsame
      exact h.noModifier m hm (by rw [hname, ← hm'])
  rw [dropModifiers]
  split
  · rename_i r hr
    rw [hnone] at hr
    cases hr
  · rfl

theorem ParamText.IsWritten.head?_front (h : p.IsWritten) (x : List Char) :
    (p.front ++ x).head? ≠ some '.' := by
  obtain ⟨c, v, hname⟩ := List.exists_cons_of_ne_nil h.named
  have hc := h.isName c (by rw [hname]; exact List.mem_cons_self)
  rw [ParamText.front, ParamText.bare, hname]
  rintro ⟨⟩
  revert hc
  decide

/-! ## Cutting a parameter -/

theorem passes_bare (h : p.IsWritten) (hsign : sign ∈ paramSigns) : Passes sign none p.bare := by
  refine passes_of_plain (fun c hc => ⟨(h.plain hc).1, ?_⟩) none
  rintro rfl
  exact (h.plain hc).2.1 hsign

theorem headAndRest_of_passes (hsign : IsPlain sign) (hu : Passes sign none u)
    (halone : standsAlone sign u.getLast? r = true) :
    headAndRest sign (u ++ sign :: r) = (Text.trim u, some (Text.trim r)) := by
  simp only [headAndRest, cutOuter?_of_passes hsign hu halone]

/-- Without a sign, the name stands alone. -/
theorem headAndRest_bare (h : p.IsWritten) (hsign : sign ∈ paramSigns) :
    headAndRest sign p.bare = (p.bare, none) := by
  rw [headAndRest, cutOuter?_eq_none_of_passes (passes_bare h hsign)]

/-- The first colon stands behind the name. -/
theorem headAndRest_colon (h : p.IsWritten) (hg : Text.isBlank u = true) (r : List Char) :
    headAndRest ':' (p.bare ++ u ++ ':' :: r) = (p.bare, some (Text.trim r)) := by
  have hpasses : Passes ':' none (p.bare ++ u) :=
    (passes_bare h (by decide)).append (passes_of_plain (plain_of_isBlank (by decide) hg) _)
  rw [headAndRest_of_passes (by decide) hpasses rfl, Text.trim_append_of_isBlank_right hg,
    h.trim_bare]

/-- No equals sign in front of the default stands for itself. -/
theorem passes_front (h : p.IsWritten) : Passes '=' none p.front := by
  refine (passes_bare h (by decide)).append ?_
  cases ht : p.type with
  | none => exact passes_nil _
  | some s =>
    obtain ⟨hs, harrows⟩ := h.type s ht
    have hsign : ∀ c ∈ s.before ++ ':' :: s.behind, IsPlain c ∧ c ≠ '=' := by
      intro c hc
      rcases List.mem_append.mp hc with hbefore | hmore
      · exact plain_of_isBlank (by decide) hs.before c hbefore
      · rcases List.mem_cons.mp hmore with rfl | hbehind
        · decide
        · exact plain_of_isBlank (by decide) hs.behind c hbehind
    have hsplit : s.written ':' = (s.before ++ ':' :: s.behind) ++ s.text := by
      simp [Signed.written]
    obtain ⟨c, hlast⟩ : ∃ c, (s.before ++ ':' :: s.behind).getLast? = some c :=
      Option.ne_none_iff_exists'.mp (by simp)
    have hpiece := passes_of_arrowsOnly hs.piece harrows c
    rw [Option.map_some, Option.getD_some, hsplit]
    refine (passes_of_plain hsign _).append ?_
    rwa [hlast, Option.some_or]

/-- What stands in front of the default is trimmed. -/
theorem trim_front (h : p.IsWritten) : Text.trim p.front = p.front := by
  rw [ParamText.front]
  cases ht : p.type with
  | none =>
    rw [Option.map_none, Option.getD_none, List.append_nil]
    exact h.trim_bare
  | some s =>
    have hs := (h.type s ht).1.piece
    have htrim := h.trim_bare_append hs.trimmed hs.ne_nil (s.before ++ ':' :: s.behind)
    simpa [Signed.written] using htrim

/-- The default does not begin with a sign that goes with an equals sign in front. -/
theorem ParamText.IsWritten.head?_default (h : p.IsWritten) (hd : d ∈ p.default) :
    (d.behind ++ d.text).head? ≠ some '=' ∧ (d.behind ++ d.text).head? ≠ some '>' := by
  obtain ⟨hwritten, hequals, hangle⟩ := h.default d hd
  cases hb : d.behind with
  | nil => exact ⟨hequals, hangle⟩
  | cons c g =>
    have hc := Text.isBlankChar_of_mem hwritten.behind (by rw [hb]; exact List.mem_cons_self)
    constructor
    · rintro ⟨⟩
      cases hc
    · rintro ⟨⟩
      cases hc

theorem standsAlone_equals (hequals : r.head? ≠ some '=') (hangle : r.head? ≠ some '>')
    (hprev : ∀ c ∈ u.getLast?, c ≠ '=' ∧ c ≠ '!' ∧ c ≠ '<' ∧ c ≠ '>') :
    standsAlone '=' u.getLast? r = true := by
  have hnext : (r.head?.any fun n => n = '>' || n = '=') = false := by
    cases hr : r.head? with
    | none => rfl
    | some c =>
      rw [hr] at hequals hangle
      have hne : c ≠ '=' ∧ c ≠ '>' := by simpa using And.intro hequals hangle
      simp [hne.1, hne.2]
  have hlast : (u.getLast?.any fun p => p = '=' || p = '!' || p = '<' || p = '>') = false := by
    cases hu : u.getLast? with
    | none => rfl
    | some c =>
      obtain ⟨h₁, h₂, h₃, h₄⟩ := hprev c hu
      simp [h₁, h₂, h₃, h₄]
  rw [standsAlone, isCompound, hnext, hlast]
  rfl

/-- The last character of what stands in front of the default is that of the type, or of the
name with its question mark. -/
theorem getLast?_front (h : p.IsWritten) :
    p.front.getLast? = ((p.type.map Signed.text).getD p.bare).getLast? := by
  rw [ParamText.front]
  cases ht : p.type with
  | none => simp
  | some s =>
    have hne := (h.type s ht).1.piece.ne_nil
    have hsplit : p.bare ++ s.written ':' = p.bare ++ (s.before ++ ':' :: s.behind) ++ s.text := by
      simp [Signed.written]
    rw [Option.map_some, Option.map_some, Option.getD_some, Option.getD_some, hsplit,
      List.getLast?_append_of_ne_nil _ hne]

/-- The equals sign in front of the default stands for itself, except where it makes a comparison
with the type. -/
theorem standsAlone_default (h : p.IsWritten) (hd : d ∈ p.default) (hfree : ¬ p.Crowded) :
    standsAlone '=' (p.front ++ d.before).getLast? (d.behind ++ d.text) = true := by
  obtain ⟨hequals, hangle⟩ := h.head?_default hd
  refine standsAlone_equals hequals hangle fun c hc => ?_
  rw [List.getLast?_append] at hc
  -- blanks keep the sign apart; without any, the type or the name stands next to it
  cases hb : d.before.getLast? with
  | some b =>
    rw [hb, Option.some_or] at hc
    obtain rfl : b = c := Option.some.inj hc
    have hblank := Text.isBlankChar_of_mem (h.default d hd).1.before (List.mem_of_getLast? hb)
    have hne : ∀ e, Text.isBlankChar e = false → b ≠ e := by
      rintro e he rfl
      rw [he] at hblank
      cases hblank
    exact ⟨hne _ (by decide), hne _ (by decide), hne _ (by decide), hne _ (by decide)⟩
  | none =>
    rw [hb, Option.none_or, getLast?_front h] at hc
    cases ht : p.type with
    | none =>
      rw [ht] at hc
      obtain ⟨hplain, hsign, -, hmark⟩ := h.plain (List.mem_of_mem_getLast? hc)
      have hangles : c ≠ '<' ∧ c ≠ '>' := hplain.2 .angle (by decide)
      refine ⟨?_, hmark, hangles⟩
      rintro rfl
      exact hsign (by decide)
    | some s =>
      rw [ht] at hc
      have hlast : s.text.getLast? = some c := hc
      obtain ⟨hs, harrows⟩ := h.type s ht
      have hends := getLast?_of_arrowsOnly (Int.le_refl 0) hs.piece.closes harrows
      rw [hlast] at hends
      have hcompares : comparesWith s.text = false := by
        refine Bool.eq_false_iff.mpr fun hcompares => hfree ⟨s, ht, d, hd, ?_, hcompares⟩
        exact List.getLast?_eq_none_iff.mp hb
      rw [comparesWith, hlast] at hcompares
      simpa [and_comm, and_assoc, and_left_comm] using And.intro hends hcompares

/-! ## Reading a parameter -/

/-- What is recorded follows from where the parameter is cut. -/
theorem param?_of_cuts (h : p.IsWritten) (hraw : Text.trim raw = p.text)
    (hequals : headAndRest '=' (p.front ++ (p.default.map (Signed.written '=')).getD []) =
      (head, default))
    (hcolon : headAndRest ':' head = (p.bare, type)) :
    param? raw = some
      { name := textOf p.name, typeText := type.bind nonempty?,
        optional := p.marked || default.isSome, defaultValue := default.bind nonempty?,
        rest := p.rest } := by
  exact param?_of_parts hraw (dropModifiers_text h) rfl (h.head?_front _) hequals hcolon
    ⟨h.named, h.no_mark, fun c hc => Text.isBlankChar_of_isNameChar (h.isName c hc)⟩

theorem nonempty?_of_isPiece (hu : IsPiece u) : nonempty? u = some (textOf u) := by
  simp [nonempty?, hu.ne_nil]

/-- Behind blanks, what is trimmed is a text that is trimmed in front, with what follows it. -/
theorem trim_behind (h : s.IsWritten) (x : List Char) :
    Text.trim (s.behind ++ (s.text ++ '=' :: x)) = s.text ++ '=' :: Text.trimEnd x := by
  rw [Text.trim_append_of_isBlank h.behind, Text.trim_append_cons h.piece.trimmed (by decide)]

/-- The type stands behind the first colon of what is left in front of the default. -/
theorem headAndRest_front (h : p.IsWritten) :
    headAndRest ':' p.front = (p.bare, p.type.map Signed.text) := by
  rw [ParamText.front]
  cases ht : p.type with
  | none =>
    rw [Option.map_none, Option.getD_none, List.append_nil]
    exact headAndRest_bare h (by decide)
  | some s =>
    have hs := (h.type s ht).1
    rw [Option.map_some, Option.getD_some, Signed.written, ← List.append_assoc,
      headAndRest_colon h hs.before, Text.trim_append_of_isBlank hs.behind, hs.piece.trimmed]
    rfl

/-- A parameter is read as it is written, if it is not crowded. -/
theorem param?_text (h : p.IsWritten) (hraw : Text.trim raw = p.text) (hfree : ¬ p.Crowded) :
    param? raw = some p.record := by
  have hpart : ∀ {o : Option Signed}, (∀ s ∈ o, s.IsWritten) →
      (o.map Signed.text).bind nonempty? = o.map fun s => textOf s.text := by
    intro o ho
    cases o with
    | none => rfl
    | some s => exact nonempty?_of_isPiece (ho s rfl).piece
  -- the first cut is at the default, and the second one is at the type in front of it
  have hequals : headAndRest '=' (p.front ++ (p.default.map (Signed.written '=')).getD []) =
      (p.front, p.default.map Signed.text) := by
    cases hd : p.default with
    | none =>
      rw [Option.map_none, Option.getD_none, List.append_nil, headAndRest,
        cutOuter?_eq_none_of_passes (passes_front h)]
      rfl
    | some d =>
      have hwritten := (h.default d hd).1
      have hpasses : Passes '=' none (p.front ++ d.before) :=
        (passes_front h).append (passes_of_plain (plain_of_isBlank (by decide) hwritten.before) _)
      rw [Option.map_some, Option.getD_some, Signed.written, ← List.append_assoc,
        headAndRest_of_passes (by decide) hpasses (standsAlone_default h hd hfree),
        Text.trim_append_of_isBlank_right hwritten.before, trim_front h,
        Text.trim_append_of_isBlank hwritten.behind, hwritten.piece.trimmed]
      rfl
  rw [param?_of_cuts h hraw hequals (headAndRest_front h), hpart fun s hs => (h.type s hs).1,
    hpart fun s hs => (h.default s hs).1, Option.isSome_map]
  rfl

/-- The type of a crowded parameter goes on to the next equals sign that stands for itself. -/
theorem param?_crowded (h : p.IsWritten) (hraw : Text.trim raw = p.text) (hs : s ∈ p.type)
    (hd : d ∈ p.default) (hbefore : d.before = []) (hcompares : comparesWith s.text = true) :
    param? raw = some (p.crowdedRecord s d) := by
  have hwritten := (h.type s hs).1
  obtain ⟨hequals, hangle⟩ := h.head?_default hd
  have hcompound : standsAlone '=' p.front.getLast? (d.behind ++ d.text) = false := by
    rw [getLast?_front h, hs, Option.map_some, Option.getD_some, standsAlone, isCompound]
    rcases Bool.or_eq_true_iff.mp hcompares with hlast | hlast
    · simp [of_decide_eq_true hlast]
    · simp [of_decide_eq_true hlast]
  have hcut := cutOuter?_of_compound (passes_front h) hcompound hequals hangle
  have hfront : ∀ x, p.front ++ '=' :: x =
      p.bare ++ s.before ++ ':' :: (s.behind ++ (s.text ++ '=' :: x)) := by
    intro x
    rw [ParamText.front, hs]
    simp [Signed.written]
  have hcolon : ∀ x, headAndRest ':' (p.front ++ '=' :: x) =
      (p.bare, some (s.text ++ '=' :: Text.trimEnd x)) := by
    intro x
    rw [hfront, headAndRest_colon h hwritten.before, trim_behind hwritten]
  have htext : (p.default.map (Signed.written '=')).getD [] = '=' :: (d.behind ++ d.text) := by
    rw [hd, Option.map_some, Option.getD_some, Signed.written, hbefore, List.nil_append]
  have hnonempty : ∀ x, nonempty? (s.text ++ '=' :: x) = some (textOf (s.text ++ '=' :: x)) := by
    intro x
    simp [nonempty?]
  -- the sign of the default is part of a comparison, so the text is cut at a later one or nowhere
  cases hnext : cutOuter? '=' (d.behind ++ d.text) with
  | none =>
    have hwhole : headAndRest '=' (p.front ++ (p.default.map (Signed.written '=')).getD []) =
        (p.front ++ '=' :: (d.behind ++ d.text), none) := by
      rw [htext, headAndRest, hcut, hnext]
      rfl
    rw [param?_of_cuts h hraw hwhole (hcolon _), ParamText.crowdedRecord, hnext]
    simp [ParamText.record, hnonempty]
  | some cut =>
    have hwhole : headAndRest '=' (p.front ++ (p.default.map (Signed.written '=')).getD []) =
        (p.front ++ '=' :: Text.trimEnd cut.1, some (Text.trim cut.2)) := by
      rw [htext, headAndRest, hcut, hnext]
      exact congrArg (·, _) (Text.trim_append_cons (trim_front h) (by decide) _)
    rw [param?_of_cuts h hraw hwhole (hcolon _), ParamText.crowdedRecord, hnext]
    simp [ParamText.record, hnonempty, Text.trimEnd_trimEnd]

/-! ## Lists -/

theorem reading_cases (p : ParamText) : (¬ p.Crowded ∧ p.reading = p.record) ∨
    ∃ s ∈ p.type, ∃ d ∈ p.default, d.before = [] ∧ comparesWith s.text = true ∧
      p.reading = p.crowdedRecord s d := by
  unfold ParamText.reading ParamText.Crowded
  split
  · rename_i s d hs hd
    split
    · rename_i hcrowded
      obtain ⟨hbefore, hcompares⟩ := Bool.and_eq_true_iff.mp hcrowded
      exact .inr ⟨s, hs, d, hd, List.isEmpty_iff.mp hbefore, hcompares, rfl⟩
    · rename_i hfree
      refine .inl ⟨?_, rfl⟩
      rintro ⟨s', hs', d', hd', hbefore, hcompares⟩
      obtain rfl : s = s' := Option.some.inj (hs.symm.trans hs')
      obtain rfl : d = d' := Option.some.inj (hd.symm.trans hd')
      exact hfree (by rw [hbefore, hcompares]; rfl)
  · rename_i hpart
    refine .inl ⟨?_, rfl⟩
    rintro ⟨s, hs, d, hd, -⟩
    exact hpart s d hs hd

theorem param?_eq_reading (h : p.IsWritten) (hraw : Text.trim raw = p.text) :
    param? raw = some p.reading := by
  rcases reading_cases p with ⟨hfree, hreading⟩ | ⟨s, hs, d, hd, hbefore, hcompares, hreading⟩
  · rw [hreading]
    exact param?_text h hraw hfree
  · rw [hreading]
    exact param?_crowded h hraw hs hd hbefore hcompares

/-- A crowded parameter is taken for one with a longer type. -/
theorem reading_eq_record_iff (p : ParamText) : p.reading = p.record ↔ ¬ p.Crowded := by
  rcases reading_cases p with ⟨hfree, hreading⟩ | ⟨s, hs, d, hd, hbefore, hcompares, hreading⟩
  · exact iff_of_true hreading hfree
  · refine iff_of_false ?_ (not_not_intro ⟨s, hs, d, hd, hbefore, hcompares⟩)
    rw [hreading]
    intro hsame
    have htype := congrArg Parameter.typeText hsame
    have hs : p.type = some s := hs
    rw [ParamText.record, hs] at htype
    have hlength := congrArg List.length (String.ofList_injective (Option.some.inj htype))
    simp at hlength

/-- A list of parameters, with commas between them and any blanks around the commas, is read
parameter by parameter, and it is read as it was written exactly if no parameter is crowded. -/
theorem params_paramTexts {ts : List (List Char)} {ps : List ParamText}
    (hps : ∀ p ∈ ps, p.IsWritten) (hts : ts.map Text.trim = ps.map ParamText.text) :
    params ([','].intercalate ts) = ps.map ParamText.reading ∧
      (params ([','].intercalate ts) = ps.map ParamText.record ↔ ∀ p ∈ ps, ¬ p.Crowded) := by
  have hentry : ∀ p ∈ ps, Text.trim p.text = p.text := by
    intro p hp
    obtain ⟨u, -, htext⟩ := List.mem_map.mp (hts ▸ List.mem_map_of_mem (f := ParamText.text) hp)
    rw [← htext, Text.trim_trim]
  -- a parameter holds no comma outside its brackets
  have hlist : splitOuter ',' ([','].intercalate ts) = ps.map ParamText.text := by
    rw [← hts]
    refine splitOuter_of_fills isSeparator_comma fun u hu => ?_
    obtain ⟨p, hp, htext⟩ := List.mem_map.mp (hts ▸ List.mem_map_of_mem (f := Text.trim) hu)
    rw [← htext]
    refine ⟨(hps p hp).text_ne_nil, Fills.of_trim rfl ?_⟩
    rw [← htext]
    exact (hps p hp).fills
  have hread : params ([','].intercalate ts) = ps.map ParamText.reading := by
    rw [params, hlist, List.filterMap_map, ← List.filterMap_eq_map]
    refine List.filterMap_congr fun p hp => ?_
    rw [Function.comp_apply, Function.comp_apply]
    exact param?_eq_reading (hps p hp) (hentry p hp)
  refine ⟨hread, ?_⟩
  rw [hread, List.map_inj_left]
  exact forall₂_congr fun p _ => reading_eq_record_iff p

end

/-- Blanks around the signs make no difference, and neither do commas and equals signs inside
brackets. -/
theorem params_paramTexts_spaced :
    params "...xs: Pair<A, B>[] , f :(a: A)=>void= (a, b) => [a]".toList =
      [{ name := "xs", typeText := some "Pair<A, B>[]", rest := true },
       { name := "f", typeText := some "(a: A)=>void", optional := true,
         defaultValue := some "(a, b) => [a]" }] := by
  let xs : ParamText := ⟨true, "xs".toList, false, some ⟨[], [' '], "Pair<A, B>[]".toList⟩, none⟩
  let f : ParamText := ⟨false, "f".toList, false, some ⟨[' '], [], "(a: A)=>void".toList⟩,
    some ⟨[], [' '], "(a, b) => [a]".toList⟩⟩
  have hxs : xs.IsWritten := by
    refine ⟨by decide, List.all_eq_true.mp (by decide), by decide, ?_, nofun⟩
    rintro s ⟨⟩
    exact ⟨⟨rfl, rfl, by decide⟩, by decide⟩
  have hf : f.IsWritten := by
    refine ⟨by decide, List.all_eq_true.mp (by decide), by decide, ?_, ?_⟩
    · rintro s ⟨⟩
      exact ⟨⟨rfl, rfl, by decide⟩, by decide⟩
    · rintro d ⟨⟩
      exact ⟨⟨rfl, rfl, by decide⟩, by decide, by decide⟩
  have hfree : ∀ p ∈ [xs, f], ¬ p.Crowded := by
    intro p hp
    rcases List.mem_pair.mp hp with rfl | rfl
    · rintro ⟨-, -, -, ⟨⟩, -⟩
    · rintro ⟨_, ⟨⟩, _, ⟨⟩, -, hcompares⟩
      revert hcompares
      decide
  have hps : ∀ p ∈ [xs, f], p.IsWritten := by
    intro p hp
    rcases List.mem_pair.mp hp with rfl | rfl
    · exact hxs
    · exact hf
  have hts : ["...xs: Pair<A, B>[] ".toList, " f :(a: A)=>void= (a, b) => [a]".toList].map
      Text.trim = [xs, f].map ParamText.text := by decide
  exact (params_paramTexts hps hts).2.mpr hfree

/-- An equals sign directly behind a type in angle brackets is read as part of the type. -/
theorem params_crowded : ∃ p : ParamText, p.IsWritten ∧ p.text = "a:Array<number>=x".toList ∧
    p.record = { name := "a", typeText := some "Array<number>", optional := true,
                 defaultValue := some "x" } ∧
    params "a:Array<number>=x".toList = [{ name := "a", typeText := some "Array<number>=x" }] := by
  let p : ParamText := ⟨false, "a".toList, false, some ⟨[], [], "Array<number>".toList⟩,
    some ⟨[], [], "x".toList⟩⟩
  have hwritten : p.IsWritten := by
    refine ⟨by decide, List.all_eq_true.mp (by decide), by decide, ?_, ?_⟩
    · rintro s ⟨⟩
      exact ⟨⟨rfl, rfl, by decide⟩, by decide⟩
    · rintro d ⟨⟩
      exact ⟨⟨rfl, rfl, by decide⟩, by decide, by decide⟩
  have hparam : param? p.text =
      some { name := "a", typeText := some "Array<number>=x" } := by
    rw [param?_eq_reading hwritten (by decide)]
    decide
  have hlist : splitOuter ',' "a:Array<number>=x".toList = [p.text] := by decide
  refine ⟨p, hwritten, by decide, by decide, ?_⟩
  rw [params, hlist, List.filterMap_cons_some hparam]
  rfl

end CodeAtlas.Brace
