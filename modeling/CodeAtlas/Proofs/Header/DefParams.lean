/-
Parameter lists of the indentation family as they are written.

A list is made of parameters and markers. A parameter is given by its parts: the stars, the name,
an annotation behind a colon and a default behind an equals sign, with any blanks around these two
signs (`ParamText`). The comma and the equals sign are looked for outside groups and literals, each
by a reader of its own, and the colon is the first one. Annotations and defaults are nested texts,
so that none of the three finds its sign inside one of them, and the list is read back as it was
written (`params_paramItems`).
-/
import CodeAtlas.Header.Indent.Function
import CodeAtlas.Proofs.Header.ParamList

set_option autoImplicit false

namespace CodeAtlas

/-! ## First occurrences -/

namespace Text

variable {c : Char} {u : List Char}

theorem cut?_of_notMem (h : c ∉ u) (r : List Char) : cut? [c] (u ++ c :: r) = some (u, r) := by
  induction u with
  | nil => simp [cut?, after?]
  | cons d u ih =>
    obtain ⟨hne, hmore⟩ := not_or.mp (List.mem_cons.not.mp h)
    have hother : after? [c] (d :: (u ++ c :: r)) = none := by simp [after?, hne]
    rw [List.cons_append, cut?, hother, ih hmore]
    rfl

theorem cut?_eq_none_of_notMem (h : c ∉ u) : cut? [c] u = none := by
  induction u with
  | nil => rfl
  | cons d u ih =>
    obtain ⟨hne, hmore⟩ := not_or.mp (List.mem_cons.not.mp h)
    have hother : after? [c] (d :: u) = none := by simp [after?, hne]
    rw [cut?, hother, ih hmore]
    rfl

end Text

namespace Indent

open Brace (Signed)

/-! ## Parts -/

/-- The parts of a parameter. -/
structure ParamText where
  stars : Nat
  name : List Char
  type : Option Signed
  default : Option Signed

/-- A text that may stand behind a sign, and the blanks around the sign. Its commas stand in groups
and literals. -/
structure IsPart (s : Signed) : Prop where
  before : Text.isBlank s.before = true
  behind : Text.isBlank s.behind = true
  filled : s.text ≠ []
  trimmed : Text.trim s.text = s.text
  noSign : '\\' ∉ s.text ∧ '<' ∉ s.text ∧ '>' ∉ s.text
  nested : Nested LiteralText (some ',') s.text

/-- The characters that are no brackets and no quotes and do not stand in names. -/
def nameStops : List Char := [',', ':', '=', '!', '*']

namespace ParamText

/-- What stands in front of the default, behind the stars. -/
def front (p : ParamText) : List Char := p.name ++ (p.type.map (Signed.written ':')).getD []

def body (p : ParamText) : List Char :=
  p.front ++ (p.default.map (Signed.written '=')).getD []

def text (p : ParamText) : List Char := List.replicate p.stars '*' ++ p.body

/-- What the parameter says. -/
def record (p : ParamText) : Parameter where
  name := textOf p.name
  typeText := p.type.map fun s => textOf s.text
  optional := p.default.isSome
  defaultValue := p.default.map fun s => textOf s.text
  rest := 0 < p.stars

/-- The name is no marker. The equals signs of the annotation stand in groups and literals, and
neither it nor the default makes a comparison of the sign between them. -/
structure IsWritten (p : ParamText) : Prop where
  named : p.name ≠ []
  isName : ∀ c ∈ p.name, IsPlain c ∧ c ∉ nameStops ∧ Text.isBlankChar c = false
  noMarker : ∀ m ∈ paramMarkers, m.toList ≠ p.name
  type : ∀ s ∈ p.type, IsPart s ∧ Nested LiteralText (some '=') s.text ∧ s.text.getLast? ≠ some '!'
  default : ∀ s ∈ p.default, IsPart s ∧ s.text.head? ≠ some '='

end ParamText

/-- What stands between two commas. -/
inductive ParamItem where
  | marker (m : String)
  | param (p : ParamText)

namespace ParamItem

def text : ParamItem → List Char
  | marker m => m.toList
  | param p => p.text

/-- A marker is no parameter. -/
def record? : ParamItem → Option Parameter
  | marker _ => none
  | param p => some p.record

def IsWritten : ParamItem → Prop
  | marker m => m ∈ paramMarkers
  | param p => p.IsWritten

end ParamItem

/-! ## The list -/

section

variable {p : ParamText} {s d : Signed} {sign c : Char}

theorem IsPart.shut_written (h : IsPart s) (hsign : IsPlain sign) (hne : sign ≠ ',') :
    Nested ShutText (some ',') (s.written sign) := by
  have hone : Nested ShutText (some ',') [sign] := nested_of_plain fun c hc => by
    rw [List.mem_singleton.mp hc]
    exact ⟨hsign, fun heq => hne (Option.some.inj heq).symm⟩
  have hbehind := (nested_of_isBlank (by decide) h.behind).append (h.nested.shut h.noSign.1)
  exact (nested_of_isBlank (by decide) h.before).append (hone.append hbehind)

theorem ParamText.IsWritten.plain (h : p.IsWritten) (hsign : sign ∈ nameStops) :
    ∀ c ∈ p.name, IsPlain c ∧ c ≠ sign := by
  intro c hc
  obtain ⟨hplain, hstops, -⟩ := h.isName c hc
  exact ⟨hplain, fun heq => hstops (heq ▸ hsign)⟩

theorem ParamText.IsWritten.shut (h : p.IsWritten) : Nested ShutText (some ',') p.text := by
  have hstars : Nested ShutText (some ',') (List.replicate p.stars '*') :=
    nested_of_plain fun c hc => by
      rw [(List.mem_replicate.mp hc).2]
      decide
  have hname : Nested ShutText (some ',') p.name := nested_of_plain fun c hc => by
    obtain ⟨hplain, hne⟩ := h.plain (show ',' ∈ nameStops by decide) c hc
    exact ⟨hplain, fun heq => hne (Option.some.inj heq).symm⟩
  have hpart : ∀ {o : Option Signed}, (∀ s ∈ o, IsPart s) → ∀ sign, IsPlain sign ∧ sign ≠ ',' →
      Nested ShutText (some ',') ((o.map (Signed.written sign)).getD []) := by
    intro o ho sign hsign
    cases o with
    | none => exact .nil
    | some s => exact (ho s rfl).shut_written hsign.1 hsign.2
  have htype := hpart (fun s hs => (h.type s hs).1) ':' (by decide)
  have hdefault := hpart (fun s hs => (h.default s hs).1) '=' (by decide)
  exact hstars.append ((hname.append htype).append hdefault)

theorem ParamItem.IsWritten.shut {i : ParamItem} (h : i.IsWritten) :
    Nested ShutText (some ',') i.text := by
  cases i with
  | param p => exact ParamText.IsWritten.shut h
  | marker m =>
    have hplain : ∀ m ∈ paramMarkers, ∀ c ∈ m.toList, IsPlain c ∧ some ',' ≠ some c :=
      List.all_iff_forall_prop.mp (by decide)
    exact nested_of_plain (hplain m h)

theorem ParamItem.IsWritten.text_ne_nil {i : ParamItem} (h : i.IsWritten) : i.text ≠ [] := by
  cases i with
  | param p =>
    have hnamed : p.name ≠ [] := ParamText.IsWritten.named h
    simp [ParamItem.text, ParamText.text, ParamText.body, ParamText.front, hnamed]
  | marker m =>
    have hmarkers : ∀ m ∈ paramMarkers, m.toList ≠ [] := by decide
    exact hmarkers m h

/-! ## Cutting a parameter -/

/-- No equals sign in front of the default is found. -/
theorem passes_front (h : p.IsWritten) : Passes '=' none p.front := by
  refine (passes_of_plain (h.plain (by decide)) none).append ?_
  cases ht : p.type with
  | none => exact passes_nil _
  | some s =>
    obtain ⟨hs, hnested, -⟩ := h.type s ht
    have hsign : ∀ c ∈ s.before ++ ':' :: s.behind, IsPlain c ∧ c ≠ '=' := by
      intro c hc
      rcases List.mem_append.mp hc with hbefore | hmore
      · exact Brace.plain_of_isBlank (by decide) hs.before c hbefore
      · rcases List.mem_cons.mp hmore with rfl | hbehind
        · decide
        · exact Brace.plain_of_isBlank (by decide) hs.behind c hbehind
    have hsplit : s.written ':' = (s.before ++ ':' :: s.behind) ++ s.text := by
      simp [Signed.written]
    rw [Option.map_some, Option.getD_some, hsplit]
    exact (passes_of_plain hsign _).append (hnested.passes (by decide) _)

/-- A name, with an annotation or without, ends in a character that makes no comparison. -/
theorem ParamText.IsWritten.last_front (h : p.IsWritten) (hc : c ∈ p.front.getLast?) :
    c ≠ '=' ∧ c ≠ '!' ∧ c ≠ '<' ∧ c ≠ '>' := by
  cases ht : p.type with
  | none =>
    rw [ParamText.front, ht, Option.map_none, Option.getD_none, List.append_nil] at hc
    obtain ⟨hplain, hstops, -⟩ := h.isName c (List.mem_of_mem_getLast? hc)
    have hstop : ∀ d ∈ nameStops, c ≠ d := fun d hd heq => hstops (heq ▸ hd)
    exact ⟨hstop '=' (by decide), hstop '!' (by decide), hplain.2 .angle (by decide)⟩
  | some s =>
    obtain ⟨hs, hnested, hmark⟩ := h.type s ht
    have hsplit : p.front = p.name ++ (s.before ++ ':' :: s.behind) ++ s.text := by
      simp [ParamText.front, ht, Signed.written]
    rw [hsplit, List.getLast?_append_of_ne_nil _ hs.filled] at hc
    have hmem := List.mem_of_mem_getLast? hc
    refine ⟨?_, ?_, ?_, ?_⟩
    · rintro rfl
      exact hnested.getLast?_ne (by decide) rfl hc
    · rintro rfl
      exact hmark hc
    · rintro rfl
      exact hs.noSign.2.1 hmem
    · rintro rfl
      exact hs.noSign.2.2 hmem

/-- The equals sign in front of the default stands for itself. -/
theorem standsAlone_default (h : p.IsWritten) (hd : d ∈ p.default) :
    standsAlone '=' (p.front ++ d.before).getLast? (d.behind ++ d.text) = true := by
  obtain ⟨hpart, hequals⟩ := h.default d hd
  have hblank : ∀ {e : Char}, Text.isBlankChar e = true →
      e ≠ '=' ∧ e ≠ '!' ∧ e ≠ '<' ∧ e ≠ '>' := by
    intro e he
    refine ⟨?_, ?_, ?_, ?_⟩ <;> rintro rfl <;> cases he
  -- no sign that would make it a compound stands on either side
  have hbehind : (d.behind ++ d.text).head? ≠ some '=' ∧
      (d.behind ++ d.text).head? ≠ some '>' := by
    cases hb : d.behind with
    | nil => exact ⟨hequals, fun hhead => hpart.noSign.2.2 (List.mem_of_mem_head? hhead)⟩
    | cons e g =>
      have he := hblank (Text.isBlankChar_of_mem hpart.behind (by rw [hb]; exact List.mem_cons_self))
      exact ⟨fun heq => he.1 (Option.some.inj heq), fun heq => he.2.2.2 (Option.some.inj heq)⟩
  refine Brace.standsAlone_equals hbehind.1 hbehind.2 fun c hc => ?_
  rw [List.getLast?_append] at hc
  cases hb : d.before.getLast? with
  | none =>
    rw [hb, Option.none_or] at hc
    exact h.last_front hc
  | some e =>
    rw [hb, Option.some_or] at hc
    obtain rfl : e = c := Option.some.inj hc
    exact hblank (Text.isBlankChar_of_mem hpart.before (List.mem_of_getLast? hb))

/-! ## Reading a parameter -/

/-- What stands in front of the default, and the default. -/
def cutDefault (t : List Char) : List Char × Option String :=
  match cutOuter? '=' t with
  | some (l, r) => (Text.trim l, some (trimmedText r))
  | none => (t, none)

/-- What stands in front of the annotation, and the annotation. -/
def cutType (t : List Char) : List Char × Option String :=
  match Text.cut? [':'] t with
  | some (l, r) => (l, nonempty? (Text.trim r))
  | none => (t, none)

/-- What is recorded follows from where the parameter is cut. -/
theorem param?_eq (raw : List Char) : param? raw =
    let t := Text.trim raw
    let front := cutDefault (t.dropWhile (· = '*'))
    let name := Text.trim (cutType front.1).1
    if t.isEmpty || paramMarkers.contains (textOf t) then none
    else if name.isEmpty then none
    else
      some { name := textOf name, typeText := (cutType front.1).2, optional := front.2.isSome,
             defaultValue := front.2, rest := t.head? = some '*' } := rfl

theorem ParamText.IsWritten.trim_name (h : p.IsWritten) : Text.trim p.name = p.name :=
  Text.trim_eq_self_of_forall fun c hc => (h.isName c hc).2.2

/-- What stands in front of the default is trimmed. -/
theorem ParamText.IsWritten.trim_front (h : p.IsWritten) : Text.trim p.front = p.front := by
  rw [ParamText.front]
  cases ht : p.type with
  | none =>
    rw [Option.map_none, Option.getD_none, List.append_nil]
    exact h.trim_name
  | some s =>
    have hs := (h.type s ht).1
    obtain ⟨c, v, hname⟩ := List.exists_cons_of_ne_nil h.named
    have hc := (h.isName c (by rw [hname]; exact List.mem_cons_self)).2.2
    have htrim := Text.trim_append_eq_self hc (v ++ (s.before ++ ':' :: s.behind)) hs.trimmed
      hs.filled
    rw [hname]
    simpa [Signed.written] using htrim

/-- The default stands behind the first equals sign that separates. -/
theorem cutDefault_body (h : p.IsWritten) :
    cutDefault p.body = (p.front, p.default.map fun d => textOf d.text) := by
  rw [cutDefault]
  cases hd : p.default with
  | none =>
    have hbody : p.body = p.front := by simp [ParamText.body, hd]
    rw [hbody, cutOuter?_eq_none_of_passes (passes_front h)]
    rfl
  | some d =>
    obtain ⟨hpart, -⟩ := h.default d hd
    have hbody : p.body = p.front ++ d.before ++ '=' :: (d.behind ++ d.text) := by
      simp [ParamText.body, hd, Signed.written]
    have hpasses : Passes '=' none (p.front ++ d.before) :=
      (passes_front h).append
        (passes_of_plain (Brace.plain_of_isBlank (by decide) hpart.before) _)
    have hfront : Text.trim (p.front ++ d.before) = p.front := by
      rw [Text.trim_append_of_isBlank_right hpart.before, h.trim_front]
    have htext : trimmedText (d.behind ++ d.text) = textOf d.text := by
      rw [trimmedText, Text.trim_append_of_isBlank hpart.behind, hpart.trimmed, textOf]
    rw [hbody, cutOuter?_of_passes (by decide) hpasses (standsAlone_default h hd)]
    simp only [hfront, htext, Option.map_some]

/-- The annotation stands behind the first colon. -/
theorem exists_cutType_front (h : p.IsWritten) : ∃ u, Text.trim u = p.name ∧
    cutType p.front = (u, p.type.map fun s => textOf s.text) := by
  rw [cutType]
  have hname : ':' ∉ p.name := fun hmem =>
    (h.plain (show ':' ∈ nameStops by decide) _ hmem).2 rfl
  cases ht : p.type with
  | none =>
    have hfront : p.front = p.name := by simp [ParamText.front, ht]
    rw [hfront, Text.cut?_eq_none_of_notMem hname]
    exact ⟨p.name, h.trim_name, rfl⟩
  | some s =>
    obtain ⟨hpart, -⟩ := h.type s ht
    have hfront : p.front = p.name ++ s.before ++ ':' :: (s.behind ++ s.text) := by
      simp [ParamText.front, ht, Signed.written]
    have hcolon : ':' ∉ p.name ++ s.before := by
      rw [List.mem_append, not_or]
      exact ⟨hname, Text.notMem_of_isBlank hpart.before (by decide)⟩
    have htext : nonempty? s.text = some (textOf s.text) := by simp [nonempty?, hpart.filled]
    rw [hfront, Text.cut?_of_notMem hcolon]
    refine ⟨p.name ++ s.before, ?_, ?_⟩
    · rw [Text.trim_append_of_isBlank_right hpart.before, h.trim_name]
    · simp only [Text.trim_append_of_isBlank hpart.behind, hpart.trimmed, htext, Option.map_some]

/-- The stars in front are dropped, and they are what tells a rest parameter. -/
theorem dropWhile_text (h : p.IsWritten) :
    p.text.dropWhile (· = '*') = p.body ∧ decide (p.text.head? = some '*') = decide (0 < p.stars) := by
  obtain ⟨c, v, hname⟩ := List.exists_cons_of_ne_nil h.named
  have hc : c ≠ '*' :=
    (h.plain (show '*' ∈ nameStops by decide) c (by rw [hname]; exact List.mem_cons_self)).2
  obtain ⟨w, hbody⟩ : ∃ w, p.body = c :: w := by
    rw [ParamText.body, ParamText.front, hname, List.cons_append, List.cons_append]
    exact ⟨_, rfl⟩
  rw [ParamText.text, hbody]
  constructor
  · rw [List.dropWhile_append_of_pos fun d hd => by simp [(List.mem_replicate.mp hd).2],
      List.dropWhile_cons_of_neg (by simpa using hc)]
  · cases p.stars with
    | zero => simp [hc]
    | succ n => simp [List.replicate_succ]

/-- A parameter is no marker: the signs in it are in no marker, and without them it is its
name. -/
theorem text_ne_marker (h : p.IsWritten) {m : String} (hm : m ∈ paramMarkers) :
    p.text ≠ m.toList := by
  intro heq
  have hmarkers : ∀ m ∈ paramMarkers, m.toList.dropWhile (· = '*') = [] ∨
      m.toList.dropWhile (· = '*') = m.toList ∧ ':' ∉ m.toList ∧ '=' ∉ m.toList := by decide
  have hbody := (dropWhile_text h).1
  rw [heq] at hbody
  rcases hmarkers m hm with hnil | ⟨hself, hcolon, hequals⟩
  · rw [hnil] at hbody
    simp [ParamText.body, ParamText.front, h.named] at hbody
  · rw [hself] at hbody
    rw [hbody] at hcolon hequals
    have htype : p.type = none := by
      cases ht : p.type with
      | none => rfl
      | some s => simp [ParamText.body, ParamText.front, ht, Signed.written] at hcolon
    have hdefault : p.default = none := by
      cases hd : p.default with
      | none => rfl
      | some d => simp [ParamText.body, hd, Signed.written] at hequals
    refine h.noMarker m hm ?_
    simpa [ParamText.body, ParamText.front, htype, hdefault] using hbody

/-- What stands between two commas is read as it is written. -/
theorem param?_text {i : ParamItem} (h : i.IsWritten) {raw : List Char}
    (hraw : Text.trim raw = i.text) : param? raw = i.record? := by
  cases i with
  | marker m =>
    have hm : paramMarkers.contains (textOf m.toList) = true := by
      rw [textOf, String.ofList_toList]
      exact List.contains_iff_mem.mpr h
    rw [ParamItem.text] at hraw
    simp only [param?, hraw, hm, Bool.or_true, if_true, ParamItem.record?]
  | param p =>
    have hp : p.IsWritten := h
    have hempty : p.text.isEmpty = false := by
      rw [List.isEmpty_eq_false_iff]
      exact ParamItem.IsWritten.text_ne_nil (i := .param p) h
    have hmarker : paramMarkers.contains (textOf p.text) = false :=
      Bool.eq_false_iff.mpr fun hmem =>
        text_ne_marker hp (List.contains_iff_mem.mp hmem) String.toList_ofList.symm
    have hname : p.name.isEmpty = false := List.isEmpty_eq_false_iff.mpr hp.named
    obtain ⟨hdrop, hstars⟩ := dropWhile_text hp
    obtain ⟨u, htrim, hcolon⟩ := exists_cutType_front hp
    rw [ParamItem.text] at hraw
    simp only [param?_eq, hraw, hempty, hmarker, hdrop, cutDefault_body hp, hcolon, htrim, hname,
      hstars, Bool.or_self, Bool.false_eq_true, if_false, Option.isSome_map]
    rfl

/-! ## Lists -/

/-- A list of parameters and markers, with commas between them and any blanks around the commas, is
read parameter by parameter, as it was written. -/
theorem params_paramItems {ts : List (List Char)} {items : List ParamItem}
    (hitems : ∀ i ∈ items, i.IsWritten) (hts : ts.map Text.trim = items.map ParamItem.text) :
    params ([','].intercalate ts) = items.filterMap ParamItem.record? := by
  have hentry : ∀ i ∈ items, Text.trim i.text = i.text := by
    intro i hi
    obtain ⟨t, -, htext⟩ := List.mem_map.mp (hts ▸ List.mem_map_of_mem (f := ParamItem.text) hi)
    rw [← htext, Text.trim_trim]
  have hlist : splitOuter ',' ([','].intercalate ts) = items.map ParamItem.text := by
    rw [← hts]
    refine splitOuter_of_shut isSeparator_comma fun t ht => ?_
    obtain ⟨i, hi, htext⟩ := List.mem_map.mp (hts ▸ List.mem_map_of_mem (f := Text.trim) ht)
    rw [← htext]
    exact ⟨(hitems i hi).text_ne_nil, (hitems i hi).shut⟩
  rw [params, hlist, List.filterMap_map]
  exact List.filterMap_congr fun i hi => param?_text (hitems i hi) (hentry i hi)

end

/-- Markers are dropped, and a comma in a group or a literal does not cut. -/
theorem params_paramItems_nested :
    params "self, d :Dict[str, int]= f(\"a,b\") ,/, *args".toList =
      [{ name := "d", typeText := some "Dict[str, int]", optional := true,
         defaultValue := some "f(\"a,b\")" },
       { name := "args", rest := true }] := by
  let d : ParamText := ⟨0, "d".toList, some ⟨[' '], [], "Dict[str, int]".toList⟩,
    some ⟨[], [' '], "f(\"a,b\")".toList⟩⟩
  let args : ParamText := ⟨1, "args".toList, none, none⟩
  have hplain : ∀ (o : Option Char) (t : List Char), (t.all fun c => IsPlain c ∧ o ≠ some c) →
      ∀ {L}, Nested L o t := fun o t ht _ =>
    nested_of_plain fun c hc => of_decide_eq_true (List.all_eq_true.mp ht c hc)
  have htype : ∀ o, o = some ',' ∨ o = some '=' → Nested LiteralText o "Dict[str, int]".toList := by
    intro o ho
    have hname : Nested LiteralText o "Dict".toList := by
      rcases ho with rfl | rfl <;> exact hplain _ _ (by decide)
    exact hname.append (.group .square (hplain none "str, int".toList (by decide)) nofun .nil)
  have hdefault : Nested LiteralText (some ',') "f(\"a,b\")".toList := by
    have hliteral : LiteralText '"' "a,b".toList :=
      .plain (by decide) (by decide)
        (.plain (by decide) (by decide) (.plain (by decide) (by decide) .nil))
    exact .plain (by decide) (by decide) (.group .round (.literal rfl hliteral .nil) nofun .nil)
  have hd : d.IsWritten := by
    refine ⟨by decide, by decide, by decide, ?_, ?_⟩
    · rintro s ⟨⟩
      exact ⟨⟨rfl, rfl, by decide, by decide, by decide, htype _ (.inl rfl)⟩, htype _ (.inr rfl),
        by decide⟩
    · rintro s ⟨⟩
      exact ⟨⟨rfl, rfl, by decide, by decide, by decide, hdefault⟩, by decide⟩
  have hargs : args.IsWritten := ⟨by decide, by decide, by decide, nofun, nofun⟩
  have hitems : ∀ i ∈ [.marker "self", .param d, .marker "/", .param args],
      ParamItem.IsWritten i := by
    intro i hi
    simp only [List.mem_cons, List.not_mem_nil, or_false] at hi
    rcases hi with rfl | rfl | rfl | rfl
    · exact List.mem_of_elem_eq_true rfl
    · exact hd
    · exact List.mem_of_elem_eq_true rfl
    · exact hargs
  have hts : ["self".toList, " d :Dict[str, int]= f(\"a,b\") ".toList, "/".toList,
      " *args".toList].map Text.trim =
      [.marker "self", .param d, .marker "/", .param args].map ParamItem.text := by decide
  exact params_paramItems hitems hts

end Indent

end CodeAtlas
