/-
Signatures that are read back.

A function is shown on one line, with the types of its parameters and its return type. The first
round bracket of that line opens the parameter list, whatever the types hold: they are balanced, so
that the group ends where the list does, they are cut apart where they were joined, and in each
parameter the first outer colon is the one behind the name. So the readers of headers read from the
line what was shown, which is all of the parameters but their defaults
(`FunctionRecord.signature_read`).
-/
import CodeAtlas.Report.Signature
import CodeAtlas.Proofs.Header.ParamList
import CodeAtlas.Proofs.Header.ReturnType
import CodeAtlas.Proofs.Nesting.Group

set_option autoImplicit false

namespace CodeAtlas

/-! ## What can be shown -/

/-- The signs around the name of a shown parameter. -/
def shownSigns : List Char := [',', ':', '=', '?', '.']

/-- A name: neither blanks nor brackets, quotes or signs stand in it. -/
structure IsShownName (t : List Char) : Prop where
  ne_nil : t ≠ []
  plain : ∀ c ∈ t, IsPlain c ∧ c ∉ shownSigns ∧ Text.isBlankChar c = false

/-- A type that may stand in a list of parameters: its brackets are balanced, and its outer equals
signs are parts of arrows. -/
structure IsShownType (t : List Char) : Prop where
  piece : IsPiece t
  arrows : arrowsOnly ' ' 0 t = true
  closes : closesRound 0 t = true

structure Parameter.IsShown (p : Parameter) : Prop where
  name : IsShownName p.name.toList
  type : ∀ t ∈ p.typeText, IsShownType t.toList

structure FunctionRecord.IsShown (f : FunctionRecord) : Prop where
  name : '(' ∉ f.name.toList
  params : ∀ p ∈ f.params, p.IsShown
  returnType : ∀ t ∈ f.returnType, Brace.IsReturnType t.toList

/-! ## The text of a parameter -/

theorem toList_typeSuffix (o : Option String) :
    (typeSuffix o).toList = (o.map fun t => ':' :: ' ' :: t.toList).getD [] := by
  cases o with
  | none => rfl
  | some t => simp [typeSuffix, String.toList_append]

namespace Parameter

/-- The name with its question mark. -/
def bare (p : Parameter) : List Char := p.name.toList ++ if p.optional then ['?'] else []

/-- What stands behind the dots. -/
def body (p : Parameter) : List Char :=
  p.bare ++ (p.typeText.map fun t => ':' :: ' ' :: t.toList).getD []

theorem toList_shown (p : Parameter) :
    p.shown.toList = (if p.rest then "...".toList else []) ++ p.body := by
  have honly : ∀ (b : Bool) (s : String), (onlyIf b s).toList = if b then s.toList else [] := by
    intro b s
    cases b <;> rfl
  simp only [shown, String.toList_append, honly, toList_typeSuffix, body, bare, List.append_assoc]
  rfl

variable {p : Parameter} {c : Char} {t w : List Char} {ts : List (List Char)}

theorem IsShown.plain (h : p.IsShown) (hc : c ∈ p.bare) :
    IsPlain c ∧ c ∉ Brace.paramSigns ∧ Text.isBlankChar c = false := by
  rcases List.mem_append.mp hc with hname | hmark
  · obtain ⟨hplain, hsigns, hblack⟩ := h.name.plain c hname
    have hfewer : Brace.paramSigns ⊆ shownSigns := by decide
    exact ⟨hplain, fun hmem => hsigns (hfewer hmem), hblack⟩
  · have heq : c = '?' := by
      by_contra hne
      cases ho : p.optional <;> simp [ho, hne] at hmark
    rw [heq]
    decide

/-- The parameter is a text without brackets and blanks up to its type. -/
theorem IsShown.exists_front (h : p.IsShown) : ∃ w, w ≠ [] ∧
    (∀ c ∈ w, IsPlain c ∧ c ≠ ',' ∧ Text.isBlankChar c = false) ∧
    (p.typeText = none ∧ p.shown.toList = w ∨ ∃ t, IsShownType t ∧ ':' ∈ w ∧
      p.shown.toList = w ++ ' ' :: t) := by
  -- the dots of a rest parameter and its name are characters of one word
  have hdots : ∀ c ∈ (if p.rest then "...".toList else []) ++ p.bare,
      IsPlain c ∧ c ≠ ',' ∧ Text.isBlankChar c = false := by
    intro c hc
    rcases List.mem_append.mp hc with hdot | hbare
    · have heq : c = '.' := by
        by_contra hne
        cases hr : p.rest <;> simp [hr, hne] at hdot
      rw [heq]
      decide
    · obtain ⟨hplain, hsigns, hblack⟩ := h.plain hbare
      refine ⟨hplain, ?_, hblack⟩
      rintro rfl
      exact hsigns (by decide)
  have hne : p.bare ≠ [] := by simp [bare, h.name.ne_nil]
  rw [toList_shown, body]
  cases ht : p.typeText with
  | none => exact ⟨_, List.append_ne_nil_of_right_ne_nil _ hne, hdots, .inl ⟨rfl, by simp⟩⟩
  | some t =>
    refine ⟨(if p.rest then "...".toList else []) ++ p.bare ++ [':'], by simp, ?_, .inr
      ⟨t.toList, h.type t ht, by simp, by simp⟩⟩
    intro c hc
    rcases List.mem_append.mp hc with hc | hc
    · exact hdots c hc
    · rw [List.mem_singleton.mp hc]
      decide

/-- A shown parameter may stand between two commas. -/
theorem IsShown.isPiece (h : p.IsShown) : IsPiece p.shown.toList := by
  obtain ⟨w, hne, hw, ⟨-, htext⟩ | ⟨t, ht, -, htext⟩⟩ := h.exists_front
  · rw [htext]
    refine ⟨hne, Text.trim_eq_self_of_forall fun c hc => (hw c hc).2.2, fun c hc => (hw c hc).1.1, ?_⟩
    have hclose := closesFrom_of_plain (fun c hc => ⟨(hw c hc).1, (hw c hc).2.1⟩)
      (show closesFrom ' ' 0 [] = true from rfl) ' '
    rwa [List.append_nil] at hclose
  · have hspace : ∀ c ∈ w ++ [' '], IsPlain c ∧ c ≠ ',' := by
      intro c hc
      rcases List.mem_append.mp hc with hc | hc
      · exact ⟨(hw c hc).1, (hw c hc).2.1⟩
      · rw [List.mem_singleton.mp hc]
        decide
    have htext : p.shown.toList = w ++ [' '] ++ t := by rw [htext]; simp
    rw [htext]
    refine ⟨by simp, ?_, fun c hc => ?_, closesFrom_of_plain hspace ht.piece.closes ' '⟩
    · obtain ⟨c, v, rfl⟩ := List.exists_cons_of_ne_nil hne
      exact Text.trim_append_eq_self (hw c List.mem_cons_self).2.2 _ ht.piece.trimmed ht.piece.ne_nil
    · rcases List.mem_append.mp hc with hc | hc
      · exact (hspace c hc).1.1
      · exact ht.piece.noQuote c hc

/-- Its round brackets are those of its type. -/
theorem IsShown.isRound (h : p.IsShown) : IsRound p.shown.toList := by
  have hplain : ∀ {w : List Char}, (∀ c ∈ w, IsPlain c) → IsRound w := fun hw =>
    ⟨fun c hc => (hw c hc).1, closesRound_of_forall fun c hc => (hw c hc).2 .round (by decide)⟩
  obtain ⟨w, -, hw, ⟨-, htext⟩ | ⟨t, ht, -, htext⟩⟩ := h.exists_front
  · rw [htext]
    exact hplain fun c hc => (hw c hc).1
  · have htype : IsRound ([' '] ++ t) :=
      (hplain (by decide)).append ⟨ht.piece.noQuote, ht.closes⟩
    rw [htext]
    exact (hplain fun c hc => (hw c hc).1).append htype

theorem isRound_listed (hts : ∀ t ∈ ts, IsRound t) : IsRound (listed ts) := by
  induction ts with
  | nil => exact ⟨by simp [listed], rfl⟩
  | cons t ts ih =>
    obtain ⟨ht, hmore⟩ := List.forall_mem_cons.mp hts
    by_cases hnil : ts = []
    · rwa [hnil, listed, List.intercalate_singleton]
    · rw [listed, List.intercalate_cons_of_ne_nil hnil]
      exact (ht.append (by decide)).append (ih hmore)

/-! ## Reading a parameter -/

/-- No word stands in front of the name: the first blank, if there is one, has a colon in front. -/
theorem IsShown.dropModifiers (h : p.IsShown) :
    Brace.dropModifiers p.shown.toList = p.shown.toList := by
  have hnone : Brace.afterModifier? p.shown.toList = none := by
    refine List.findSome?_eq_none_iff.mpr fun m hm => ?_
    by_contra hsome
    obtain ⟨r, hr⟩ := Option.ne_none_iff_exists'.mp hsome
    rw [Text.after?_eq_some_iff] at hr
    -- a modifier ends in a blank, has none before, and has no colon
    have hword : ∀ m ∈ Brace.paramModifiers, m.toList = m.toList.dropLast ++ [' '] ∧
        (∀ c ∈ m.toList.dropLast, Text.isBlankChar c = false) ∧ ':' ∉ m.toList := by decide
    obtain ⟨hspace, hletters, hcolon⟩ := hword m hm
    obtain ⟨w, -, hw, ⟨-, htext⟩ | ⟨t, -, hmem, htext⟩⟩ := h.exists_front
    · have hblank : ' ' ∈ w := by
        rw [← htext, hr, hspace]
        simp
      have hblack := (hw ' ' hblank).2.2
      cases hblack
    · have htake : ∀ (u x : List Char), (∀ c ∈ u, Text.isBlankChar c = false) →
          (u ++ ' ' :: x).takeWhile (fun c => !Text.isBlankChar c) = u := by
        intro u x hu
        rw [List.takeWhile_append_of_pos fun c hc => by rw [hu c hc]; rfl,
          List.takeWhile_cons_of_neg (by decide), List.append_nil]
      have hsplit : w ++ ' ' :: t = m.toList.dropLast ++ ' ' :: r := by
        rw [← htext, hr]
        conv_lhs => rw [hspace]
        simp
      have hsame : w = m.toList.dropLast := by
        rw [← htake w t fun c hc => (hw c hc).2.2, hsplit, htake _ r hletters]
      rw [hsame] at hmem
      exact hcolon (List.dropLast_subset _ hmem)
  rw [Brace.dropModifiers]
  split
  · rename_i r hr
    rw [hnone] at hr
    cases hr
  · rfl

theorem IsShown.passes_bare (h : p.IsShown) {sign : Char} (hsign : sign ∈ Brace.paramSigns) :
    Passes sign none p.bare := by
  refine passes_of_plain (fun c hc => ⟨(h.plain hc).1, ?_⟩) none
  rintro rfl
  exact (h.plain hc).2.1 hsign

/-- No equals sign in the parameter begins a default. -/
theorem IsShown.headAndRest_equals (h : p.IsShown) :
    Brace.headAndRest '=' p.body = (p.body, none) := by
  have hpasses : Passes '=' none p.body := by
    refine (h.passes_bare (by decide)).append ?_
    cases ht : p.typeText with
    | none => exact passes_nil _
    | some t =>
      have htype := h.type t ht
      have hsign : ∀ c ∈ [':', ' '], IsPlain c ∧ c ≠ '=' := by decide
      exact (passes_of_plain hsign _).append (passes_of_arrowsOnly htype.piece htype.arrows ' ')
  rw [Brace.headAndRest, cutOuter?_eq_none_of_passes hpasses]

/-- The type stands behind the first colon. -/
theorem IsShown.headAndRest_colon (h : p.IsShown) :
    Brace.headAndRest ':' p.body = (p.bare, p.typeText.map String.toList) := by
  have hbare : Passes ':' none p.bare := h.passes_bare (by decide)
  rw [body]
  cases ht : p.typeText with
  | none =>
    rw [Option.map_none, Option.getD_none, List.append_nil, Brace.headAndRest,
      cutOuter?_eq_none_of_passes hbare]
    rfl
  | some t =>
    have htext : Text.trim (' ' :: t.toList) = t.toList :=
      (Text.trim_append_of_isBlank (g := [' ']) rfl _).trans (h.type t ht).piece.trimmed
    rw [Option.map_some, Option.getD_some, Brace.headAndRest_of_passes (by decide) hbare rfl, htext,
      Text.trim_eq_self_of_forall fun c hc => (h.plain hc).2.2]
    rfl

/-- The parameter is read back without its default. -/
theorem IsShown.read (h : p.IsShown) :
    Brace.param? p.shown.toList = some { p with defaultValue := none } := by
  obtain ⟨c, v, hname⟩ := List.exists_cons_of_ne_nil h.name.ne_nil
  have hfirst : p.body.head? ≠ some '.' := by
    have hdot := (h.name.plain c (by rw [hname]; exact List.mem_cons_self)).2.1
    rw [body, bare, hname]
    rintro ⟨⟩
    exact hdot (by decide)
  have hmark : '?' ∉ p.name.toList := fun hc => (h.name.plain '?' hc).2.1 (by decide)
  rw [Brace.param?_of_parts h.isPiece.trimmed h.dropModifiers p.toList_shown hfirst
    h.headAndRest_equals h.headAndRest_colon
    ⟨h.name.ne_nil, hmark, fun c hc => (h.name.plain c hc).2.2⟩]
  have htype : (p.typeText.map String.toList).bind nonempty? = p.typeText := by
    cases ht : p.typeText with
    | none => rfl
    | some t =>
      rw [Option.map_some, Option.bind_some, Brace.nonempty?_of_isPiece (h.type t ht).piece, textOf,
        String.ofList_toList]
  simp [htype, textOf]

end Parameter

/-! ## Reading a signature -/

namespace FunctionRecord

variable {f : FunctionRecord}

/-- The bracket behind the name is the first one. -/
theorem IsShown.dropWhile (h : f.IsShown) : f.signature.toList.dropWhile (· ≠ '(') =
    '(' :: (listed (f.params.map fun p => p.shown.toList) ++
      ')' :: (typeSuffix f.returnType).toList) := by
  have hkind : '(' ∉ f.kind.shown.toList := by cases f.kind <;> decide
  have hfront : ∀ c ∈ f.kind.shown.toList ++ f.name.toList, decide (c ≠ '(') = true := by
    intro c hc
    refine decide_eq_true ?_
    rintro rfl
    exact (List.mem_append.mp hc).elim hkind h.name
  have htext : f.signature.toList = (f.kind.shown.toList ++ f.name.toList) ++
      '(' :: (listed (f.params.map fun p => p.shown.toList) ++
        ')' :: (typeSuffix f.returnType).toList) := by
    simp [signature, listed, Function.comp_def]
  rw [htext, List.dropWhile_append_of_pos hfront, List.dropWhile_cons_of_neg (by decide)]

/-- What is shown of a function is read back from its signature: the parameters, but for their
defaults, and the return type. -/
theorem signature_read (h : f.IsShown) : ∃ inner rest,
    takeGroup? (f.signature.toList.dropWhile (· ≠ '(')) = some (inner, rest) ∧
      Brace.params inner = f.params.map (fun p => { p with defaultValue := none }) ∧
      Brace.tail? rest = some { returnType := f.returnType, opener := none } := by
  have hround : IsRound (listed (f.params.map fun p => p.shown.toList)) :=
    Parameter.isRound_listed fun t ht => by
      obtain ⟨p, hp, rfl⟩ := List.mem_map.mp ht
      exact (h.params p hp).isRound
  refine ⟨_, _, h.dropWhile ▸ takeGroup?_of_isRound hround _, ?_, ?_⟩
  -- the list is cut between the parameters, and each is read back by itself
  · have hpieces : ∀ t ∈ f.params.map fun p => p.shown.toList, IsPiece t := by
      intro t ht
      obtain ⟨p, hp, rfl⟩ := List.mem_map.mp ht
      exact (h.params p hp).isPiece
    have hlist := splitOuter_listed hpieces (g := []) rfl
    rw [List.append_nil] at hlist
    rw [Brace.params, hlist, List.filterMap_map, ← List.filterMap_eq_map]
    refine List.filterMap_congr fun p hp => ?_
    rw [Function.comp_apply, Function.comp_apply]
    exact (h.params p hp).read
  · rw [toList_typeSuffix]
    cases ht : f.returnType with
    | none =>
      rw [Option.map_none, Option.getD_none]
      exact Brace.tail?_blank rfl
    | some t =>
      have hread : Brace.tail? ([] ++ ':' :: ([' '] ++ (t.toList ++ []))) =
          some { returnType := some (textOf t.toList), opener := none } :=
        Brace.tail?_returnType (h.returnType t ht) rfl rfl rfl
      rw [List.append_nil, textOf, String.ofList_toList] at hread
      rw [Option.map_some, Option.getD_some]
      exact hread

/-- A comma and an arrow in a type, and a name that is a modifier elsewhere, make no difference. -/
theorem signature_read_modifierName :
    let f : FunctionRecord :=
      { name := "load", kind := .async, returnType := some "Promise<void>",
        params := [{ name := "xs", typeText := some "Map<K, (a: A) => B>", rest := true },
          { name := "public", optional := true, defaultValue := some "1" }] }
    f.signature = "async load(...xs: Map<K, (a: A) => B>, public?): Promise<void>" ∧
      ∃ inner rest, takeGroup? (f.signature.toList.dropWhile (· ≠ '(')) = some (inner, rest) ∧
        Brace.params inner =
          [{ name := "xs", typeText := some "Map<K, (a: A) => B>", rest := true },
            { name := "public", optional := true }] ∧
        Brace.tail? rest = some { returnType := some "Promise<void>", opener := none } := by
  intro f
  have hname : ∀ s ∈ ["xs", "public"], IsShownName s.toList := by
    intro s hs
    rcases List.mem_pair.mp hs with rfl | rfl
    · exact ⟨by decide, by decide⟩
    · exact ⟨by decide, by decide⟩
  have hparams : ∀ p ∈ f.params, p.IsShown := by
    intro p hp
    rcases List.mem_pair.mp hp with rfl | rfl
    · refine ⟨hname _ (by decide), ?_⟩
      rintro t ⟨⟩
      exact ⟨by decide, by decide, by decide⟩
    · exact ⟨hname _ (by decide), nofun⟩
  have hreturn : ∀ t ∈ f.returnType, Brace.IsReturnType t.toList := by
    rintro t ⟨⟩
    exact ⟨by decide, by decide, by decide, by decide⟩
  exact ⟨by decide +kernel, signature_read ⟨by decide, hparams, hreturn⟩⟩

end FunctionRecord

end CodeAtlas
