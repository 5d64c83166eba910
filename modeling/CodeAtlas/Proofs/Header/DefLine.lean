/-
Definitions on one line.

The header of a function is given by its parts, with any text behind its colon (`DefLine`). The
pattern of what follows the parameter list goes to the end of the line, and behind the colon it
takes blanks and a comment only. So a header is read as it is written if nothing is said behind
its colon. A statement there hides a function without a type. A type is taken to go on over the
colon, as far as a later colon behind which nothing is said, and where there is none the function
is hidden too.

A bracket in the text behind the colon may have further lines joined to the header, so both is
proved of any text that begins like the one on the line (`DefLine.exists_joined`).
-/
import CodeAtlas.Proofs.Extent.Join
import CodeAtlas.Proofs.Header.BaseList
import CodeAtlas.Proofs.Header.Tail
import CodeAtlas.Proofs.Header.TypeHeader
import CodeAtlas.Proofs.Nesting.Group

set_option autoImplicit false

namespace CodeAtlas.Indent

open Pattern

/-! ## Headers as they are written -/

/-- The header of a function on one line. -/
structure DefLine where
  asynchronous : Bool
  name : List Char
  params : List Char
  type : Option (List Char)

/-- A type behind an arrow. -/
structure IsReturnType (t : List Char) : Prop extends IsRound t where
  ne_nil : t ≠ []
  trimmed : Text.trim t = t
  noComment : '#' ∉ t

namespace DefLine

variable (d : DefLine)

/-- The type behind its arrow, if there is one. -/
def arrowed : List Char :=
  match d.type with
  | none => []
  | some t => " -> ".toList ++ t

/-- The header up to its colon. -/
def header : List Char :=
  Brace.wordIf d.asynchronous "async" ++
    ("def ".toList ++ (d.name ++ '(' :: (d.params ++ ')' :: d.arrowed)))

/-- The header with the text behind its colon. -/
def text (x : List Char) : List Char := d.header ++ ':' :: x

/-- What the header says. -/
def head : FunctionHead where
  name := textOf d.name
  kind := if d.asynchronous then .async else .function
  params := Indent.params d.params
  returnType := d.type.map textOf
  exported := !Text.starts "_" d.name
  visibility := some (visibilityOf d.name)
  further := 0

/-- The parts of the header are balanced. -/
structure IsWritten : Prop where
  isName : IsNameOf (fun c => c.isAlpha || c = '_') Text.isWordChar d.name
  isParams : IsRound d.params
  isType : ∀ t ∈ d.type, IsReturnType t

end DefLine

/-! ## Nothing behind a colon -/

section

variable {t u v g x y z : List Char} {m m' : Spot} {ms : List (Slot × Spot)}

/-- A text says nothing if a comment sign is the first of its characters that is no blank. -/
theorem saysNothing_trim (t : List Char) :
    saysNothing (Text.trim t) = (Text.trimStart t).head?.all (· = '#') := by
  rw [saysNothing, ← Text.head?_trim]
  cases Text.trim t <;> simp

theorem saysNothing_trim_iff : saysNothing (Text.trim t) = true ↔
    IsComment ['#'] t ∨ ∀ b ∈ t, Text.isBlankChar b = true := by
  rw [saysNothing_trim]
  constructor
  · intro h
    have hsplit : t = t.takeWhile Text.isBlankChar ++ Text.trimStart t :=
      List.takeWhile_append_dropWhile.symm
    cases hstart : Text.trimStart t with
    | nil => exact .inr (List.all_eq_true.mp (Text.trimStart_eq_nil_iff.mp hstart))
    | cons c s =>
      rw [hstart] at h hsplit
      obtain rfl : c = '#' := of_decide_eq_true h
      exact .inl ⟨_, s, List.all_eq_true.mp List.all_takeWhile, hsplit⟩
  · rintro (⟨g, s, hg, rfl⟩ | hblank)
    · have hg : Text.isBlank g = true := List.all_eq_true.mpr hg
      rw [List.singleton_append, Text.head?_trimStart_append rfl, Text.trimStart_eq_nil_iff.mpr hg]
      rfl
    · rw [Text.trimStart_eq_nil_iff.mpr (List.all_eq_true.mpr hblank)]
      rfl

/-- A header is closed by a colon behind which nothing is said. -/
theorem exists_colon_of_matches (h : Matches (blanks ++ close) m m' ms) :
    ∃ g z, Text.isBlank g = true ∧ m.rest = g ++ ':' :: z ∧
      saysNothing (Text.trim z) = true := by
  obtain ⟨m₁, ms₁, ms₂, hblanks, hclose, -⟩ := matches_append_iff.mp h
  obtain ⟨m₂, ms₃, ms₄, hcolon, hend, -⟩ := matches_append_iff.mp hclose
  obtain ⟨g, hg, hm, -⟩ := hblanks.of_blanks
  have hrest := saysNothing_trim_iff.mpr (lineEnd_of_matches hend)
  refine ⟨g, m₂.rest, List.all_eq_true.mpr hg, ?_, hrest⟩
  rw [hm, hcolon.rest_of_lit]
  rfl

theorem IsReturnType.exists_cons (ht : IsReturnType t) :
    ∃ c w, t = c :: w ∧ Text.isBlankChar c = false := by
  obtain ⟨-, c, w, -, hc, -, htrim⟩ :=
    Text.exists_cons_of_trim_ne_nil (ht.trimmed.symm ▸ ht.ne_nil)
  exact ⟨c, _, ht.trimmed.symm.trans htrim, hc⟩

/-- A header is not closed inside of its type: there is no comment sign in it, and no blank at
its end. -/
theorem IsReturnType.not_closed (ht : IsReturnType t) (hv : v <:+ t) (hne : v ≠ [])
    (hg : Text.isBlank g = true) (hz : saysNothing (Text.trim z) = true) :
    v ++ ':' :: y ≠ g ++ ':' :: z := by
  intro heq
  have hsolid : ¬ Text.isBlank v = true := by
    intro hblank
    obtain ⟨u, rfl⟩ := hv
    have hend : Text.trimEnd (u ++ v) = u ++ v := by
      rw [← ht.trimmed, Text.trimEnd_trim]
    exact hne (Text.eq_nil_of_trimEnd_append hend hblank)
  rcases List.append_eq_append_iff.mp heq with ⟨a, rfl, -⟩ | ⟨b, rfl, hb⟩
  · rw [Text.isBlank_append, Bool.and_eq_true] at hg
    exact hsolid hg.1
  · cases b with
    | nil =>
      rw [List.append_nil] at hsolid
      exact hsolid hg
    | cons c b =>
      -- the colon in the type would have a comment behind it
      have hrest : z = b ++ ':' :: y := (List.cons.inj hb).2
      rw [hrest, saysNothing_trim, Text.head?_trimStart_append rfl] at hz
      cases hhead : (Text.trimStart b).head? with
      | none =>
        rw [hhead] at hz
        cases hz
      | some d =>
        rw [hhead] at hz
        obtain rfl : d = '#' := of_decide_eq_true hz
        have hmem : '#' ∈ b := (List.dropWhile_suffix _).mem (List.mem_of_head? hhead)
        exact ht.noComment (hv.mem (by simp [hmem]))

/-! ## What follows the parameter list -/

variable {d : DefLine} {r : Match}

theorem finds_closing (hy : saysNothing (Text.trim y) = true) (hline : '\n' ∉ y)
    (hm : m.rest = ':' :: y) : ∃ stop, Finds (blanks ++ close) m stop [] := by
  have hblanks : Finds blanks m m [] := finds_many_nothing (by rw [hm]; rfl)
  have hcolon : Finds (lit ":") m (m.behind ":".toList y) [] := finds_lit hm
  have hend := finds_lineEnd (m := m.behind ":".toList y) (saysNothing_trim_iff.mp hy) hline
  exact ⟨_, hblanks.append (hcolon.append hend)⟩

/-- The type ends in front of its colon. -/
theorem exists_finds_typedClose (ht : IsReturnType t) (hy : saysNothing (Text.trim y) = true)
    (hline : '\n' ∉ t ++ ':' :: y) (hm : m.rest = t ++ ':' :: y) :
    ∃ stop, Finds (typedClose close) m stop [(.kind, m), (.kind, m.behind t (':' :: y))] := by
  have hinLine : ∀ b ∈ t, inLine b = true := fun b hb =>
    inLine_of_mem hline (List.mem_append_left _ hb)
  obtain ⟨stop, hclosing⟩ := finds_closing (m := m.behind t (':' :: y)) hy
    (fun hmem => hline (List.mem_append_right t (List.mem_cons_of_mem ':' hmem))) rfl
  obtain ⟨c, w, rfl⟩ := List.exists_cons_of_ne_nil ht.ne_nil
  refine ⟨stop, fun k r hk => ?_⟩
  -- nothing closes the header where the type could end before
  have hnone : ∀ u b v, w = u ++ b :: v →
      (blanks ++ close).run k (m.behind (c :: u) (b :: v ++ ':' :: y)) = none := by
    intro u b v hsplit
    refine Option.eq_none_iff_forall_ne_some.mpr fun r' hr' => ?_
    obtain ⟨m', ms, -, hmatch, -, -⟩ := exists_matches_of_run hr'
    obtain ⟨g, z, hg, hrest, hz⟩ := exists_colon_of_matches hmatch
    refine ht.not_closed (v := b :: v) ?_ (List.cons_ne_nil b v) hg hz hrest
    exact ⟨c :: u, by rw [hsplit]; rfl⟩
  rw [typedClose, run_append, run_keep_few1 .kind hm hinLine hnone (hclosing hk)]
  rfl

theorem exists_defTail_untyped (hy : saysNothing (Text.trim y) = true) (hline : '\n' ∉ y) :
    ∃ r, defTail.match? (':' :: y) = some r ∧ r.part? .kind = none := by
  let m := Spot.start (':' :: y)
  have hblanks : Finds blanks m m [] := finds_many_nothing rfl
  have harrow : Finds (opt (lit "->" ++ blanks ++ keep .kind (few1 inLine))) m m [] := by
    refine finds_opt_nothing fun k => ?_
    rw [run_append]
    exact run_append_of_lit rfl
  obtain ⟨stop, hclosing⟩ := finds_closing (m := m) hy hline rfl
  rw [defTail_eq, tailOf]
  exact ⟨_, (hblanks.append (harrow.append hclosing)).match?, rfl⟩

theorem exists_defTail_typed (ht : IsReturnType t) (hy : saysNothing (Text.trim y) = true)
    (hline : '\n' ∉ t ++ ':' :: y) :
    ∃ r, defTail.match? (" -> ".toList ++ (t ++ ':' :: y)) = some r ∧ r.part? .kind = some t := by
  let start := Spot.start (" -> ".toList ++ (t ++ ':' :: y))
  let m := start.behind " -> ".toList (t ++ ':' :: y)
  have hexact : m.Exact := Spot.Exact.behind (m := start) rfl rfl
  obtain ⟨stop, hfinds⟩ := exists_finds_typedClose (m := m) ht hy hline rfl
  obtain ⟨c, w, rfl, hc⟩ := ht.exists_cons
  have hblank : ∀ b ∈ [' '], Text.isBlankChar b = true := isBlankChar_space
  have hrun := run_tailOf (s := "->") (m := start) hblank (by decide) hblank hc rfl
    (hfinds (k := done) rfl)
  rw [defTail_eq, match?_eq]
  exact ⟨_, hrun, part?_of_marks (b := []) List.prefix_rfl nofun hexact rfl⟩

/-- What follows the list is read with its type, if nothing is said behind the colon. -/
theorem DefLine.IsWritten.exists_defTail (hd : d.IsWritten)
    (hy : saysNothing (Text.trim y) = true) (hline : '\n' ∉ d.arrowed ++ ':' :: y) :
    ∃ r, defTail.match? (d.arrowed ++ ':' :: y) = some r ∧ r.part? .kind = d.type := by
  rw [DefLine.arrowed] at hline ⊢
  cases htype : d.type with
  | none =>
    rw [htype] at hline
    exact exists_defTail_untyped hy fun hmem => hline (List.mem_cons_of_mem ':' hmem)
  | some t =>
    rw [htype] at hline
    simp only [List.append_assoc] at hline ⊢
    exact exists_defTail_typed (hd.isType t htype) hy fun hmem =>
      hline (List.mem_append_right " -> ".toList hmem)

/-- Where what follows the list is read, there is a colon behind which nothing is said, and either
there is nothing in front of it or the type is all between an arrow and the colon. -/
theorem exists_colon_of_defTail (h : defTail.match? t = some r) :
    ∃ z, saysNothing (Text.trim z) = true ∧ (Text.trimStart t = ':' :: z ∨
      ∃ g kind g', Text.isBlank g = true ∧ Text.isBlank g' = true ∧ r.part? .kind = some kind ∧
        Text.trimStart t = '-' :: '>' :: (g ++ (kind ++ (g' ++ ':' :: z)))) := by
  have hsplit : defTail = (blanks ++ opt (lit "->" ++ blanks ++ keep .kind (few1 inLine))) ++
      (blanks ++ close) := rfl
  obtain ⟨m₂, ms, ms', hfront, hclosing, hmarks⟩ :=
    matches_append_iff.mp (hsplit ▸ matches_of_match? h)
  obtain ⟨m₁, ms₁, ms₂, hindent, htype, hms⟩ := matches_append_iff.mp hfront
  obtain ⟨b, hb, hm, rfl⟩ := hindent.of_blanks
  obtain ⟨g', z, hg', hm₂, hz⟩ := exists_colon_of_matches hclosing
  have ht : Text.trimStart t = Text.trimStart m₁.rest := by
    have hwhole : t = b ++ m₁.rest := hm
    rw [hwhole, Text.trimStart_append_of_isBlank (List.all_eq_true.mpr hb)]
  refine ⟨z, hz, ?_⟩
  -- the type is all between the arrow and the colon, or there is no arrow
  rcases htype.of_opt with htype | ⟨hnone, -⟩
  · rw [hms, List.nil_append] at hmarks
    obtain ⟨m₃, kind, ⟨ms₃, hsign⟩, hkind⟩ :=
      exists_kept_last (by decide) (by decide) (hindent.exact rfl) htype hmarks
    obtain ⟨m₄, ms₄, ms₅, harrow, hgap, -⟩ := matches_append_iff.mp hsign
    obtain ⟨g, hg, hm₃, -⟩ := hgap.of_blanks
    refine .inr ⟨g, kind, g', List.all_eq_true.mpr hg, hg', hkind.part?, ?_⟩
    rw [ht, harrow.rest_of_lit, hm₃, hkind.rest, hm₂]
    rfl
  · rw [ht, hnone, hm₂, Text.trimStart_append_of_isBlank hg']
    exact .inl rfl

/-- A statement behind the colon of an untyped header does not let it be read. -/
theorem match?_defTail_untyped (hy : saysNothing (Text.trim y) = false) :
    defTail.match? (':' :: y) = none := by
  refine Option.eq_none_iff_forall_ne_some.mpr fun r hr => ?_
  have hstart : Text.trimStart (':' :: y) = ':' :: y := rfl
  obtain ⟨z, hz, hcolon | ⟨g, kind, g', -, -, -, harrow⟩⟩ := exists_colon_of_defTail hr
  · obtain rfl : y = z := (List.cons.inj (hstart.symm.trans hcolon)).2
    rw [hy] at hz
    cases hz
  · cases hstart.symm.trans harrow

/-- A statement behind the colon has the type go on over the colon. -/
theorem exists_longer_of_defTail (ht : IsReturnType t) (hy : saysNothing (Text.trim y) = false)
    (h : defTail.match? (" -> ".toList ++ (t ++ ':' :: y)) = some r) :
    ∃ kind more, r.part? .kind = some kind ∧ Text.trim kind = t ++ ':' :: more := by
  have hstart : Text.trimStart (" -> ".toList ++ (t ++ ':' :: y)) =
      '-' :: '>' :: ' ' :: (t ++ ':' :: y) := rfl
  obtain ⟨z, hz, hcolon | ⟨g, kind, g', hg, hg', hkind, harrow⟩⟩ := exists_colon_of_defTail h
  · cases hstart.symm.trans hcolon
  have hrest : ' ' :: (t ++ ':' :: y) = g ++ (kind ++ (g' ++ ':' :: z)) :=
    (List.cons.inj (List.cons.inj (hstart.symm.trans harrow)).2).2
  -- without the blanks in front of them, both sides are a type, blanks and a colon
  obtain ⟨b, hb, hsplit⟩ : ∃ b, Text.isBlank b = true ∧
      t ++ ':' :: y = Text.trimStart kind ++ (b ++ ':' :: z) := by
    have htype : Text.trimStart (' ' :: (t ++ ':' :: y)) = t ++ ':' :: y := by
      obtain ⟨c, w, rfl, hc⟩ := ht.exists_cons
      exact Text.trimStart_append_cons hc [' '] _
    rw [← htype, hrest, Text.trimStart_append_of_isBlank hg, Text.trimStart_append]
    split
    · rename_i hempty
      rw [List.isEmpty_iff.mp hempty, Text.trimStart_append_of_isBlank hg']
      exact ⟨[], rfl, rfl⟩
    · exact ⟨g', hg', rfl⟩
  have hnot : ∀ v, v <:+ t → v ++ ':' :: y ≠ b ++ ':' :: z := by
    intro v hv heq
    cases v with
    | cons c v => exact ht.not_closed hv (List.cons_ne_nil c v) hb hz heq
    | nil =>
      cases b with
      | nil =>
        rw [(List.cons.inj heq).2, hz] at hy
        cases hy
      | cons c b =>
        rw [← (List.cons.inj heq).1] at hb
        cases hb
  rcases List.append_eq_append_iff.mp hsplit with ⟨a, hlong, ha⟩ | ⟨v, rfl, hv⟩
  · cases a with
    | nil => exact absurd ha (hnot [] List.nil_suffix)
    | cons c a =>
      obtain rfl : ':' = c := (List.cons.inj ha).1
      refine ⟨kind, Text.trimEnd a, hkind, ?_⟩
      rw [Text.trim, hlong, Text.trimEnd_append_cons rfl]
  · exact absurd hv.symm (hnot v (List.suffix_append _ v))

/-! ## The header as it is read -/

namespace DefLine

theorem text_eq (d : DefLine) (x : List Char) :
    d.text x = Brace.wordIf d.asynchronous "async" ++
      ("def ".toList ++ (d.name ++ '(' :: (d.params ++ ')' :: (d.arrowed ++ ':' :: x)))) := by
  simp [text, header]

theorem text_append (d : DefLine) (x e : List Char) : d.text x ++ e = d.text (x ++ e) :=
  List.append_assoc _ _ _

/-- A header begins with one of its two words. -/
theorem exists_cons_header (d : DefLine) : ∃ c w, d.header = c :: w ∧ (c = 'a' ∨ c = 'd') := by
  rw [header, Brace.wordIf]
  cases d.asynchronous with
  | false => exact ⟨'d', _, rfl, .inr rfl⟩
  | true => exact ⟨'a', _, rfl, .inl rfl⟩

/-- The line is trimmed behind its colon. -/
theorem trim_line (d : DefLine) (hg : Text.isBlank g = true) (x : List Char) :
    Text.trim (g ++ d.text x) = d.text (Text.trimEnd x) := by
  obtain ⟨c, w, hheader, hc⟩ := d.exists_cons_header
  have hblack : Text.isBlankChar c = false := by
    rcases hc with rfl | rfl <;> rfl
  have hstart : Text.trimStart (d.text x) = d.text x := by
    rw [text, hheader]
    exact Text.trimStart_append_cons hblack [] _
  rw [Text.trim, Text.trimStart_append_of_isBlank hg, hstart, text, Text.trimEnd_append_cons rfl,
    text]

/-- The line is indented by what stands in front of the header. -/
theorem indentation_line (d : DefLine) (hg : Text.isBlank g = true) (x : List Char) :
    Text.indentation (g ++ d.text x) = Text.indentation g := by
  obtain ⟨c, w, hheader, hc⟩ := d.exists_cons_header
  have hblack : ¬ Text.isBlankChar c = true := by
    rcases hc with rfl | rfl <;> decide
  have hall : g.takeWhile Text.isBlankChar = g :=
    List.takeWhile_eq_self_iff.mpr (List.all_eq_true.mp hg)
  rw [Text.indentation, Text.indentation, hall, text, hheader,
    List.takeWhile_append_of_pos (List.all_eq_true.mp hg), List.cons_append,
    List.takeWhile_cons_of_neg hblack, List.append_nil]

/-- A line with a header begins as a definition does. -/
theorem starts_of_prefix_header {d : DefLine} {t : List Char} (h : d.header <+: t) :
    (Text.starts "def " t || Text.starts "async def " t) = true := by
  rw [Bool.or_eq_true]
  rw [header, Brace.wordIf] at h
  cases hasync : d.asynchronous with
  | false =>
    rw [hasync] at h
    exact .inl (List.isPrefixOf_iff_prefix.mpr ((List.prefix_append _ _).trans h))
  | true =>
    rw [hasync] at h
    have hwords : "async def ".toList = ("async".toList ++ [' ']) ++ "def ".toList := by decide
    refine .inr (List.isPrefixOf_iff_prefix.mpr ?_)
    rw [hwords]
    exact ((List.prefix_append_right_inj _).mpr (List.prefix_append _ _)).trans h

variable (hd : d.IsWritten)
include hd

theorem IsWritten.isWordChar {c : Char} (hc : c ∈ d.name) : Text.isWordChar c = true := by
  obtain ⟨b, u, hname, hb, hu⟩ := hd.isName
  rw [hname] at hc
  rcases List.mem_cons.mp hc with rfl | hc
  · rcases Bool.or_eq_true_iff.mp hb with halpha | hline
    · exact Text.isWordChar_of_isAlphanum (by rw [Char.isAlphanum, halpha, Bool.true_or])
    · rw [of_decide_eq_true hline]
      decide
  · exact hu c hc

theorem IsWritten.isRound_name : IsRound d.name := by
  have hne : ∀ b, Text.isWordChar b = false → b ∉ d.name := by
    intro b hb hmem
    rw [hd.isWordChar hmem] at hb
    cases hb
  refine ⟨fun c hc => Bool.eq_false_iff.mpr fun hquote => ?_, closesRound_of_forall fun c hc => ?_⟩
  · simp only [Quoting.isQuote, Bool.or_eq_true, decide_eq_true_eq] at hquote
    rcases hquote with (rfl | rfl) | rfl
    · exact hne _ (by decide) hc
    · exact hne _ (by decide) hc
    · exact hne _ (by decide) hc
  · exact ⟨fun h => hne '(' (by decide) (h ▸ hc), fun h => hne ')' (by decide) (h ▸ hc)⟩

/-- The header is closed in front of its colon. -/
theorem IsWritten.parenBalance_text : parenBalance (d.text []) = 0 := by
  have hword : IsRound (Brace.wordIf d.asynchronous "async") := by
    cases d.asynchronous <;> decide
  have hdef : IsRound "def ".toList := by decide
  have harrow : IsRound " -> ".toList := by decide
  have htail : parenBalance (d.arrowed ++ [':']) = 0 := by
    rw [arrowed]
    cases htype : d.type with
    | none => rfl
    | some t =>
      show parenBalance (" -> ".toList ++ t ++ [':']) = 0
      rw [List.append_assoc, harrow.parenBalance_append,
        (hd.isType t htype).parenBalance_append]
      rfl
  rw [text_eq, hword.parenBalance_append, hdef.parenBalance_append,
    hd.isRound_name.parenBalance_append, parenBalance_cons rfl, hd.isParams.parenBalance_append,
    parenBalance_cons rfl, htail]
  rfl

/-- Lines are joined to the text behind the colon, and only if something is there. -/
theorem IsWritten.exists_joined {l : Line} (hl : Text.trim l = d.text (Text.trimEnd x))
    (ls : List Line) : ∃ y, (joinSignature (l :: ls)).text = d.text y ∧
      saysNothing (Text.trim y) = saysNothing (Text.trim x) := by
  have hjoin : joinSignature (l :: ls) = joinOpen (d.text (Text.trimEnd x)) 0 ls := by
    rw [← hl]
    rfl
  by_cases hblank : Text.isBlank x = true
  · have hend : Text.trimEnd x = [] := by
      have h := Text.trimEnd_append_of_isBlank hblank []
      rwa [List.nil_append] at h
    rw [hjoin, hend, joinOpen_of_nonpos (Int.le_of_eq hd.parenBalance_text),
      Text.trim_eq_nil_of_isBlank hblank]
    exact ⟨[], rfl, rfl⟩
  · obtain ⟨r, hr⟩ := prefix_joinOpen (d.text (Text.trimEnd x)) 0 ls
    obtain ⟨g, c, s, -, hc, rfl, -⟩ := Text.exists_cons_of_trim_ne_nil
      fun h => hblank (Text.isBlank_of_trim_eq_nil h)
    rw [hjoin, ← hr, text_append]
    refine ⟨_, rfl, ?_⟩
    rw [saysNothing_trim, saysNothing_trim, Text.trimEnd_append_cons hc, List.append_assoc,
      List.cons_append, Text.head?_trimStart_append hc, Text.head?_trimStart_append hc]

/-- The header is found up to the bracket of its list. -/
theorem IsWritten.exists_defHeader (y : List Char) : ∃ r, defHeader.match? (d.text y) = some r ∧
    r.rest = d.params ++ ')' :: (d.arrowed ++ ':' :: y) ∧ r.part .name = d.name ∧
      r.has .asynchronous = d.asynchronous := by
  have hword := Brace.mayBeWord_wordIf d.asynchronous "async"
  have hdef : IsWord "def" "def ".toList := isWord_space "def"
  let behindName := '(' :: (d.params ++ ')' :: (d.arrowed ++ ':' :: y))
  have hbegins : Begins ["def"] ("def ".toList ++ (d.name ++ behindName)) := hdef.begins _
  have hblack : (d.name ++ behindName).head?.any Text.isBlankChar = false := by
    obtain ⟨c, u, hname, hc, -⟩ := hd.isName
    rw [hname]
    exact isBlankChar_of_isFirst hc
  -- one spot behind each piece
  let m₁ := (Spot.start (d.text y)).behind (Brace.wordIf d.asynchronous "async")
    ("def ".toList ++ (d.name ++ behindName))
  let m₂ := m₁.behind "def ".toList (d.name ++ behindName)
  let m₃ := m₂.behind d.name behindName
  have h₁ : Finds (flag .asynchronous "async") (.start (d.text y)) m₁ _ :=
    finds_flag hword (d.text_eq y) (hbegins.head? (by decide)) (hbegins.after? (by decide))
  have h₂ : Finds (word "def") m₁ m₂ [] := finds_word hdef rfl hblack
  have hends : behindName.head?.any Text.isWordChar = false :=
    show Text.isWordChar '(' = false by decide
  have hname : Finds (keep .name Indent.name) m₂ m₃ _ :=
    (finds_name (m := m₂) hd.isName rfl hends).keep .name
  have hblanks : Finds blanks m₃ m₃ [] := finds_many_nothing rfl
  have htypes : Finds typeParams m₃ m₃ [] := finds_opt_nothing fun k => by
    rw [run_append]
    exact run_append_of_lit rfl
  have hopen : Finds (lit "(") m₃ (m₃.behind "(".toList _) [] := finds_lit rfl
  have hwords := h₁.append h₂
  have hlist := htypes.append (hblanks.append hopen)
  have hall := ((hwords.append hname).append hblanks).append hlist
  have hexact : m₂.Exact := hwords.matches.exact rfl
  refine ⟨_, hall.match?, rfl, ?_, ?_⟩
  · refine part_of_marks (a := m₂) ?_ (mt hwords.matches.mem_slots (by decide)) hexact rfl
    simp
  · simp [Match.has, Brace.any_wordMarks]

/-- A header that is joined to the text is read up to what follows its list. -/
theorem IsWritten.defDeclaration?_eq {ls : List Line}
    (hfirst : d.header <+: firstTrimmed ls) (hjoined : (joinSignature ls).text = d.text y) :
    defDeclaration? ls = (defTail.match? (d.arrowed ++ ':' :: y)).map fun tail =>
      .function { d.head with returnType := (tail.part? .kind).map trimmedText,
                              further := (joinSignature ls).further } := by
  obtain ⟨r, hmatch, hrest, hname, hasync⟩ := hd.exists_defHeader y
  have hgroup := takeGroup?_of_isRound hd.isParams (d.arrowed ++ ':' :: y)
  have hguard : (Text.starts "def " (firstTrimmed ls) || Text.starts "async " (firstTrimmed ls)) =
      true := by
    rw [Bool.or_eq_true]
    refine (Bool.or_eq_true_iff.mp (starts_of_prefix_header hfirst)).imp id fun hasync => ?_
    have hword : "async ".toList <+: "async def ".toList := by decide
    exact List.isPrefixOf_iff_prefix.mpr (hword.trans (List.isPrefixOf_iff_prefix.mp hasync))
  rw [← hrest] at hgroup
  simp only [defDeclaration?, hguard, hjoined, hmatch, hgroup, hname, hasync, guard_true,
    Option.bind_eq_bind, Option.bind_some, Option.pure_def]
  cases defTail.match? (d.arrowed ++ ':' :: y) <;> rfl

/-- The header is read as it is written, if nothing is said behind its colon. -/
theorem IsWritten.exists_defDeclaration? {l : Line} {ls : List Line}
    (hl : Text.trim l = d.text (Text.trimEnd x)) (hx : saysNothing (Text.trim x) = true)
    (hline : ∀ k ∈ l :: ls, '\n' ∉ k) :
    ∃ n, defDeclaration? (l :: ls) = some (.function { d.head with further := n }) := by
  obtain ⟨y, hjoined, hy⟩ := hd.exists_joined hl ls
  have hfirst : d.header <+: firstTrimmed (l :: ls) := ⟨':' :: Text.trimEnd x, hl.symm⟩
  obtain ⟨hl', hls⟩ := List.forall_mem_cons.mp hline
  have hclean : '\n' ∉ d.text y := by
    rw [← hjoined]
    exact newline_notMem_joinOpen (fun hmem => hl' (Text.mem_of_mem_trim hmem)) hls 0
  obtain ⟨r, hr, hkind⟩ := hd.exists_defTail (hy.trans hx) fun hmem => hclean <| by
    rw [text_eq]
    simp only [List.mem_append, List.mem_cons] at hmem ⊢
    tauto
  have htype : d.type.map trimmedText = d.head.returnType := by
    show d.type.map trimmedText = d.type.map textOf
    cases htype : d.type with
    | none => rfl
    | some t =>
      rw [Option.map_some, Option.map_some, trimmedText, (hd.isType t htype).trimmed]
      rfl
  rw [hd.defDeclaration?_eq hfirst hjoined, hr, Option.map_some, hkind, htype]
  exact ⟨_, rfl⟩

/-- Where a statement stands behind the colon, a header is not read without a type, and with a type
it is not read as it is written: the type goes on over the colon. -/
theorem IsWritten.exists_longer_type {l : Line} {ls : List Line} {c : Construct}
    (hl : Text.trim l = d.text (Text.trimEnd x)) (hx : saysNothing (Text.trim x) = false)
    (h : defDeclaration? (l :: ls) = some c) :
    ∃ head type more, c = .function head ∧ d.type = some type ∧
      head.returnType = some (textOf (type ++ ':' :: more)) := by
  obtain ⟨y, hjoined, hy⟩ := hd.exists_joined hl ls
  have hfirst : d.header <+: firstTrimmed (l :: ls) := ⟨':' :: Text.trimEnd x, hl.symm⟩
  rw [hd.defDeclaration?_eq hfirst hjoined] at h
  obtain ⟨tail, htail, rfl⟩ := Option.map_eq_some_iff.mp h
  rw [arrowed] at htail
  cases htype : d.type with
  | none =>
    rw [htype] at htail
    rw [List.nil_append, match?_defTail_untyped (hy.trans hx)] at htail
    cases htail
  | some t =>
    rw [htype] at htail
    simp only [List.append_assoc] at htail
    obtain ⟨kind, more, hkind, htrim⟩ :=
      exists_longer_of_defTail (hd.isType t htype) (hy.trans hx) htail
    refine ⟨_, t, more, rfl, rfl, ?_⟩
    rw [hkind, Option.map_some, trimmedText, htrim]
    rfl

end DefLine

end

end CodeAtlas.Indent
