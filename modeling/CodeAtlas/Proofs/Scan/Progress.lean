/-
A scan ends, and reads and cuts only what is there.

The loop of a scan makes at most two calls for each line. A call moves on behind its line
or leaves a class and its line to be read again, and then the next call moves on; and
since a class is entered only behind a line, no line is read three times.

A scan looks ahead from its line: for the end of a header, of a block, of an expression,
of a docstring, of a statement in brackets. All these readers answer with a number of
further lines, and `HeadersEnd` and `ExtentsEnd` say that the line with that number is
one of the file. `CutsWhole` says of the cutters of texts that they take a text apart
between its characters, and that a cutter of bytes would cut at the same places.
-/
import CodeAtlas.Proofs.Header.Parens
import CodeAtlas.Proofs.Scan.BraceMove
import CodeAtlas.Proofs.Text.Bytes

set_option autoImplicit false

namespace CodeAtlas

/-! ## Readers that look ahead -/

/-- All headers that begin on the first of the lines end on one of the lines, after at most
as many as are looked at. -/
def HeadersEnd (ls : List Line) : Prop :=
  ∀ table ∈ [Brace.outside, Brace.inside, Indent.outside, Indent.inside],
    ∀ name c head, firstHit table ls = some (name, c) → c.head? = some head →
      head.further ≤ maxLookahead ∧ head.further < ls.length

/-- Whatever begins on the first of the lines ends on one of the lines, and not in front
of the end of its header. -/
structure ExtentsEnd (ls : List Line) : Prop where
  braces : braceExtent ls < ls.length
  block : ∀ further < ls.length,
    further ≤ Brace.blockExtent further ls ∧ Brace.blockExtent further ls < ls.length
  expression : ∀ further < ls.length,
    further ≤ Brace.expressionExtent further ls ∧ Brace.expressionExtent further ls < ls.length
  indented : ∀ base, indentExtent base ls < ls.length
  docstring : ∀ d, Docstring.at? ls = some d → d.further < ls.length
  docstringWithin : ∀ base d, Docstring.within? base ls = some d → d.further < ls.length
  statement : (Indent.joinBrackets ls).further ≤ maxLookahead ∧
    (Indent.joinBrackets ls).further < ls.length

theorem isLocal_of_firstHit {table : List (String × Recogniser)} {ls : List Line} {name : String}
    {c : Construct} (htable : table ∈ [Brace.outside, Brace.inside, Indent.outside, Indent.inside])
    (h : firstHit table ls = some (name, c)) : c.IsLocal ls := by
  simp only [List.mem_cons, List.not_mem_nil, or_false] at htable
  rcases htable with rfl | rfl | rfl | rfl
  · exact Brace.isLocal_of_outside h
  · exact Brace.isLocal_of_inside h
  · exact Indent.isLocal_of_outside h
  · exact Indent.isLocal_of_inside h

theorem headersEnd {ls : List Line} (hne : ls ≠ []) : HeadersEnd ls := by
  intro table htable name c head hit hhead
  exact (isLocal_of_firstHit htable hit).further_bounds hhead hne

theorem extentsEnd {ls : List Line} (hne : ls ≠ []) : ExtentsEnd ls where
  braces := braceExtent_lt hne
  block _ h := Brace.blockExtent_bounds h
  expression _ h := Brace.expressionExtent_bounds h
  indented base := indentExtent_lt base hne
  docstring _ h := Docstring.further_lt_of_at? h
  docstringWithin _ _ h := Docstring.further_lt_of_within? h
  statement := ⟨Indent.joinBrackets_further_le ls, Indent.joinBrackets_further_lt hne⟩

/-! ## Cutters -/

/-- Every cut of the text is between two of its characters: the parts with what the cutter
looks for make up the text, and a cutter that reads the bytes of the text finds the bytes
of the same parts. -/
structure CutsWhole (t : List Char) : Prop where
  group : ∀ inner rest, takeGroup? t = some (inner, rest) → t = '(' :: inner ++ ')' :: rest
  groupBytes : takeGroup? (Text.utf8 t) = (takeGroup? t).map (Prod.map Text.utf8 Text.utf8)
  separator : ∀ sep l r, cutOuter? sep t = some (l, r) → t = l ++ sep :: r
  separatorBytes : ∀ sep ∈ ['=', ':'],
    cutOuter? sep (Text.utf8 t) = (cutOuter? sep t).map (Prod.map Text.utf8 Text.utf8)
  word : ∀ needle before rest, Text.cut? needle t = some (before, rest) →
    t = before ++ needle ++ rest
  quote : ∀ quote rest, Docstring.opening? t = some (quote, rest) → t = quote ++ rest
  header : ∀ p ∈ parenHeaders, ∀ m, p.match? t = some m → ∃ l, t = l ++ '(' :: m.rest
  bound : ∀ m, Brace.arrowHeader.match? t = some m →
    (m.has .function = true ∨ m.has .group = true → ∃ l, t = l ++ '(' :: m.rest) ∧
      ∃ l, t = l ++ m.rest
  occurrence : ∀ p m r, (m, r) ∈ Pattern.occurrences p t →
    t.take (t.length - m.left) ++ m.rest = t

theorem cutsWhole (t : List Char) : CutsWhole t where
  group _ _ h := append_of_takeGroup? h
  groupBytes := takeGroup?_utf8 t
  separator _ _ _ h := append_of_cutOuter? h
  separatorBytes sep hsep := by
    have hlt : sep.toNat < 128 := by
      simp only [List.mem_cons, List.not_mem_nil, or_false] at hsep
      rcases hsep with rfl | rfl <;> decide
    exact cutOuter?_utf8 hlt t
  word _ _ _ h := Text.append_of_cut? h
  quote _ _ h := (Docstring.append_of_opening? h).1
  header _ hp _ h := exists_append_of_parenHeaders hp h
  bound _ h := ⟨Brace.exists_append_of_arrowHeader h, Pattern.exists_append_rest_of_match? h⟩
  occurrence _ _ _ h := Pattern.take_append_rest_of_mem_occurrences h

/-! ## Classes -/

/-- The class begins in front of the line with the index and ends on a line of the file. -/
structure ClassScope.InFile (file : List Line) (index : Nat) (c : ClassScope) : Prop where
  begun : c.start < index
  kept : c.start ≤ c.stop
  ends : c.stop < file.length

/-- The class that is open, if any, is one of the file. -/
def Moment.ClassInFile (file : List Line) (m : Moment) : Prop :=
  ∀ c, m.scan.scope = some c → c.InFile file m.index

namespace Brace

variable {file : List Line} {m m' : Moment}

theorem inFile_openedScope {i : Nat} (hlt : i < file.length) (s : Scan) (head : ClassHead)
    (doc : Doc) (decorators : List String) :
    (openedScope s head i (file.drop i) doc decorators).InFile file (i + 1) := by
  have hextent := braceExtent_lt (Moment.drop_ne_nil hlt)
  rw [List.length_drop] at hextent
  exact ⟨Nat.lt_succ_self _, Nat.le_add_right _ _, by simp only [openedScope]; omega⟩

theorem InsideCase.inFile {s s' : Scan} {c c' : ClassScope} {i further : Nat}
    (h : InsideCase s c i (file.drop i) (s', c', further)) (hne : file.drop i ≠ [])
    (hold : c.InFile file i) : c'.InFile file (i + further + 1) := by
  obtain ⟨hstart, hstop, -, -, -⟩ := h.frame hne
  have hbegun := hold.begun
  refine ⟨?_, ?_, ?_⟩
  · rw [hstart]
    omega
  · rw [hstart, hstop]
    exact hold.kept
  · rw [hstop]
    exact hold.ends

theorem classInFile_of_move (hmove : Move file m m') (hlt : m.index < file.length)
    (h : m.ClassInFile file) : m'.ClassInFile file := by
  have hne := Moment.drop_ne_nil hlt
  intro c' hc'
  cases hmove with
  | declares _ hnone => simp [hnone] at hc'
  | opens _ hit hopens =>
    unfold Opens at hopens
    split at hopens
    · simp [hopens.2] at hc'
    · simp only [hopens.2, Option.some.injEq] at hc'
      rw [← hc']
      exact inFile_openedScope hlt _ _ _ _
  | stays hsome hcase _ hsome' =>
    simp only [hsome', Option.some.injEq] at hc'
    rw [← hc']
    exact hcase.inFile hne (h _ hsome)
  | closes _ _ _ hnone => simp [hnone] at hc'

/-- What a law about items and about the class that is open asks of the call at a moment:
all that the line exports and declares obeys the law, and so does a class when it is opened,
and again when a line of it has been handled. -/
structure CallObeys (file : List Line) (m : Moment) (P : Item → Prop)
    (Q : ClassScope → Prop) : Prop where
  exports : ∀ item ∈ exportItems m.index (file.drop m.index), P item
  declares : ∀ {items : List Item} {further : Nat},
    Declares m.scan m.index (file.drop m.index) items further → ∀ item ∈ items, P item
  opens : ∀ {name : String} {head : ClassHead},
    firstHit outside (file.drop m.index) = some (name, .classHead head) →
    Q (openedScope m.scan head m.index (file.drop m.index) m.scan.pending.docNow
      m.scan.pending.decorators)
  fills : ∀ {s' : Scan} {c c' : ClassScope} {further : Nat}, m.scan.scope = some c →
    InsideCase m.scan c m.index (file.drop m.index) (s', c', further) → Q c → Q c'

/-- A call that obeys a law keeps it, if a class that is recorded obeys it as an item. -/
theorem CallObeys.move {P : Item → Prop} {Q : ClassScope → Prop} (hobeys : CallObeys file m P Q)
    (hclosed : ∀ {c index}, ClassScope.InFile file index c → Q c → P (.closed c))
    (hmove : Move file m m') (hlt : m.index < file.length) (hfile : m.ClassInFile file)
    (hitems : ∀ item ∈ m.items, P item) (hscope : ∀ c, m.scan.scope = some c → Q c) :
    (∀ item ∈ m'.items, P item) ∧ ∀ c, m'.scan.scope = some c → Q c := by
  have hne := Moment.drop_ne_nil hlt
  -- each move adds items behind those that are there
  have hadd : ∀ {more : List Item}, (∀ item ∈ more, P item) →
      ∀ item ∈ m.items ++ more, P item :=
    fun hmore => List.forall_mem_append.mpr ⟨hitems, hmore⟩
  cases hmove with
  | declares _ hnone hexports hdecl =>
    refine ⟨hadd ?_, fun c hc => by simp [hnone] at hc⟩
    rcases hexports with ⟨rfl, -⟩ | rfl
    · exact hobeys.declares hdecl
    · exact List.forall_mem_append.mpr ⟨hobeys.exports, hobeys.declares hdecl⟩
  | opens _ hit hopens =>
    have hopened := hobeys.opens hit
    unfold Opens at hopens
    split at hopens
    · refine ⟨hadd (List.forall_mem_append.mpr ⟨hobeys.exports, ?_⟩),
        fun c hc => by simp [hopens.2] at hc⟩
      rw [hopens.1, List.forall_mem_singleton]
      exact hclosed (inFile_openedScope hlt _ _ _ _) hopened
    · refine ⟨hadd ?_, fun c hc => ?_⟩
      · rw [hopens.1, List.append_nil]
        exact hobeys.exports
      · rw [hopens.2, Option.some.injEq] at hc
        rw [← hc]
        exact hopened
  | stays hsome hcase _ hsome' =>
    refine ⟨hitems, fun c hc => ?_⟩
    rw [hsome', Option.some.injEq] at hc
    rw [← hc]
    exact hobeys.fills hsome hcase (hscope _ hsome)
  | closes hsome hcase _ hnone =>
    -- the class that is recorded is the one behind the call
    have hfilled := hobeys.fills hsome hcase (hscope _ hsome)
    refine ⟨hadd (List.forall_mem_singleton.mpr ?_), fun c hc => by simp [hnone] at hc⟩
    exact hclosed (hcase.inFile hne (hfile _ hsome)) hfilled

end Brace

namespace Indent

variable {file : List Line} {m : Moment}

theorem next_eq_of_outside (hfamily : m.scan.family = .indent) (hscope : m.scan.scope = none) :
    m.next file = m.follow (outsideStep m.scan m.index (file.drop m.index)) := by
  simp only [Moment.next, Scan.step, hscope, Scan.outsideStep, hfamily]

theorem next_eq_of_inside {c : ClassScope} (hfamily : m.scan.family = .indent)
    (hscope : m.scan.scope = some c) :
    m.next file = m.follow (insideStep m.scan c m.index (file.drop m.index)) := by
  simp only [Moment.next, Scan.step, hscope, Scan.insideStep, hfamily]

theorem next_outside (file : List Line) (hfamily : m.scan.family = .indent)
    (hscope : m.scan.scope = none) :
    ∃ step, OutsideCase m.scan m.index (file.drop m.index) step ∧ m.next file = m.follow step :=
  ⟨_, outsideStep_cases m.scan m.index (file.drop m.index), next_eq_of_outside hfamily hscope⟩

theorem next_inside (file : List Line) {c : ClassScope} (hfamily : m.scan.family = .indent)
    (hscope : m.scan.scope = some c) :
    ∃ step, InsideCase m.scan c m.index (file.drop m.index) step ∧
      m.next file = m.follow step :=
  ⟨_, insideStep_cases m.scan c m.index (file.drop m.index), next_eq_of_inside hfamily hscope⟩

theorem next_of_outsideStep {ls : List Line} {s : Scan} {items : List Item} {further : Nat}
    (hfamily : m.scan.family = .indent) (hscope : m.scan.scope = none)
    (hls : file.drop m.index = ls) (hstep : outsideStep m.scan m.index ls = .done s items further) :
    m.next file =
      { scan := s, index := m.index + further + 1, items := m.items ++ items } := by
  rw [next_eq_of_outside hfamily hscope, hls, hstep]
  rfl

theorem next_of_insideStep {ls : List Line} {c : ClassScope} {step : Step}
    (hfamily : m.scan.family = .indent) (hscope : m.scan.scope = some c)
    (hls : file.drop m.index = ls) (hstep : insideStep m.scan c m.index ls = step) :
    m.next file = m.follow step := by
  rw [next_eq_of_inside hfamily hscope, hls, hstep]

theorem start_foldl_addProperty (ps : List Property) (c : ClassScope) :
    (ps.foldl ClassScope.addProperty c).start = c.start := by
  induction ps generalizing c with
  | nil => rfl
  | cons p ps ih => rw [List.foldl_cons, ih, ClassScope.addProperty_start]

theorem start_addMethod (s : Scan) (c : ClassScope) (head : FunctionHead) (at_ : Nat)
    (ls : List Line) : (addMethod s c head at_ ls).1.start = c.start := by
  simp only [addMethod, ClassScope.addMethod_start, start_foldl_addProperty]

theorem stop_addMethod (s : Scan) (c : ClassScope) (head : FunctionHead) (at_ : Nat)
    (ls : List Line) : (addMethod s c head at_ ls).1.stop = at_ + bodyExtent head ls := rfl

/-- A class that is still open reaches at least to its line and at most to the end of the
file: each call that keeps it open sets its end to a line that the call finishes. -/
theorem InsideCase.inFile {s s' : Scan} {c c' : ClassScope} {ls : List Line} {index : Nat}
    {step : Step} {items : List Item} {further : Nat} (h : InsideCase s c index ls step)
    (hstep : step = .done s' items further) (hls : ls = file.drop index)
    (hlt : index < file.length) (hold : c.InFile file index) (hscope : s'.scope = some c') :
    c'.InFile file (index + further + 1) := by
  have hbegun := hold.begun
  have hkept := hold.kept
  have hends := hold.ends
  have hlen : ls.length = file.length - index := by rw [hls, List.length_drop]
  have hne : ls ≠ [] := List.length_pos_iff.mp (by omega)
  cases h with
  | silent =>
    cases hstep
    cases hscope
    exact ⟨by omega, hkept, hends⟩
  | decorator | nothing =>
    cases hstep
    cases hscope
    exact ⟨by simp only; omega, by simp only; omega, by simp only; omega⟩
  | closes | classHead => cases hstep
  | docstring hd =>
    cases hstep
    cases hscope
    have hfurther := Docstring.further_lt_of_at? hd
    exact ⟨by simp only; omega, by simp only; omega, by simp only; omega⟩
  | function hit =>
    cases hstep
    cases hscope
    -- a method takes its class with it to the end of its body
    have hhead := ((isLocal_of_inside hit).further_bounds rfl hne).2
    have hbody := bodyExtent_lt hhead
    refine ⟨?_, ?_, ?_⟩
    · rw [start_addMethod]
      simp only
      omega
    · rw [start_addMethod, stop_addMethod]
      simp only
      omega
    · rw [stop_addMethod]
      omega
  | property =>
    cases hstep
    cases hscope
    exact ⟨by simp only [ClassScope.addProperty_start]; omega,
      by simp only [ClassScope.addProperty_start, ClassScope.addProperty_stop]; omega,
      by simp only [ClassScope.addProperty_stop]; omega⟩

/-- The docstring of a class belongs to the lines that its header finishes. -/
theorem OutsideCase.inFile {s s' : Scan} {c' : ClassScope} {ls : List Line} {index : Nat}
    {step : Step} {items : List Item} {further : Nat} (h : OutsideCase s index ls step)
    (hstep : step = .done s' items further) (hls : ls = file.drop index)
    (hlt : index < file.length) (hnone : s.scope = none) (hscope : s'.scope = some c') :
    c'.InFile file (index + further + 1) := by
  have hlen : ls.length = file.length - index := by rw [hls, List.length_drop]
  cases h with
  | classHead hit hdoc =>
    cases hstep
    cases hscope
    have hfurther : index + further < file.length := by
      rcases hdoc with ⟨-, -, rfl⟩ | ⟨d, hd, -, rfl⟩
      · exact hlt
      · have hwithin := Docstring.further_lt_of_within? hd
        rw [List.length_drop] at hwithin
        omega
    exact ⟨by simp only [openedScope]; omega, by simp only [openedScope]; omega, hfurther⟩
  | _ =>
    cases hstep
    simp [hnone] at hscope

end Indent

theorem Indent.classInFile_next {file : List Line} {m : Moment} (hfamily : m.scan.family = .indent)
    (hlt : m.index < file.length) (h : m.ClassInFile file) : (m.next file).ClassInFile file := by
  intro c' hc'
  cases hscope : m.scan.scope with
  | none =>
    obtain ⟨step, hcase, hnext⟩ := next_outside file hfamily hscope
    obtain ⟨s', items, further, rfl, -⟩ := hcase.exists_done (Moment.drop_ne_nil hlt)
    rw [hnext] at hc' ⊢
    exact hcase.inFile rfl rfl hlt hscope hc'
  | some c =>
    obtain ⟨step, hcase, hnext⟩ := next_inside file hfamily hscope
    rcases hcase.done_or_again (Moment.drop_ne_nil hlt) with
      ⟨s', items, further, rfl, -⟩ | ⟨items, rfl⟩
    · rw [hnext] at hc' ⊢
      exact hcase.inFile rfl rfl hlt (h c hscope) hc'
    · -- no class is open when the line is read again
      rw [hnext] at hc'
      simp [Moment.follow] at hc'

theorem Indent.family_next {file : List Line} {m : Moment} (hfamily : m.scan.family = .indent) :
    (m.next file).scan.family = .indent := by
  cases hscope : m.scan.scope with
  | none =>
    obtain ⟨step, hcase, hnext⟩ := next_outside file hfamily hscope
    rw [hnext]
    cases hcase <;> exact hfamily
  | some c =>
    obtain ⟨step, hcase, hnext⟩ := next_inside file hfamily hscope
    rw [hnext]
    cases hcase <;> exact hfamily

theorem Indent.path_next {file : List Line} {m : Moment} (hfamily : m.scan.family = .indent) :
    (m.next file).scan.path = m.scan.path := by
  cases hscope : m.scan.scope with
  | none =>
    obtain ⟨step, hcase, hnext⟩ := next_outside file hfamily hscope
    rw [hnext]
    cases hcase <;> rfl
  | some c =>
    obtain ⟨step, hcase, hnext⟩ := next_inside file hfamily hscope
    rw [hnext]
    cases hcase <;> rfl

/-! ## Whole scans -/

section

variable {path : String} {family : Family} {file : List Line} {m : Moment}

/-- A scan keeps to its file. -/
theorem Moment.Reached.sameFile (h : Reached file (.start path family) m) :
    m.scan.path = path ∧ m.scan.family = family := by
  cases family with
  | brace => exact Brace.sameFile_of_reached h
  | indent =>
    refine h.invariant (I := fun m => m.scan.path = path ∧ m.scan.family = .indent) ⟨rfl, rfl⟩ ?_
    rintro m ⟨hpath, hfamily⟩ -
    exact ⟨(Indent.path_next hfamily).trans hpath, Indent.family_next hfamily⟩

/-- At every moment the class that is open is one of the file. -/
theorem Moment.Reached.classInFile (h : Reached file (.start path family) m) :
    m.ClassInFile file := by
  cases family with
  | brace =>
    -- the handlers of a family say nothing about the other one, so it is carried along
    refine (h.invariant (I := fun m => m.scan.family = .brace ∧ m.ClassInFile file)
      ⟨rfl, fun c hc => by simp [start] at hc⟩ ?_).2
    rintro m ⟨hfamily, hclass⟩ hlt
    have hsame := Brace.sameFile_next hfamily hlt
    exact ⟨hsame.family.trans hfamily,
      Brace.classInFile_of_move (Brace.next_move hfamily) hlt hclass⟩
  | indent =>
    refine (h.invariant (I := fun m => m.scan.family = .indent ∧ m.ClassInFile file)
      ⟨rfl, fun c hc => by simp [start] at hc⟩ ?_).2
    rintro m ⟨hfamily, hclass⟩ hlt
    exact ⟨Indent.family_next hfamily, Indent.classInFile_next hfamily hlt hclass⟩

/-- A law that each call obeys holds at every moment of a scan of the brace family. -/
theorem Brace.CallObeys.reached {P : Item → Prop} {Q : ClassScope → Prop}
    (hobeys : ∀ {m : Moment}, Moment.Reached file (.start path .brace) m →
      m.index < file.length → CallObeys file m P Q)
    (hclosed : ∀ {c index}, ClassScope.InFile file index c → Q c → P (.closed c))
    (h : Moment.Reached file (.start path .brace) m) :
    (∀ item ∈ m.items, P item) ∧ ∀ c, m.scan.scope = some c → Q c := by
  induction h with
  | first => simp [Moment.start]
  | next hreached hlt ih =>
    have hfamily := (sameFile_of_reached hreached).2
    exact (hobeys hreached hlt).move hclosed (next_move hfamily) hlt hreached.classInFile ih.1 ih.2

/-- The call moves on, or leaves a class and its line, and then the next call moves on. -/
def Moment.MovesOn (file : List Line) (m : Moment) : Prop :=
  m.index < (m.next file).index ∨
    m.scan.scope.isSome = true ∧ (m.next file).scan.scope = none ∧
      (m.next file).index = m.index ∧ m.index < ((m.next file).next file).index

theorem Moment.movesOn (hlt : m.index < file.length) : m.MovesOn file := by
  rcases next_cases hlt with ⟨s, items, further, -, hnext, -⟩ | ⟨hsome, s, items, -, hnext, hnone⟩
  · refine .inl ?_
    rw [hnext]
    simp only
    omega
  · refine .inr ⟨hsome, by rw [hnext]; exact hnone, by rw [hnext], ?_⟩
    have hlt' : (m.next file).index < file.length := by
      rw [hnext]
      exact hlt
    -- outside classes no call leaves its line
    rcases next_cases hlt' with ⟨s', items', further', -, hnext', -⟩ | ⟨hsome', -⟩
    · rw [hnext', hnext]
      simp only
      omega
    · rw [hnext] at hsome'
      simp [hnone] at hsome'

end

/-- A scan of `n` lines is over after at most `2 * n` calls, each of which moves on or
leaves a class before the next one moves on. It stays in the file, and so does the class
that is open. From any line, what is looked ahead for ends in the file, and any text is
cut between characters. -/
theorem scan_ends_and_stays_in_file (path : String) (content : List Char) (family : Family) :
    let file := Text.lines content
    let first := Moment.start path family
    (first.after file (2 * file.length)).index = file.length ∧
      scanLines path family file =
        .ofItems path family (first.after file (2 * file.length)).allItems ∧
      (∀ m, Moment.Reached file first m →
        m.index ≤ file.length ∧ m.ClassInFile file ∧
          (m.index < file.length → m.MovesOn file)) ∧
      (∀ i < file.length, HeadersEnd (file.drop i) ∧ ExtentsEnd (file.drop i)) ∧
      ∀ t, CutsWhole t := by
  intro file first
  refine ⟨Moment.index_last path family file, scanLines_eq_ofItems path family file, ?_, ?_,
    cutsWhole⟩
  · intro m hm
    exact ⟨hm.index_le (Nat.zero_le _), hm.classInFile, Moment.movesOn⟩
  · intro i hi
    have hne : file.drop i ≠ [] := Moment.drop_ne_nil hi
    exact ⟨headersEnd hne, extentsEnd hne⟩

end CodeAtlas
