/-
Strings that are assigned to constants.

A scan of the indentation family does not know that it is inside a string. A line `NAME = """`
is the line of a constant, the lines of the text are read as lines of the file, and the line that
closes the string begins with a quote: it is taken for the opening of another string, which lasts
to the next line with a quote or, mostly, to the end of the file. In any state the scan passes
the lines in between and records nothing of them (`next_of_quote`). So behind a string a file
goes on as it does behind a number exactly if these lines declare nothing (`build_quoted`).

The text matters only by the state in which it leaves the scan. Prose leaves it as it was
(`exists_reached_behind`), since no row of the table answers to a line of prose.
-/
import CodeAtlas.Proofs.Header.Constant
import CodeAtlas.Proofs.Outline.Shift
import CodeAtlas.Proofs.Text.Search

set_option autoImplicit false

namespace CodeAtlas

/-! ## The lines that a docstring takes -/

/-- The text of a docstring ends on the first line with the quote, or on the last line. -/
theorem Docstring.further_bodyFrom {quote : List Char} (hne : quote ≠ []) (read : Nat)
    (ls : List Line) :
    (bodyFrom quote (read + 1) ls).2 =
      read + min (ls.findIdx (fun l => Text.occurs quote (Text.trim l)) + 1) ls.length := by
  induction ls generalizing read with
  | nil => rfl
  | cons l ls ih =>
    have hoccurs := Text.isSome_cut? hne (Text.trim l)
    rw [bodyFrom, List.findIdx_cons, List.length_cons, ← hoccurs]
    cases Text.cut? quote (Text.trim l) with
    | some _ =>
      simp only [Option.isSome_some, cond_true]
      omega
    | none =>
      simp only [Option.isSome_none, cond_false, ih (read + 1)]
      omega

namespace Indent

section

variable {path : String} {file front text back : List Line} {m : Moment}

/-! ## States in which nothing is open -/

/-- The indentation family counts no brackets and has no comments of several lines. -/
theorem still_next (file : List Line) (hfamily : m.scan.family = .indent) :
    (m.next file).scan.depth = m.scan.depth ∧
      (m.next file).scan.inComment = m.scan.inComment := by
  cases hscope : m.scan.scope with
  | none =>
    obtain ⟨step, hcase, hnext⟩ := next_outside file hfamily hscope
    rw [hnext]
    cases hcase <;> exact ⟨rfl, rfl⟩
  | some c =>
    obtain ⟨step, hcase, hnext⟩ := next_inside file hfamily hscope
    rw [hnext]
    cases hcase <;> exact ⟨rfl, rfl⟩

/-- Outside classes nothing but doc comments and decorators can be open. -/
theorem clean_forget (h : Moment.Reached file (.start path .indent) m)
    (hscope : m.scan.scope = none) : m.scan.forget.Clean := by
  obtain ⟨-, hdepth, hcomment⟩ := h.invariant
    (I := fun m => m.scan.family = .indent ∧ m.scan.depth = 0 ∧ m.scan.inComment = false)
    ⟨rfl, rfl, rfl⟩ fun m ⟨hfamily, hdepth, hcomment⟩ _ => by
      obtain ⟨hdepth', hcomment'⟩ := still_next file hfamily
      exact ⟨family_next hfamily, hdepth'.trans hdepth, hcomment'.trans hcomment⟩
  exact { noClass := hscope, depth := hdepth, noDocLines := rfl, docClosed := rfl,
          noDecorators := rfl, noComment := hcomment }

/-! ## The closing line -/

/-- Three quotation marks; a line with nothing else closes a string. -/
def quote : List Char := ['"', '"', '"']

/-- The number of lines at the start of `back` that are hidden by a closing line in front: those
through the first one with a quote, or all of them. -/
def hidden (back : List Line) : Nat :=
  min (back.findIdx (fun l => Text.occurs quote (Text.trim l)) + 1) back.length

theorem hidden_le (back : List Line) : hidden back ≤ back.length := Nat.min_le_right _ _

theorem at?_quote (back : List Line) :
    ∃ d, Docstring.at? (quote :: back) = some d ∧ d.further = hidden back := by
  have hfurther := Docstring.further_bodyFrom (show quote ≠ [] by decide) 0 back
  rw [Nat.zero_add, Nat.zero_add] at hfurther
  exact ⟨_, rfl, hfurther⟩

theorem closesClass_quote (base : Nat) : closesClass base quote = false := by
  have hbegins : (Text.starts "def " (Text.trim quote) ||
      Text.starts "async def " (Text.trim quote) || Text.starts "class " (Text.trim quote) ||
      Text.starts "@" (Text.trim quote) ||
      (constantAssignment.fits (Text.trim quote) && !Text.has "self." (Text.trim quote))) =
        false := by
    decide +kernel
  rw [closesClass, hbegins, Bool.and_false]

/-- A call on a closing line passes the lines that it hides, and records nothing. -/
theorem next_of_quote (hfamily : m.scan.family = .indent)
    (hback : file.drop m.index = quote :: back) :
    (m.next file).index = m.index + hidden back + 1 ∧ (m.next file).items = m.items ∧
      (m.scan.scope = none → (m.next file).scan = m.scan.forget) := by
  obtain ⟨d, hd, hfurther⟩ := at?_quote back
  have hspeaks : saysNothing (firstTrimmed (quote :: back)) = false := rfl
  cases hscope : m.scan.scope with
  | none =>
    have hstep : outsideStep m.scan m.index (quote :: back) =
        .done m.scan.forget [] d.further := by
      simp only [outsideStep, hspeaks, hd, Bool.false_eq_true, if_false]
    rw [next_of_outsideStep hfamily hscope hback hstep, hfurther, List.append_nil]
    exact ⟨rfl, rfl, fun _ => rfl⟩
  | some c =>
    -- three quotes end no class, whatever their indentation, so the class passes them as a
    -- docstring
    have hkeeps : closesClass c.indent ((quote :: back).headD []) = false :=
      closesClass_quote c.indent
    have hstep : insideStep m.scan c m.index (quote :: back) =
        .done { m.scan with scope := some { c with stop := m.index + d.further } } []
          d.further := by
      simp only [insideStep, hspeaks, hkeeps, hd, Bool.false_eq_true, if_false]
    have hnext : m.next file =
        { scan := { m.scan with scope := some { c with stop := m.index + d.further } },
          index := m.index + hidden back + 1, items := m.items } := by
      rw [next_of_insideStep hfamily hscope hback hstep]
      simp only [Moment.follow, hfurther, List.append_nil]
    rw [hnext]
    exact ⟨rfl, rfl, fun hnone => absurd hnone (Option.some_ne_none c)⟩

/-! ## The line of the constant -/

theorem next_of_assignment {name value : List Char} (hname : IsConstantName name)
    (hvalue : IsValue value) (h : Moment.Reached file (.start path .indent) m)
    (hback : file.drop m.index = assignment name value :: back) (hclean : m.scan.Clean) :
    m.next file =
      { scan := m.scan.forget, index := m.index + 1,
        items := m.items ++ [.constant (constantAt path name value m.index)] } := by
  obtain ⟨hpath, hfamily⟩ := h.sameFile
  have hstep := outsideStep_assignment hname hvalue m.scan m.index back
  rw [hpath] at hstep
  exact next_of_outsideStep hfamily hclean.noClass hback hstep

/-- Behind the line of a constant the scan is clean, and it has recorded the constant. -/
theorem exists_reached_assignment {name value : List Char} (hname : IsConstantName name)
    (hvalue : IsValue value)
    (h : Moment.Reached (front ++ assignment name value :: back) (.start path .indent) m)
    (hindex : m.index = front.length) (hclean : m.scan.Clean) :
    ∃ m', Moment.Reached (front ++ assignment name value :: back) (.start path .indent) m' ∧
      m'.index = front.length + 1 ∧ m'.scan.Clean ∧
        m'.items = m.items ++ [.constant (constantAt path name value front.length)] := by
  have hback : (front ++ assignment name value :: back).drop m.index =
      assignment name value :: back := by
    rw [hindex, List.drop_left]
  refine ⟨_, h.next (Moment.lt_length_of_drop hback), ?_⟩
  rw [next_of_assignment hname hvalue h hback hclean, hindex]
  exact ⟨rfl, clean_forget h hclean.noClass, rfl⟩

/-- Behind the line of a constant the file goes on with what the lines there declare. -/
theorem continues_of_assignment {name value : List Char} (hname : IsConstantName name)
    (hvalue : IsValue value)
    (h : Moment.Reached (front ++ assignment name value :: back) (.start path .indent) m)
    (hindex : m.index = front.length) (hclean : m.scan.Clean) :
    (scanLines path .indent (front ++ assignment name value :: back)).Continues
      (m.items ++ [.constant (constantAt path name value front.length)]) (front.length + 1)
      (scanLines path .indent back) := by
  obtain ⟨m', hm', hindex', hclean', hitems⟩ :=
    exists_reached_assignment hname hvalue h hindex hclean
  have hfile : front ++ assignment name value :: back =
      (front ++ [assignment name value]) ++ back := by
    rw [List.append_assoc, List.singleton_append]
  have hlength : (front ++ [assignment name value]).length = front.length + 1 := by
    rw [List.length_append, List.length_singleton]
  rw [hfile] at hm'
  rw [← hlength] at hindex'
  rw [← hitems, ← hlength, hfile]
  exact (Outline.continues_build path .indent).1 _ _ _ hm' hindex' hclean'

/-! ## The lines of the text -/

/-- Nothing comes of the line outside classes, whatever follows it. -/
def Mute (l : Line) : Prop :=
  saysNothing (Text.trim l) = true ∨
    Docstring.opening? ((Text.trim l).dropWhile Docstring.isMark) = none ∧
      Text.starts "__all__" (Text.trim l) = false ∧ ∀ ls, firstHit outside (l :: ls) = none

theorem Mute.outsideStep_eq {l : Line} (h : Mute l) (s : Scan) (at_ : Nat) (ls : List Line) :
    outsideStep s at_ (l :: ls) = .done s [] 0 ∨
      outsideStep s at_ (l :: ls) = .done s.forget [] 0 := by
  have hfirst : firstTrimmed (l :: ls) = Text.trim l := rfl
  rcases h with hsilent | ⟨hopening, hall, hnothing⟩
  · left
    simp only [outsideStep, hfirst, hsilent, if_true]
  · by_cases hsilent : saysNothing (Text.trim l) = true
    · left
      simp only [outsideStep, hfirst, hsilent, if_true]
    · right
      have hcode : Docstring.at? (l :: ls) = none := by
        simp only [Docstring.at?, hopening, Option.bind_eq_bind, Option.bind_none]
      simp only [outsideStep, hfirst, hsilent, hcode, hall, hnothing, Bool.false_eq_true, if_false]

/-- A line is mute if what it begins with is no beginning of what is read outside classes. -/
theorem mute_of_head? {l : Line} {c : Char} (hhead : (Text.trim l).head? = some c)
    (hrow : c ∉ rowMarks) (hname : (c.isUpper || c = '_') = false)
    (hquote : c ≠ '"' ∧ c ≠ '\'') (hmark : Docstring.isMark c = false) : Mute l := by
  have hunderscore : '_' ≠ c := by
    rintro rfl
    cases hname
  refine .inr ⟨?_, Text.not_starts_of_head? "__all__" hhead rfl hunderscore, fun ls => ?_⟩
  · exact Docstring.opening?_of_head? hhead hquote hmark
  · have hfirst : (firstTrimmed (l :: ls)).head? = some c := hhead
    rw [firstHit_eq_constant? hfirst hrow, constant?_eq_none_of_head? hfirst hname, Option.map_none]

/-- Lines of which nothing comes are passed one by one, and the scan stays clean. -/
theorem exists_reached_behind
    (h : Moment.Reached (front ++ (text ++ back)) (.start path .indent) m)
    (hindex : m.index = front.length) (hclean : m.scan.Clean) (hmute : ∀ l ∈ text, Mute l) :
    ∃ m', Moment.Reached (front ++ (text ++ back)) (.start path .indent) m' ∧
      m'.index = front.length + text.length ∧ m'.scan.Clean ∧ m'.items = m.items := by
  induction text generalizing front m with
  | nil => exact ⟨m, h, hindex, hclean, rfl⟩
  | cons l text ih =>
    obtain ⟨hl, hmute⟩ := List.forall_mem_cons.mp hmute
    have hfile : front ++ (l :: text ++ back) = front ++ [l] ++ (text ++ back) := by
      rw [List.append_assoc]
      rfl
    have hback : (front ++ (l :: text ++ back)).drop m.index = l :: (text ++ back) := by
      rw [hindex, List.drop_left]
      rfl
    -- a mute line is passed, or drops what is pending, and nothing is
    have hnext : ∃ s : Scan, s.Clean ∧ m.next (front ++ (l :: text ++ back)) =
        { scan := s, index := m.index + 1, items := m.items } := by
      rcases hl.outsideStep_eq m.scan m.index (text ++ back) with hstep | hstep
      · refine ⟨m.scan, hclean, ?_⟩
        rw [next_of_outsideStep h.sameFile.2 hclean.noClass hback hstep, List.append_nil,
          Nat.add_zero]
      · refine ⟨m.scan.forget, clean_forget h hclean.noClass, ?_⟩
        rw [next_of_outsideStep h.sameFile.2 hclean.noClass hback hstep, List.append_nil,
          Nat.add_zero]
    obtain ⟨s, hs, hnext⟩ := hnext
    have hreached := h.next (Moment.lt_length_of_drop hback)
    rw [hnext, hfile] at hreached
    rw [hfile]
    obtain ⟨m', hm', hindex', hclean', hitems⟩ :=
      ih hreached (by simp only [hindex, List.length_append, List.length_singleton]) hs hmute
    refine ⟨m', hm', ?_, hclean', hitems⟩
    rw [hindex']
    simp only [List.length_append, List.length_cons, List.length_nil]
    omega

/-! ## The file behind the string -/

/-- Where no class is open at a closing line, the file goes on behind the lines that it hides. -/
theorem continues_of_quote
    (h : Moment.Reached (front ++ quote :: back) (.start path .indent) m)
    (hindex : m.index = front.length) (hscope : m.scan.scope = none) :
    (scanLines path .indent (front ++ quote :: back)).Continues m.items
      (front.length + 1 + hidden back) (scanLines path .indent (back.drop (hidden back))) := by
  have hback : (front ++ quote :: back).drop m.index = quote :: back := by
    rw [hindex, List.drop_left]
  obtain ⟨hnext, hitems, hscan⟩ := next_of_quote h.sameFile.2 hback
  have hreached := h.next (Moment.lt_length_of_drop hback)
  -- the lines that were passed, the hidden ones among them, are the front of the file behind
  have hlength : (front ++ quote :: back.take (hidden back)).length =
      front.length + 1 + hidden back := by
    rw [List.length_append, List.length_cons, List.length_take,
      Nat.min_eq_left (hidden_le back)]
    omega
  have hfile : front ++ quote :: back =
      (front ++ quote :: back.take (hidden back)) ++ back.drop (hidden back) := by
    rw [List.append_assoc, List.cons_append, List.take_append_drop]
  rw [hindex] at hnext
  have hclean := clean_forget h hscope
  rw [← hscan hscope] at hclean
  rw [hfile] at hreached hnext hitems hclean ⊢
  have hcontinues := (Outline.continues_build path .indent).1 _ _ _ hreached
    (by rw [hnext, hlength]; omega) hclean
  rwa [hlength, hitems] at hcontinues

end

/-- The file in which a string with the text is assigned to the name. -/
def quotedFile (front : List Line) (name : List Char) (text back : List Line) : List Line :=
  front ++ assignment name quote :: (text ++ quote :: back)

/-- The file in which a number is assigned to the name. -/
def numberedFile (front : List Line) (name : List Char) (back : List Line) : List Line :=
  front ++ assignment name ['0'] :: back

theorem isValue_quote : IsValue quote where
  first := ⟨'"', ['"', '"'], rfl, by decide, by decide⟩
  last := ⟨'"', rfl, by decide⟩
  inLine := by decide

theorem isValue_zero : IsValue ['0'] where
  first := ⟨'0', [], rfl, by decide, by decide⟩
  last := ⟨'0', rfl, by decide⟩
  inLine := by decide

/-- Text of which nothing comes leads to the closing line with the constant alone. -/
theorem exists_reached_closing {path : String} {front text back : List Line} {m : Moment}
    {name : List Char} (hname : IsConstantName name)
    (h : Moment.Reached (quotedFile front name text back) (.start path .indent) m)
    (hindex : m.index = front.length) (hclean : m.scan.Clean) (hmute : ∀ l ∈ text, Mute l) :
    ∃ c, Moment.Reached (quotedFile front name text back) (.start path .indent) c ∧
      c.index = front.length + 1 + text.length ∧ c.scan.Clean ∧
      c.items = m.items ++ [.constant (constantAt path name quote front.length)] := by
  obtain ⟨m', hm', hindex', hclean', hitems⟩ :=
    exists_reached_assignment hname isValue_quote h hindex hclean
  have hfile : quotedFile front name text back =
      (front ++ [assignment name quote]) ++ (text ++ quote :: back) := by
    rw [quotedFile, List.append_assoc, List.singleton_append]
  have hlength : (front ++ [assignment name quote]).length = front.length + 1 := by
    rw [List.length_append, List.length_singleton]
  rw [← quotedFile, hfile] at hm'
  rw [← hlength] at hindex'
  rw [← hitems, hfile]
  obtain ⟨c, hc, hcindex, hcclean, hcitems⟩ := exists_reached_behind hm' hindex' hclean' hmute
  exact ⟨c, hc, by rw [hcindex, hlength], hcclean, hcitems⟩

end Indent

open Indent

theorem Outline.continues_build_iff {path : String} {content : List Char} {items : List Item}
    {n : Nat} {rest : Outline} :
    (build path content .indent).Continues items n rest ↔
      (scanLines path .indent (Text.lines content)).Continues items n rest := by
  constructor
  · intro h
    exact ⟨h.functions, h.classes, h.interfaces, h.types, h.constants, h.imports, h.exports⟩
  · intro h
    exact ⟨h.functions, h.classes, h.interfaces, h.types, h.constants, h.imports, h.exports⟩

/-- With a number, the file goes on behind the constant with what the lines there declare. With a
string, whatever its text has been read as, the closing line and those that it hides are
passed and nothing is recorded of them; outside classes the file then goes on with what
the lines behind the hidden ones declare, which is right exactly if the hidden ones declare
nothing. A text of which nothing comes leads to the closing line with the constant alone. -/
theorem Outline.build_quoted (path : String) {front text back : List Line} {name : List Char}
    (hname : IsConstantName name) {quoted numbered : List Char}
    (hquoted : Text.lines quoted = quotedFile front name text back)
    (hnumbered : Text.lines numbered = numberedFile front name back) {m k : Moment}
    (hm : Moment.Reached (Text.lines quoted) (.start path .indent) m)
    (hk : Moment.Reached (Text.lines numbered) (.start path .indent) k)
    (hmindex : m.index = front.length) (hkindex : k.index = front.length)
    (hmclean : m.scan.Clean) (hkclean : k.scan.Clean) :
    let behind := scanLines path .indent back
    let visible := scanLines path .indent (back.drop (hidden back))
    let closing := front.length + 1 + text.length
    (build path numbered .indent).Continues
        (k.items ++ [.constant (constantAt path name ['0'] front.length)]) (front.length + 1)
        behind ∧
      (∀ c, Moment.Reached (Text.lines quoted) (.start path .indent) c → c.index = closing →
        (c.next (Text.lines quoted)).index = closing + 1 + hidden back ∧
          (c.next (Text.lines quoted)).items = c.items ∧
          (c.scan.scope = none →
            (build path quoted .indent).Continues c.items (closing + 1 + hidden back) visible ∧
              ((build path quoted .indent).Continues c.items (closing + 1) behind ↔
                behind.Continues [] (hidden back) visible))) ∧
      ((∀ l ∈ text, Mute l) →
        ∃ c, Moment.Reached (Text.lines quoted) (.start path .indent) c ∧ c.index = closing ∧
          c.scan.Clean ∧
          c.items = m.items ++ [.constant (constantAt path name quote front.length)]) := by
  intro behind visible closing
  rw [hquoted] at hm
  rw [hnumbered] at hk
  simp only [continues_build_iff, hquoted, hnumbered]
  refine ⟨?_, ?_, ?_⟩
  · exact continues_of_assignment hname isValue_zero hk hkindex hkclean
  · intro c hc hindex
    -- the closing line is taken for an opening one, with the constant and its text in front of it
    have hfile : quotedFile front name text back =
        (front ++ assignment name quote :: text) ++ quote :: back := by
      rw [quotedFile, List.append_assoc, List.cons_append]
    have hlength : (front ++ assignment name quote :: text).length = closing := by
      rw [List.length_append, List.length_cons]
      omega
    rw [hfile] at hc ⊢
    rw [← hlength] at hindex ⊢
    have hback : ((front ++ assignment name quote :: text) ++ quote :: back).drop c.index =
        quote :: back := by
      rw [hindex, List.drop_left]
    obtain ⟨hnext, hitems, -⟩ := next_of_quote hc.sameFile.2 hback
    refine ⟨by rw [hnext, hindex]; omega, hitems, fun hscope => ?_⟩
    have hvisible := continues_of_quote hc hindex hscope
    exact ⟨hvisible, hvisible.iff_of_passed⟩
  · exact exists_reached_closing hname hm hmindex hmclean

/-- The two lines of a function. -/
def passingFunction : List Line := ["def f():".toList, "    pass".toList]

/-- A file with a line of prose in a string, and the function behind it. -/
def quotedProse : List Char :=
  Text.terminated (quotedFile importLine ['X'] ["text".toList] passingFunction)

/-- The file with a number in place of the string. -/
def numberInPlace : List Char := Text.terminated (numberedFile importLine ['X'] passingFunction)

/-- The function is behind the number and not behind the string. -/
theorem build_quotedProse :
    let m := (Moment.start "a.py" .indent).next (Text.lines quotedProse)
    let k := (Moment.start "a.py" .indent).next (Text.lines numberInPlace)
    let behind := scanLines "a.py" .indent passingFunction
    let visible := scanLines "a.py" .indent (passingFunction.drop (hidden passingFunction))
    IsConstantName ['X'] ∧
      (Text.lines quotedProse = quotedFile importLine ['X'] ["text".toList] passingFunction ∧
        Moment.Reached (Text.lines quotedProse) (.start "a.py" .indent) m ∧
        m.index = importLine.length ∧ m.scan.Clean) ∧
      (Text.lines numberInPlace = numberedFile importLine ['X'] passingFunction ∧
        Moment.Reached (Text.lines numberInPlace) (.start "a.py" .indent) k ∧
        k.index = importLine.length ∧ k.scan.Clean) ∧
      (Outline.build "a.py" numberInPlace .indent).Continues
        (k.items ++ [.constant (constantAt "a.py" ['X'] ['0'] 1)]) 2 behind ∧
      (∀ l ∈ ["text".toList], Mute l) ∧
      ∃ c, Moment.Reached (Text.lines quotedProse) (.start "a.py" .indent) c ∧ c.index = 3 ∧
        c.items = m.items ++ [.constant (constantAt "a.py" ['X'] quote 1)] ∧
        hidden passingFunction = 2 ∧ (c.next (Text.lines quotedProse)).index = 6 ∧
        (Outline.build "a.py" quotedProse .indent).Continues c.items 6 visible ∧
        ¬ (Outline.build "a.py" quotedProse .indent).Continues c.items 4 behind := by
  intro m k behind visible
  have hname : IsConstantName ['X'] :=
    ⟨⟨'X', [], rfl, by decide⟩, List.forall_mem_singleton.mpr (by decide)⟩
  have hquoted : Text.lines quotedProse =
      quotedFile importLine ['X'] ["text".toList] passingFunction := by decide +kernel
  have hnumbered : Text.lines numberInPlace =
      numberedFile importLine ['X'] passingFunction := by decide +kernel
  have hm : Moment.Reached (Text.lines quotedProse) (.start "a.py" .indent) m :=
    .next .first (by decide +kernel)
  have hk : Moment.Reached (Text.lines numberInPlace) (.start "a.py" .indent) k :=
    .next .first (by decide +kernel)
  have hmindex : m.index = importLine.length := by decide +kernel
  have hkindex : k.index = importLine.length := by decide +kernel
  have hmclean : m.scan.Clean :=
    { noClass := Option.isNone_iff_eq_none.mp (by decide +kernel), depth := by decide +kernel,
      noDocLines := by decide +kernel, docClosed := by decide +kernel,
      noDecorators := by decide +kernel, noComment := by decide +kernel }
  have hkclean : k.scan.Clean :=
    { noClass := Option.isNone_iff_eq_none.mp (by decide +kernel), depth := by decide +kernel,
      noDocLines := by decide +kernel, docClosed := by decide +kernel,
      noDecorators := by decide +kernel, noComment := by decide +kernel }
  have hmute : ∀ l ∈ ["text".toList], Mute l := by
    intro l hl
    rw [List.mem_singleton.mp hl]
    exact mute_of_head? (c := 't') (by decide) (by decide) (by decide) (by decide) (by decide)
  obtain ⟨hnumber, hclosing, htext⟩ :=
    Outline.build_quoted "a.py" hname hquoted hnumbered hm hk hmindex hkindex hmclean hkclean
  obtain ⟨c, hc, hindex, hclean, hitems⟩ := htext hmute
  obtain ⟨hnext, -, hbehind⟩ := hclosing c hc hindex
  obtain ⟨hvisible, hright⟩ := hbehind hclean.noClass
  have hhidden : hidden passingFunction = 2 := by decide +kernel
  have hlost : ¬ behind.Continues [] (hidden passingFunction) visible := by
    intro h
    have hfunctions : behind.functions.length = visible.functions.length := by
      rw [h.functions, List.filterMap_nil, List.nil_append, List.length_map]
    have hone : behind.functions.length = 1 := by decide +kernel
    have hnone : visible.functions.length = 0 := by decide +kernel
    omega
  rw [hhidden] at hnext hvisible
  exact ⟨hname, ⟨hquoted, hm, hmindex, hmclean⟩, ⟨hnumbered, hk, hkindex, hkclean⟩, hnumber, hmute,
    c, hc, hindex, hitems, hhidden, hnext, hvisible, mt hright.mp hlost⟩

theorem functions_quotedProse :
    (Outline.build "a.py" quotedProse .indent).functions = [] ∧
      (Outline.build "a.py" numberInPlace .indent).functions.map (·.name) = ["f"] := by
  decide +kernel

end CodeAtlas
