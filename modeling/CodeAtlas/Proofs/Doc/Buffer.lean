/-
Doc blocks through the buffer.

A buffer is used again and again: blocks are begun and left, begun anew, taken out too early or
twice. What it gives depends on none of this, because a block that begins forgets what was there
before (`after_feed`), and a buffer that was emptied is a new one.

A comment may be written in one line or over many (`Layout`). The buffer keeps the lines as they
are; the marks are taken off when the comment is taken out, and each kind of line leaves its own
text or nothing (`stripMarks_rowLine`, `stripMarks_oneLine`). So whatever the layout, the texts of
the comment come back, and up to the first tag they are its description.
-/
import CodeAtlas.Doc.Block
import CodeAtlas.Proofs.Text.Lines
import CodeAtlas.Proofs.Text.Search
import CodeAtlas.Proofs.Text.Trim

set_option autoImplicit false

namespace CodeAtlas

namespace DocBuffer

/-! ## Histories -/

/-- What can be done with a buffer. -/
inductive Op where
  | start (l : Line)
  | push (l : Line)
  | clear
  | take
  deriving DecidableEq, Repr

/-- The buffer behind an operation. -/
def apply (b : DocBuffer) : Op → DocBuffer
  | .start l => .start l
  | .push l => b.push l
  | .clear => {}
  | .take => b.take.2

/-- What an operation hands out. -/
def answer (b : DocBuffer) : Op → Option Doc
  | .take => b.take.1
  | _ => none

/-- The buffer behind the operations. -/
def after (b : DocBuffer) (ops : List Op) : DocBuffer := ops.foldl apply b

/-- What is seen of the operations: after each one, whether a block is open, and what was
handed out. -/
def replies (b : DocBuffer) : List Op → List (Bool × Option Doc)
  | [] => []
  | op :: ops => ((b.apply op).isOpen, b.answer op) :: (b.apply op).replies ops

/-- A block begins with the first of the lines and goes on with the others. -/
def feed : List Line → List Op
  | [] => []
  | l :: ls => .start l :: ls.map .push

variable {b : DocBuffer} {ls : List Line}

theorem after_append (b : DocBuffer) (ops more : List Op) :
    b.after (ops ++ more) = (b.after ops).after more := List.foldl_append

theorem after_pushes (b : DocBuffer) (ls : List Line) :
    b.after (ls.map .push) =
      { back := ls.reverse ++ b.back, isOpen := b.isOpen && ls.all (!closes ·) } := by
  induction ls generalizing b with
  | nil => simp [after]
  | cons l ls ih =>
    have hstep : b.after ((l :: ls).map .push) = (b.push l).after (ls.map .push) := rfl
    rw [hstep, ih]
    simp [push, Bool.and_assoc]

/-- Behind the lines of a block the buffer holds these lines, whatever it held before, and the
block is open unless one of them closes it. -/
theorem after_feed (b : DocBuffer) (hne : ls ≠ []) :
    b.after (feed ls) = { back := ls.reverse, isOpen := ls.all (!closes ·) } := by
  obtain ⟨l, ls, rfl⟩ := List.exists_cons_of_ne_nil hne
  have hstep : b.after (feed (l :: ls)) = (start l).after (ls.map .push) := rfl
  rw [hstep, after_pushes]
  simp [start]

/-- A block that is still open gives nothing and is gone. -/
theorem take_of_isOpen (h : b.isOpen = true) : b.take = (none, {}) := by
  simp [take, doc?, h]

/-- A closed block gives what its lines say. -/
theorem doc?_of_closed {doc : Doc} (hne : ls ≠ [])
    (hdoc : Doc.ofBlock (['\n'].intercalate ls) = doc) (hfull : doc.full.isSome = true) :
    ({ back := ls.reverse, isOpen := false } : DocBuffer).doc? = some doc := by
  have hback : ls.reverse.isEmpty = false := by simpa using hne
  have hspeaks : doc.full.isNone = false := by simpa using hfull
  simp [doc?, hback, hdoc, hspeaks]

end DocBuffer

/-! ## How a comment is written -/

namespace Doc

open DocBuffer (closes)

/-- A text that can stand on a line of a doc block: trimmed, and not to be taken for a mark. -/
structure IsRowText (t : Line) : Prop where
  trimmed : Text.trim t = t
  nonempty : t ≠ []
  unbroken : '\n' ∉ t
  unclosed : closes t = false
  plain : t.head? ≠ some '*' ∧ t.head? ≠ some '/'

/-- A comment over many lines, each with a text or empty, or on one line. -/
inductive Layout where
  | rows (rows : List (Option Line))
  | oneLine (t : Line)

/-- A line inside a block. -/
def rowLine : Option Line → Line
  | some t => '*' :: ' ' :: t
  | none => ['*']

namespace Layout

def texts : Layout → List Line
  | rows rs => rs.filterMap id
  | oneLine t => [t]

def lines : Layout → List Line
  | rows rs => "/**".toList :: rs.map rowLine ++ ["*/".toList]
  | oneLine t => ["/** ".toList ++ t ++ " */".toList]

end Layout

/-- The texts in front of the first tag, if there are any. -/
def described (ts : List Line) : Option String :=
  match ts.takeWhile (·.head? ≠ some '@') with
  | [] => none
  | front => some (String.ofList ([' '].intercalate front))

/-! ## Marks -/

variable {t : Line}

theorem stripMarks_dropCarriage (l : Line) : stripMarks (Text.dropCarriage l) = stripMarks l := by
  have htrim : Text.trim (Text.dropCarriage l) = Text.trim l := by
    rcases Text.dropCarriage_eq_or l with heq | heq
    · rw [heq]
    · conv_rhs => rw [heq, Text.trim_append_of_isBlank_right rfl]
  rw [stripMarks, htrim, stripMarks]

theorem dropLead_of_head? {lead : String} {c : Char} (hlead : lead.toList.head? = some c)
    (h : t.head? ≠ some c) : Text.dropLead lead t = t := by
  have hnone : Text.after? lead.toList t = none := by
    rw [Option.eq_none_iff_forall_ne_some]
    intro rest hafter
    rw [Text.after?_eq_some_iff.mp hafter, List.head?_append, hlead] at h
    exact h rfl
  rw [Text.dropLead, hnone]
  rfl

/-- A text does not close a comment with the star in front of it. -/
theorem IsRowText.closes_rowLine (h : IsRowText t) : closes (rowLine (some t)) = false := by
  have hunclosed : Text.occurs ['*', '/'] t = false := h.unclosed
  show Text.occurs ['*', '/'] ('*' :: ' ' :: t) = false
  simp [Text.occurs, List.isPrefixOf, hunclosed]

theorem IsRowText.not_isBlank (h : IsRowText t) : Text.isBlank t = false := by
  rw [Bool.eq_false_iff]
  intro hblank
  exact h.nonempty (h.trimmed.symm.trans (Text.trim_eq_nil_of_isBlank hblank))

theorem IsRowText.stripMarks_some (h : IsRowText t) : stripMarks (rowLine (some t)) = t := by
  have htrim : Text.trim ('*' :: ' ' :: t) = '*' :: ' ' :: t :=
    Text.trim_append_eq_self (c := '*') rfl [' '] h.trimmed h.nonempty
  have hlead : Text.dropLead "/**" ('*' :: ' ' :: t) = '*' :: ' ' :: t :=
    dropLead_of_head? (c := '/') rfl (by simp)
  have hclose : Text.dropClose "*/" ('*' :: ' ' :: t) = '*' :: ' ' :: t :=
    Text.dropClose_of_not_has h.closes_rowLine
  have hstar : Text.dropLead "*" ('*' :: ' ' :: t) = [' '] ++ t := rfl
  rw [rowLine, stripMarks, htrim, hlead]
  simp only [hclose, htrim, hstar, Text.trim_append_of_isBlank (g := [' ']) rfl, h.trimmed]

/-- A line of a block says its text. -/
theorem stripMarks_rowLine (r : Option Line) (h : ∀ t ∈ r, IsRowText t) :
    stripMarks (rowLine r) = r.getD [] := by
  cases r with
  | none => decide
  | some t => exact (h t rfl).stripMarks_some

/-- A block on one line says its text. -/
theorem IsRowText.stripMarks_oneLine (h : IsRowText t) :
    stripMarks ("/** ".toList ++ t ++ " */".toList) = t := by
  have htrim : Text.trim ("/** ".toList ++ t ++ " */".toList) =
      "/** ".toList ++ t ++ " */".toList := by
    have hkeeps := Text.trim_append_eq_self (c := '/') rfl ("** ".toList ++ t ++ [' '])
      (t := "*/".toList) (by decide) (by decide)
    simpa using hkeeps
  have hlead : Text.dropLead "/**" ("/** ".toList ++ t ++ " */".toList) =
      ' ' :: (t ++ " */".toList) := rfl
  have hclose : Text.dropClose "*/" (' ' :: (t ++ " */".toList)) = ' ' :: (t ++ [' ']) := by
    have hafter : Text.after? "*/".toList.reverse (' ' :: (t ++ " */".toList)).reverse =
        some (' ' :: (t ++ [' '])).reverse := by
      rw [Text.after?_eq_some_iff]
      simp
    rw [Text.dropClose, hafter, Option.map_some, Option.getD_some, List.reverse_reverse]
  have hinner : Text.trim (' ' :: (t ++ [' '])) = t := by
    have hfront := Text.trim_append_of_isBlank (g := [' ']) rfl (t ++ [' '])
    rw [List.singleton_append] at hfront
    rw [hfront, Text.trim_append_of_isBlank_right rfl, h.trimmed]
  have hstar : Text.dropLead "*" t = t := dropLead_of_head? (c := '*') rfl h.plain.1
  rw [stripMarks, htrim, hlead]
  simp only [hclose, hinner, hstar, h.trimmed]

/-! ## Blocks as a whole -/

/-- Taking the marks off the lines of a text is taking them off the lines that it is made of. -/
theorem map_stripMarks_lines {ls : List Line} (hls : ∀ l ∈ ls, '\n' ∉ l) {l : Line} (hl : '\n' ∉ l)
    (hne : l ≠ []) :
    (Text.lines (['\n'].intercalate (ls ++ [l]))).map stripMarks = (ls ++ [l]).map stripMarks := by
  have hfront : (ls.map Text.dropCarriage).map stripMarks = ls.map stripMarks := by
    have hmarks : stripMarks ∘ Text.dropCarriage = stripMarks := by
      funext k
      rw [Function.comp_apply, stripMarks_dropCarriage]
    rw [List.map_map, hmarks]
  rw [Text.lines_intercalate hls hl hne, List.map_append, hfront, ← List.map_append]

theorem IsRowText.newline_notMem_rowLine {r : Option Line} (h : ∀ t ∈ r, IsRowText t) :
    '\n' ∉ rowLine r := by
  cases r with
  | none => decide
  | some t =>
    have hunbroken := (h t rfl).unbroken
    simp [rowLine, hunbroken]

namespace Layout

variable {w : Layout}

theorem forall_of_texts {rs : List (Option Line)} (h : ∀ t ∈ (rows rs).texts, IsRowText t) :
    ∀ r ∈ rs, ∀ t ∈ r, IsRowText t := by
  rintro r hr t rfl
  exact h t (List.mem_filterMap.mpr ⟨some t, hr, rfl⟩)

/-- Rows without a text say nothing. -/
theorem filter_getD {rs : List (Option Line)} (h : ∀ r ∈ rs, ∀ t ∈ r, IsRowText t) :
    (rs.map (·.getD [])).filter (!·.isEmpty) = rs.filterMap id := by
  induction rs with
  | nil => rfl
  | cons r rs ih =>
    obtain ⟨hr, hrs⟩ := List.forall_mem_cons.mp h
    cases r with
    | none => exact ih hrs
    | some t =>
      have hne := (hr t rfl).nonempty
      rw [List.map_cons, List.filter_cons_of_pos (by simp [hne]), ih hrs]
      rfl

/-- The lines of a comment say its texts, and otherwise nothing. -/
theorem filter_stripped (h : ∀ t ∈ w.texts, IsRowText t) :
    ((Text.lines (['\n'].intercalate w.lines)).map stripMarks).filter (!·.isEmpty) = w.texts := by
  cases w with
  | oneLine t =>
    have ht : IsRowText t := h t List.mem_cons_self
    have hlines := map_stripMarks_lines (List.forall_mem_nil _)
      (l := "/** ".toList ++ t ++ " */".toList) (by simp [ht.unbroken]) (by simp)
    rw [List.nil_append, List.map_singleton, ht.stripMarks_oneLine] at hlines
    rw [lines, hlines, texts]
    simp [ht.nonempty]
  | rows rs =>
    have hrows := forall_of_texts h
    have hunbroken : ∀ l ∈ "/**".toList :: rs.map rowLine, '\n' ∉ l := by
      refine List.forall_mem_cons.mpr ⟨by decide, List.forall_mem_map.mpr fun r hr => ?_⟩
      exact IsRowText.newline_notMem_rowLine (hrows r hr)
    have hsaid : (rs.map rowLine).map stripMarks = rs.map (·.getD []) := by
      rw [List.map_map]
      refine List.map_congr_left fun r hr => ?_
      rw [Function.comp_apply, stripMarks_rowLine r (hrows r hr)]
    have hmarks : stripMarks "/**".toList = [] ∧ stripMarks "*/".toList = [] := by decide
    -- the lines that open and close the comment say nothing themselves
    rw [lines, map_stripMarks_lines hunbroken (by decide) (by decide), List.map_append,
      List.map_cons, List.map_singleton, hsaid, hmarks.1, hmarks.2, List.filter_append,
      List.filter_cons_of_neg (by simp), filter_getD hrows, texts]
    exact List.append_nil _

/-- Exactly the last line of a comment closes it. -/
theorem closes_lines (h : ∀ t ∈ w.texts, IsRowText t) :
    ∃ front l, w.lines = front ++ [l] ∧ closes l = true ∧ ∀ k ∈ front, closes k = false := by
  cases w with
  | oneLine t =>
    refine ⟨[], _, rfl, ?_, List.forall_mem_nil _⟩
    exact Text.has_of_infix ⟨"/** ".toList ++ t ++ [' '], [], by simp⟩
  | rows rs =>
    refine ⟨"/**".toList :: rs.map rowLine, "*/".toList, rfl, by decide, ?_⟩
    refine List.forall_mem_cons.mpr ⟨by decide, List.forall_mem_map.mpr fun r hr => ?_⟩
    cases r with
    | none => decide
    | some t => exact (forall_of_texts h _ hr t rfl).closes_rowLine

end Layout

/-- Texts with something between them are not blank if one of them is not. -/
theorem unlessBlank_intercalate {ts : List Line} (ht : t ∈ ts) (hspeaks : Text.isBlank t = false)
    (sep : List Char) :
    unlessBlank (sep.intercalate ts) = some (String.ofList (sep.intercalate ts)) := by
  have hall : Text.isBlank (sep.intercalate ts) = false := by
    rw [Bool.eq_false_iff]
    intro hblank
    refine Bool.eq_false_iff.mp hspeaks (List.all_eq_true.mpr fun c hc => ?_)
    exact Text.isBlankChar_of_mem hblank (Text.mem_intercalate ht hc)
  rw [unlessBlank, hall]
  rfl

/-- So they are if there are any and all can stand on a line of a block. -/
theorem IsRowText.unlessBlank_intercalate {ts : List Line} (hne : ts ≠ [])
    (h : ∀ t ∈ ts, IsRowText t) (sep : List Char) :
    unlessBlank (sep.intercalate ts) = some (String.ofList (sep.intercalate ts)) := by
  obtain ⟨t, ht⟩ := List.exists_mem_of_ne_nil ts hne
  exact Doc.unlessBlank_intercalate ht (h t ht).not_isBlank sep

/-- Where all that is left out passes the test, it does not matter what is done first. -/
theorem filter_takeWhile {α : Type} {p q : α → Bool} {xs : List α}
    (h : ∀ x ∈ xs, q x = false → p x = true) :
    (xs.takeWhile p).filter q = (xs.filter q).takeWhile p := by
  induction xs with
  | nil => rfl
  | cons x xs ih =>
    obtain ⟨hx, hxs⟩ := List.forall_mem_cons.mp h
    have hrest := ih hxs
    by_cases hp : p x = true
    · rw [List.takeWhile_cons_of_pos hp]
      by_cases hq : q x = true
      · rw [List.filter_cons_of_pos hq, List.filter_cons_of_pos hq, List.takeWhile_cons_of_pos hp,
          hrest]
      · rw [List.filter_cons_of_neg hq, List.filter_cons_of_neg hq, hrest]
    · have hq : q x = true := by
        by_contra hq
        exact hp (hx (Bool.eq_false_iff.mpr hq))
      rw [List.takeWhile_cons_of_neg hp, List.filter_cons_of_pos hq, List.takeWhile_cons_of_neg hp]
      rfl

/-- A block says the texts of its layout, whatever the layout is. -/
theorem ofBlock_lines {w : Layout} (hne : w.texts ≠ []) (h : ∀ t ∈ w.texts, IsRowText t) :
    ofBlock (['\n'].intercalate w.lines) =
      { description := described w.texts,
        full := some (String.ofList (['\n'].intercalate w.texts)) } := by
  have htagged : ∀ l : Line, (!l.isEmpty) = false → decide (l.head? ≠ some '@') = true := by
    intro l hl
    have hnil : l = [] := by simpa using hl
    rw [hnil]
    rfl
  simp only [ofBlock, filter_takeWhile fun l _ => htagged l, Layout.filter_stripped h,
    IsRowText.unlessBlank_intercalate hne h]
  congr 1
  rw [described]
  split
  · rename_i hnone
    rw [hnone]
    rfl
  · rename_i hsome
    have hfront : ∀ t ∈ w.texts.takeWhile (·.head? ≠ some '@'), IsRowText t := fun t ht =>
      h t (List.takeWhile_subset _ ht)
    exact IsRowText.unlessBlank_intercalate hsome hfront [' ']

end Doc

/-! ## Reading back -/

namespace DocBuffer

open Doc (Layout)

/-- What the operations in front of it are does not matter to a block: it is open until its last
line, what is taken out then says what the layout says, too early nothing is handed out, and the
buffer that is left is a new one. -/
structure ReadsBack (w : Layout) (earlier : List Op) : Prop where
  open_iff : ∀ fed, fed <+: w.lines → fed ≠ [] →
    ((({} : DocBuffer).after (earlier ++ feed fed)).isOpen = true ↔ fed ≠ w.lines)
  taken : (({} : DocBuffer).after (earlier ++ feed w.lines)).take =
    (some { description := Doc.described w.texts,
            full := some (String.ofList (['\n'].intercalate w.texts)) }, {})
  unfinished : ∀ fed, fed ≠ [] → (∀ l ∈ fed, closes l = false) →
    (({} : DocBuffer).after (earlier ++ feed fed)).take = (none, {})
  emptied : ∀ op ∈ [Op.take, Op.clear], ∀ later,
    (({} : DocBuffer).after (earlier ++ [op])).replies later = ({} : DocBuffer).replies later

theorem isOpen_of_unclosed {ls : List Line} (h : ∀ l ∈ ls, closes l = false) :
    ls.all (!closes ·) = true := by
  simpa using h

/-- Each layout of a comment is read back as its texts, after any operations. -/
theorem readsBack {w : Layout} (hne : w.texts ≠ []) (htexts : ∀ t ∈ w.texts, Doc.IsRowText t)
    (earlier : List Op) : ReadsBack w earlier := by
  obtain ⟨front, l, hlines, hcloses, hfront⟩ := Layout.closes_lines htexts
  have hwhole : w.lines ≠ [] := by rw [hlines]; simp
  constructor
  case open_iff =>
    intro fed hfed hsome
    rw [after_append, after_feed _ hsome]
    rw [hlines] at hfed ⊢
    -- the comment is open in front of its last line, which is the one that closes it
    rcases List.prefix_concat_iff.mp hfed with rfl | hbefore
    · simp [hcloses]
    · have hshort : fed ≠ front ++ [l] := by
        rintro rfl
        have hlength := hbefore.length_le
        rw [List.length_append, List.length_singleton] at hlength
        omega
      have hopen := isOpen_of_unclosed fun k hk => hfront k (hbefore.subset hk)
      exact iff_of_true hopen hshort
  case taken =>
    have hclosed : w.lines.all (!closes ·) = false := by rw [hlines]; simp [hcloses]
    rw [after_append, after_feed _ hwhole, hclosed, take,
      doc?_of_closed hwhole (Doc.ofBlock_lines hne htexts) rfl]
  case unfinished =>
    intro fed hsome hunclosed
    rw [after_append, after_feed _ hsome]
    exact take_of_isOpen (isOpen_of_unclosed hunclosed)
  case emptied =>
    -- both operations leave an empty buffer, whatever was in it
    intro op hop later
    have hnew : ∀ b : DocBuffer, b.apply op = {} := by
      intro b
      rcases List.mem_cons.mp hop with rfl | hop
      · rfl
      · rw [List.mem_singleton.mp hop]
        rfl
    rw [after_append]
    show (DocBuffer.apply _ op).replies later = _
    rw [hnew]

/-- A comment with an empty line and a tag, behind a block that was left open. -/
theorem taken_behindLeftBlock :
    (({} : DocBuffer).after
        ([.start "/** left".toList, .push "* open".toList] ++
          feed (Layout.rows [some "Adds two numbers.".toList, none, some "Fast.".toList,
            some "@param a first".toList]).lines)).take =
      (some { description := some "Adds two numbers. Fast.",
              full := some "Adds two numbers.\nFast.\n@param a first" }, {}) := by
  have hreads := readsBack (w := .rows [some "Adds two numbers.".toList, none,
    some "Fast.".toList, some "@param a first".toList]) (by decide)
    (by
      intro t ht
      have hmem : t = "Adds two numbers.".toList ∨ t = "Fast.".toList ∨
          t = "@param a first".toList := by simpa [Layout.texts] using ht
      rcases hmem with rfl | rfl | rfl <;>
        exact ⟨by decide, by decide, by decide, by decide, by decide⟩)
    [.start "/** left".toList, .push "* open".toList]
  exact hreads.taken

end DocBuffer

end CodeAtlas
