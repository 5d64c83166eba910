/-
Docstrings read back.

A docstring is written on one line or from the line with the opening quote to the line with the
closing one (`Layout`). Its text may begin behind the quote or on a later line, and end in front
of the closing quote or on an earlier line: then the first or the last of the pieces that are read
is empty, and the empty pieces at both ends are left out again (`trimLines_padded`).

A quote is three times the same character. Where this character is missing nothing is found, so
a text without it is cut at the closing quote and not before (`cut?_closing`). A docstring whose
closing quote is missing lasts to the end of the file.
-/
import CodeAtlas.Doc.Docstring
import CodeAtlas.Proofs.Doc.Buffer

set_option autoImplicit false

namespace CodeAtlas.Docstring

/-! ## How a docstring is written -/

/-- Three times the same quotation mark. -/
inductive IsQuote : List Char → Prop
  | double : IsQuote ['"', '"', '"']
  | single : IsQuote ['\'', '\'', '\'']

/-- The beginning of the line on which a docstring opens: an indentation, letters that may stand
in front of the quote, and the quote. -/
structure Opening where
  indent : List Char
  marks : List Char
  quote : List Char
  blank : Text.isBlank indent = true
  marked : ∀ c ∈ marks, isMark c = true
  isQuote : IsQuote quote

/-- A text between quotes, with what follows the closing quote on its line. -/
inductive Layout where
  | oneLine (text behind : Line)
  | spread (first : Line) (inner : List Line) (last behind : Line)

namespace Layout

/-- The pieces of the text, one from each line. -/
def pieces : Layout → List Line
  | oneLine text _ => [Text.trim text]
  | spread first inner last _ => Text.trim first :: inner.map Text.trim ++ [Text.trim last]

def lines (o : Opening) : Layout → List Line
  | oneLine text behind => [o.indent ++ o.marks ++ o.quote ++ text ++ o.quote ++ behind]
  | spread first inner last behind =>
    (o.indent ++ o.marks ++ o.quote ++ first) :: inner ++ [last ++ o.quote ++ behind]

end Layout

/-- The lines of a text: trimmed, without quotation marks, not empty at either end. -/
structure IsText (ts : List Line) : Prop where
  trimmed : ∀ t ∈ ts, Text.trim t = t
  unquoted : ∀ t ∈ ts, '"' ∉ t ∧ '\'' ∉ t
  first : ∃ t ∈ ts.head?, t ≠ []
  last : ∃ t ∈ ts.getLast?, t ≠ []

/-- What a docstring with this text says. -/
def said (ts : List Line) : Doc :=
  { description := some (String.ofList ([' '].intercalate (ts.takeWhile (!·.isEmpty)))),
    full := some (String.ofList (['\n'].intercalate ts)) }

/-! ## Quotes -/

variable {quote : List Char} {ls : List Line}

theorem IsQuote.eq_replicate (h : IsQuote quote) :
    ∃ c, Text.isBlankChar c = false ∧ isMark c = false ∧ quote = [c, c, c] ∧
      (c = '"' ∨ c = '\'') := by
  cases h with
  | double => exact ⟨'"', rfl, rfl, rfl, .inl rfl⟩
  | single => exact ⟨'\'', rfl, rfl, rfl, .inr rfl⟩

theorem IsQuote.opening?_append (h : IsQuote quote) (rest : List Char) :
    opening? (quote ++ rest) = some (quote, rest) := by
  cases h <;> rfl

/-- A quote keeps what is in front of it, and is trimmed behind it. -/
theorem IsQuote.trimEnd_append (h : IsQuote quote) (s t : List Char) :
    Text.trimEnd (s ++ quote ++ t) = s ++ quote ++ Text.trimEnd t := by
  obtain ⟨c, hc, -, rfl, -⟩ := h.eq_replicate
  have hkeeps := Text.trimEnd_append_cons hc (s ++ [c, c]) t
  simpa using hkeeps

theorem IsQuote.trim_append (h : IsQuote quote) (s t : List Char) :
    Text.trim (s ++ quote ++ t) = Text.trimStart s ++ quote ++ Text.trimEnd t := by
  rw [← h.trimEnd_append, Text.trim]
  obtain ⟨c, hc, -, rfl, -⟩ := h.eq_replicate
  have hkeeps := Text.trimStart_append_cons hc s (c :: c :: t)
  rw [List.append_assoc, List.append_assoc]
  exact congrArg Text.trimEnd hkeeps

/-- A text without the quotation mark is cut at the quote behind it. -/
theorem IsQuote.cut?_closing (h : IsQuote quote) {u : List Char} (hdouble : '"' ∉ u)
    (hsingle : '\'' ∉ u) (rest : List Char) :
    Text.cut? quote (u ++ quote ++ rest) = some (u, rest) := by
  obtain ⟨c, -, -, rfl, hwhich⟩ := h.eq_replicate
  have hmissing : c ∉ u := by
    rcases hwhich with rfl | rfl
    · exact hdouble
    · exact hsingle
  have hhere : Text.cut? [c, c, c] ([c, c, c] ++ rest) = some ([], rest) := by
    simp [Text.cut?, Text.after?]
  have hcut := Text.cut?_append_of_notMem hmissing [c, c] ([c, c, c] ++ rest)
  rw [hhere, Option.map_some, ← List.append_assoc] at hcut
  simpa using hcut

/-- There is no cut where the quote does not occur. -/
theorem cut?_of_not_infix {t : List Char} (h : ¬ quote <:+: t) : Text.cut? quote t = none := by
  rw [Option.eq_none_iff_forall_ne_some]
  rintro ⟨before, rest⟩ hcut
  exact h ⟨before, rest, (Text.append_of_cut? hcut).symm⟩

theorem IsQuote.not_infix (h : IsQuote quote) {t : List Char} (hdouble : '"' ∉ t)
    (hsingle : '\'' ∉ t) : ¬ quote <:+: t := by
  intro hquote
  cases h with
  | double => exact hdouble (hquote.subset List.mem_cons_self)
  | single => exact hsingle (hquote.subset List.mem_cons_self)

/-- Trimming brings nothing into a text. -/
theorem not_infix_trim {t : List Char} (h : ¬ quote <:+: t) : ¬ quote <:+: Text.trim t :=
  fun hquote => h (hquote.trans (Text.isInfix_trim t))

/-- A line from which a piece without quotation marks is read holds none either. -/
theorem unquoted_of_trim {t : Line} (h : '"' ∉ Text.trim t ∧ '\'' ∉ Text.trim t) :
    '"' ∉ t ∧ '\'' ∉ t := by
  constructor
  · intro hmem
    rcases Text.mem_trim_of_mem hmem with hblank | hmem
    · cases hblank
    · exact h.1 hmem
  · intro hmem
    rcases Text.mem_trim_of_mem hmem with hblank | hmem
    · cases hblank
    · exact h.2 hmem

/-! ## The lines up to the closing one -/

/-- The lines are read up to the one on which the quote closes. -/
theorem bodyFrom_closing (hquote : IsQuote quote) (hinner : ∀ l ∈ ls, ¬ quote <:+: l)
    {last : Line} (hlast : '"' ∉ last ∧ '\'' ∉ last) (behind : Line) (back : List Line)
    (read : Nat) :
    bodyFrom quote read (ls ++ (last ++ quote ++ behind) :: back) =
      (ls.map Text.trim ++ [Text.trim last], read + ls.length) := by
  induction ls generalizing read with
  | nil =>
    obtain ⟨hdouble, hsingle⟩ := hlast
    have hstart : ∀ c ∈ Text.trimStart last, c ∈ last := (List.dropWhile_suffix _).subset
    have hcut := hquote.cut?_closing (fun h => hdouble (hstart _ h))
      (fun h => hsingle (hstart _ h)) (Text.trimEnd behind)
    have htrim : Text.trim (Text.trimStart last) = Text.trim last := by
      have hfront : Text.isBlank (last.takeWhile Text.isBlankChar) = true := List.all_takeWhile
      have hsplit := Text.trim_append_of_isBlank hfront (Text.trimStart last)
      rwa [Text.trimStart, List.takeWhile_append_dropWhile, eq_comm] at hsplit
    simp only [List.nil_append, bodyFrom, hquote.trim_append, hcut, htrim]
    rfl
  | cons l ls ih =>
    obtain ⟨hl, hls⟩ := List.forall_mem_cons.mp hinner
    simp only [List.cons_append, bodyFrom, cut?_of_not_infix (not_infix_trim hl),
      ih hls (read + 1), List.map_cons, List.length_cons]
    rw [Nat.add_assoc, Nat.add_comm 1]

/-- Without a closing quote all lines are read. -/
theorem bodyFrom_open (hls : ∀ l ∈ ls, ¬ quote <:+: l) (read : Nat) :
    bodyFrom quote (read + 1) ls = (ls.map Text.trim, read + ls.length) := by
  induction ls generalizing read with
  | nil => rfl
  | cons l ls ih =>
    obtain ⟨hl, hls⟩ := List.forall_mem_cons.mp hls
    simp only [bodyFrom, cut?_of_not_infix (not_infix_trim hl), ih hls (read + 1), List.map_cons,
      List.length_cons]
    rw [Nat.add_assoc, Nat.add_comm 1]

/-! ## The text without its empty ends -/

theorem dropWhile_replicate_append {ts : List Line} {t : Line} (ht : t ∈ ts.head?) (hne : t ≠ [])
    (n : Nat) : (List.replicate n [] ++ ts).dropWhile (·.isEmpty) = ts := by
  have hempty : ∀ l ∈ List.replicate n ([] : Line), l.isEmpty = true := fun l hl => by
    rw [(List.mem_replicate.mp hl).2, List.isEmpty_nil]
  rw [List.dropWhile_append_of_pos hempty]
  obtain ⟨rest, rfl⟩ := List.head?_eq_some_iff.mp ht
  exact List.dropWhile_cons_of_neg (by simpa using hne)

/-- Empty lines around a text are left out, those inside it are not. -/
theorem trimLines_padded {ts : List Line} (h : IsText ts) (before behind : Nat) :
    trimLines (List.replicate before [] ++ ts ++ List.replicate behind []) = ts := by
  obtain ⟨first, hfirst, hfirst_ne⟩ := h.first
  obtain ⟨last, hlast, hlast_ne⟩ := h.last
  have hhead : first ∈ (ts ++ List.replicate behind []).head? := by
    rw [List.head?_append, Option.mem_def.mp hfirst]
    rfl
  have hback : last ∈ ts.reverse.head? := by rwa [List.head?_reverse]
  rw [trimLines, List.append_assoc, dropWhile_replicate_append hhead hfirst_ne,
    List.reverse_append, List.reverse_replicate, dropWhile_replicate_append hback hlast_ne,
    List.reverse_reverse]

theorem docOf_padded {ts : List Line} (h : IsText ts) (before behind : Nat) :
    docOf (List.replicate before [] ++ ts ++ List.replicate behind []) = said ts := by
  obtain ⟨first, hfirst, hne⟩ := h.first
  obtain ⟨rest, rfl⟩ := List.head?_eq_some_iff.mp hfirst
  have hspeaks : Text.isBlank first = false := by
    rw [Bool.eq_false_iff]
    intro hblank
    exact hne ((h.trimmed first List.mem_cons_self).symm.trans (Text.trim_eq_nil_of_isBlank hblank))
  have hparagraph : first ∈ (first :: rest).takeWhile (!·.isEmpty) := by
    rw [List.takeWhile_cons_of_pos (by simpa using hne)]
    exact List.mem_cons_self
  simp only [docOf, trimLines_padded h, Doc.unlessBlank_intercalate hparagraph hspeaks,
    Doc.unlessBlank_intercalate List.mem_cons_self hspeaks, said]

/-! ## The opening line -/

namespace Opening

variable (o : Opening) (rest : List Char)

/-- Behind the indentation stands a character that is not blank. -/
theorem exists_cons : ∃ c w, o.marks ++ o.quote = c :: w ∧ Text.isBlankChar c = false := by
  cases hmarks : o.marks with
  | nil =>
    obtain ⟨c, hc, -, hquote, -⟩ := o.isQuote.eq_replicate
    exact ⟨c, [c, c], hquote, hc⟩
  | cons c marks =>
    have hwhich := o.marked c (by rw [hmarks]; exact List.mem_cons_self)
    simp only [isMark, Bool.or_eq_true, decide_eq_true_eq] at hwhich
    refine ⟨c, marks ++ o.quote, rfl, ?_⟩
    rcases hwhich with ((rfl | rfl) | rfl) | rfl <;> rfl

/-- The line is indented by what stands in front of the marks. -/
theorem indentation_line :
    Text.indentation (o.indent ++ o.marks ++ o.quote ++ rest) = Text.byteLength o.indent := by
  obtain ⟨c, w, hfirst, hc⟩ := o.exists_cons
  rw [Text.indentation, List.append_assoc o.indent, hfirst, List.append_assoc,
    List.takeWhile_append_of_pos (List.all_eq_true.mp o.blank), List.cons_append,
    List.takeWhile_cons_of_neg (Bool.eq_false_iff.mp hc), List.append_nil]

theorem isBlank_line : Text.isBlank (o.indent ++ o.marks ++ o.quote ++ rest) = false := by
  obtain ⟨c, w, hfirst, hc⟩ := o.exists_cons
  rw [List.append_assoc o.indent, hfirst, Bool.eq_false_iff]
  intro hblank
  rw [Text.isBlankChar_of_mem hblank (by simp)] at hc
  cases hc

/-- Behind the marks the quote is found, and behind the quote the text. -/
theorem opening?_line :
    opening? ((Text.trim (o.indent ++ o.marks ++ o.quote ++ rest)).dropWhile isMark) =
      some (o.quote, Text.trimEnd rest) := by
  have htrim : Text.trim (o.indent ++ o.marks ++ o.quote ++ rest) =
      o.marks ++ (o.quote ++ Text.trimEnd rest) := by
    obtain ⟨c, w, hfirst, hc⟩ := o.exists_cons
    have hkeeps := Text.trimStart_append_cons hc [] (w ++ rest)
    rw [Text.trim, List.append_assoc o.indent, List.append_assoc o.indent,
      Text.trimStart_append_of_isBlank o.blank, hfirst, List.cons_append]
    rw [List.nil_append] at hkeeps
    rw [hkeeps, Text.trimStart, List.dropWhile_nil, List.nil_append, ← List.cons_append, ← hfirst,
      o.isQuote.trimEnd_append, List.append_assoc]
  have hquote : (o.quote ++ Text.trimEnd rest).dropWhile isMark = o.quote ++ Text.trimEnd rest := by
    obtain ⟨c, -, hc, heq, -⟩ := o.isQuote.eq_replicate
    rw [heq]
    exact List.dropWhile_cons_of_neg (Bool.eq_false_iff.mp hc)
  rw [htrim, List.dropWhile_append_of_pos o.marked, hquote, o.isQuote.opening?_append]

end Opening

/-! ## Docstrings as a whole -/

theorem trim_trimEnd (t : List Char) : Text.trim (Text.trimEnd t) = Text.trim t := by
  obtain ⟨back, hback, heq⟩ := Text.exists_trimEnd t
  have htrim := Text.trim_append_of_isBlank_right hback (Text.trimEnd t)
  rwa [← heq, eq_comm] at htrim

theorem Layout.exists_lines (w : Layout) (o : Opening) :
    ∃ rest ls, w.lines o = (o.indent ++ o.marks ++ o.quote ++ rest) :: ls := by
  cases w with
  | oneLine text behind =>
    exact ⟨text ++ o.quote ++ behind, [], by simp [lines]⟩
  | spread first inner last behind =>
    exact ⟨first, inner ++ [last ++ o.quote ++ behind], rfl⟩

variable {o : Opening} {w : Layout} {ts : List Line} {base : Nat}

/-- Behind blank lines the docstring on the first other line is read. -/
theorem within?_blank_append {blank : List Line} (hblank : ∀ l ∈ blank, Text.isBlank l = true)
    (hdeep : base < Text.byteLength o.indent) (rest : List Char) (ls : List Line) :
    within? base (blank ++ (o.indent ++ o.marks ++ o.quote ++ rest) :: ls) =
      (at? ((o.indent ++ o.marks ++ o.quote ++ rest) :: ls)).map
        fun d => { d with further := d.further + blank.length } := by
  have htake : ((blank ++ (o.indent ++ o.marks ++ o.quote ++ rest) :: ls).takeWhile
      Text.isBlank).length = blank.length := by
    rw [List.takeWhile_append_of_pos hblank,
      List.takeWhile_cons_of_neg (Bool.eq_false_iff.mp (o.isBlank_line rest)), List.append_nil]
  have hinside : ¬ Text.indentation (o.indent ++ o.marks ++ o.quote ++ rest) ≤ base := by
    rw [o.indentation_line]
    exact Nat.not_le_of_lt hdeep
  rw [within?, htake, List.drop_left]
  simp only [if_neg hinside]

/-- A docstring is read from the line on which it opens, and lasts to the line on which it
closes. -/
theorem at?_lines (hpieces : ∀ t ∈ w.pieces, '"' ∉ t ∧ '\'' ∉ t) (back : List Line) :
    at? (w.lines o ++ back) = some ⟨docOf w.pieces, (w.lines o).length - 1⟩ := by
  cases w with
  | oneLine text behind =>
    obtain ⟨hdouble, hsingle⟩ := unquoted_of_trim (hpieces _ List.mem_cons_self)
    have hopening := o.opening?_line (text ++ o.quote ++ behind)
    have hcut := o.isQuote.cut?_closing hdouble hsingle (Text.trimEnd behind)
    rw [o.isQuote.trimEnd_append] at hopening
    simp only [← List.append_assoc] at hopening
    simp only [Layout.lines, List.singleton_append, at?, hopening, Option.bind_eq_bind,
      Option.bind_some, hcut, Layout.pieces]
    rfl
  | spread first inner last behind =>
    have hparts : ∀ t ∈ Text.trim first :: inner.map Text.trim ++ [Text.trim last],
        '"' ∉ t ∧ '\'' ∉ t := hpieces
    rw [List.forall_mem_append, List.forall_mem_cons, List.forall_mem_map] at hparts
    obtain ⟨⟨hfirst, hinner⟩, hlast⟩ := hparts
    have hopen : Text.cut? o.quote (Text.trimEnd first) = none := by
      obtain ⟨hdouble, hsingle⟩ := unquoted_of_trim hfirst
      have hend := Text.dropEndWhile_subset Text.isBlankChar first
      exact cut?_of_not_infix (o.isQuote.not_infix (fun h => hdouble (hend h))
        (fun h => hsingle (hend h)))
    have hunclosed : ∀ l ∈ inner, ¬ o.quote <:+: l := fun l hl =>
      o.isQuote.not_infix (unquoted_of_trim (hinner l hl)).1 (unquoted_of_trim (hinner l hl)).2
    have hbody := bodyFrom_closing o.isQuote hunclosed
      (unquoted_of_trim (hlast _ List.mem_cons_self)) behind back 1
    have hlines : Layout.lines o (.spread first inner last behind) ++ back =
        (o.indent ++ o.marks ++ o.quote ++ first) ::
          (inner ++ (last ++ o.quote ++ behind) :: back) := by
      simp [Layout.lines]
    have hlength : (Layout.lines o (.spread first inner last behind)).length - 1 =
        1 + inner.length := by
      simp [Layout.lines, Nat.add_comm]
    rw [hlines, hlength]
    simp only [at?, o.opening?_line, Option.bind_eq_bind, Option.bind_some, hopen, hbody,
      trim_trimEnd, Layout.pieces]
    rfl

/-- Without a closing quote a docstring lasts to the end of the file. -/
theorem at?_open {rest : List Char} (hrest : ¬ o.quote <:+: rest)
    (hls : ∀ l ∈ ls, ¬ o.quote <:+: l) :
    at? ((o.indent ++ o.marks ++ o.quote ++ rest) :: ls) =
      some ⟨docOf (Text.trim rest :: ls.map Text.trim), ls.length⟩ := by
  have hopen : Text.cut? o.quote (Text.trimEnd rest) = none := by
    obtain ⟨back, -, heq⟩ := Text.exists_trimEnd rest
    refine cut?_of_not_infix fun hquote => hrest (hquote.trans ⟨[], back, ?_⟩)
    rw [List.nil_append, ← heq]
  have hbody := bodyFrom_open hls 0
  rw [Nat.zero_add, Nat.zero_add] at hbody
  simp only [at?, o.opening?_line, Option.bind_eq_bind, Option.bind_some, hopen, hbody,
    trim_trimEnd]
  rfl

/-- Behind a header, in any file, a docstring that is indented deeper is read back whatever its
layout, quote and marks are, together with the line on which it closes; one that does not close
lasts to the last line of the file. -/
theorem within?_behind_header (hdeep : base < Text.byteLength o.indent) {blank : List Line}
    (hblank : ∀ l ∈ blank, Text.isBlank l = true) (front : List Line) (header : Line) :
    (∀ ts, IsText ts → ∀ (w : Layout) (before behind : Nat),
      w.pieces = List.replicate before [] ++ ts ++ List.replicate behind [] → ∀ back,
      ∃ d, within? base ((front ++ header :: (blank ++ w.lines o ++ back)).drop
          (front.length + 1)) = some d ∧ d.doc = said ts ∧
        front.length + 1 + d.further + 1 = (front ++ header :: (blank ++ w.lines o)).length) ∧
    (∀ rest ls, ¬ o.quote <:+: rest → (∀ l ∈ ls, ¬ o.quote <:+: l) →
      ∃ d, within? base ((front ++ header :: (blank ++
          (o.indent ++ o.marks ++ o.quote ++ rest) :: ls)).drop (front.length + 1)) = some d ∧
        front.length + 1 + d.further + 1 = (front ++ header :: (blank ++
          (o.indent ++ o.marks ++ o.quote ++ rest) :: ls)).length) := by
  have hdrop : ∀ ls : List Line, (front ++ header :: ls).drop (front.length + 1) = ls := by
    intro ls
    have hlength : front.length + 1 = (front ++ [header]).length := by simp
    rw [List.append_cons, hlength, List.drop_left]
  constructor
  · intro ts hts w before behind hpieces back
    have hunquoted : ∀ t ∈ w.pieces, '"' ∉ t ∧ '\'' ∉ t := by
      rw [hpieces]
      intro t ht
      rcases List.mem_append.mp ht with ht | ht
      · rcases List.mem_append.mp ht with ht | ht
        · rw [(List.mem_replicate.mp ht).2]
          simp
        · exact hts.unquoted t ht
      · rw [(List.mem_replicate.mp ht).2]
        simp
    obtain ⟨rest, ls, hlines⟩ := w.exists_lines o
    have hat := at?_lines (o := o) hunquoted back
    have hwithin := within?_blank_append hblank hdeep rest (ls ++ back)
    rw [hlines, List.cons_append] at hat
    rw [hat, hpieces, docOf_padded hts] at hwithin
    rw [hdrop, hlines, List.append_assoc]
    refine ⟨_, hwithin, rfl, ?_⟩
    simp
    omega
  · intro rest ls hrest hls
    have hwithin := within?_blank_append hblank hdeep rest ls
    rw [at?_open hrest hls] at hwithin
    rw [hdrop]
    refine ⟨_, hwithin, ?_⟩
    simp
    omega

/-- Two paragraphs on the lines behind a class header. -/
theorem within?_twoParagraphs :
    ∃ d, within? 0 (["class A:", "    r\'\'\'Summary line", "    continues here.", "",
        "    Details.", "    \'\'\'", "    x = 1"].map String.toList |>.drop 1) = some d ∧
      d.doc = { description := some "Summary line continues here.",
                full := some "Summary line\ncontinues here.\n\nDetails." } ∧
      1 + d.further = 5 := by
  have hreads := (within?_behind_header
    (o := ⟨"    ".toList, ['r'], "\'\'\'".toList, rfl, by decide, .single⟩)
    (show 0 < Text.byteLength "    ".toList by decide) (List.forall_mem_nil _) [] "class A:".toList).1
    ["Summary line".toList, "continues here.".toList, [], "Details.".toList]
    ⟨by decide, by decide, ⟨_, rfl, by decide⟩, ⟨_, rfl, by decide⟩⟩
    (.spread "Summary line".toList ["    continues here.".toList, [], "    Details.".toList]
      "    ".toList []) 0 1 (by decide) ["    x = 1".toList]
  obtain ⟨d, hd, hdoc, hend⟩ := hreads
  have hlast : 0 + 1 + d.further + 1 = 6 := hend
  exact ⟨d, hd, hdoc, by omega⟩

end CodeAtlas.Docstring
