/-
Lists of imported names.

The list of a `from` import may stand in round brackets over several lines, and any of its
lines may end in a comment. The lines are joined first and the comment is taken away
afterwards, from the joined text. So what is left of the lines is the code of those up to the
first comment (`shownRows`), and the code of the lines behind it (`hiddenRows`) is lost with it.

The text of a list is given by its pieces between commas, each of them trimmed to an item
(`IsList`), and the reader cuts at the same commas (`entries`). The characters that are neither
blanks nor commas are kept by `entries`, so that two texts with the same entries have the same
ones (`ink_entries`); that is why nothing can be left out unnoticed.
-/
import CodeAtlas.Header.Indent.Import
import CodeAtlas.Proofs.Text.Trim

set_option autoImplicit false

namespace CodeAtlas.Indent

/-! ## Entries of a list -/

/-- The texts between commas, trimmed, without the blank ones. -/
def entries (t : List Char) : List (List Char) :=
  ((t.splitOn ',').map Text.trim).filter (!·.isEmpty)

/-- Is the character a part of an entry for certain? -/
def isInk (c : Char) : Bool := !Text.isBlankChar c && c ≠ ','

section

variable {s t g : List Char}

theorem entries_append_comma (s t : List Char) :
    entries (s ++ ',' :: t) = entries s ++ entries t := by
  have hsplit : (s ++ ',' :: t).splitOn ',' = s.splitOn ',' ++ t.splitOn ',' :=
    List.splitOnP_append_cons s t rfl
  rw [entries, hsplit, List.map_append, List.filter_append]
  rfl

theorem entries_of_not_mem (h : ',' ∉ t) : entries t = [Text.trim t].filter (!·.isEmpty) := by
  have hfree : ∀ piece ∈ [t], ',' ∉ piece := List.forall_mem_singleton.mpr h
  have hsplit := List.splitOn_intercalate ',' hfree (List.cons_ne_nil t [])
  rw [List.intercalate_singleton] at hsplit
  rw [entries, hsplit]
  rfl

theorem entries_intercalate {pieces : List (List Char)} (h : ∀ piece ∈ pieces, ',' ∉ piece)
    (hne : pieces ≠ []) :
    entries ([','].intercalate pieces) = (pieces.map Text.trim).filter (!·.isEmpty) := by
  rw [entries, List.splitOn_intercalate ',' h hne]

/-- Blanks in front of a list belong to no entry. -/
theorem entries_blank_append (hg : Text.isBlank g = true) (t : List Char) :
    entries (g ++ t) = entries t := by
  by_cases hmem : ',' ∈ t
  · obtain ⟨a, b, rfl, ha⟩ := List.eq_append_cons_of_mem hmem
    have hfree : ',' ∉ g ++ a := by
      rw [List.mem_append, not_or]
      exact ⟨Text.notMem_of_isBlank hg (by decide), ha⟩
    rw [← List.append_assoc, entries_append_comma, entries_append_comma,
      entries_of_not_mem hfree, entries_of_not_mem ha, Text.trim_append_of_isBlank hg]
  · have hfree : ',' ∉ g ++ t := by
      rw [List.mem_append, not_or]
      exact ⟨Text.notMem_of_isBlank hg (by decide), hmem⟩
    rw [entries_of_not_mem hfree, entries_of_not_mem hmem, Text.trim_append_of_isBlank hg]

/-- Nor do blanks behind it. -/
theorem entries_append_blank (hg : Text.isBlank g = true) (t : List Char) :
    entries (t ++ g) = entries t := by
  have hone : ∀ u : List Char, ',' ∉ u → entries (u ++ g) = entries u := by
    intro u hu
    have hfree : ',' ∉ u ++ g := by
      rw [List.mem_append, not_or]
      exact ⟨hu, Text.notMem_of_isBlank hg (by decide)⟩
    rw [entries_of_not_mem hfree, entries_of_not_mem hu, Text.trim_append_of_isBlank_right hg]
  by_cases hmem : ',' ∈ t
  · -- only what stands behind the last comma is next to the blanks
    obtain ⟨b, a, hrev, hb⟩ := List.eq_append_cons_of_mem (List.mem_reverse.mpr hmem)
    have hsplit : t = a.reverse ++ ',' :: b.reverse := by
      have h := congrArg List.reverse hrev
      simpa using h
    have hfree : ',' ∉ b.reverse := by rwa [List.mem_reverse]
    rw [hsplit, List.append_assoc, List.cons_append, entries_append_comma, hone _ hfree,
      entries_append_comma]
  · exact hone t hmem

/-- Blanks and commas behind a list add no entry. -/
theorem entries_append_of_not_ink {x : List Char} (hx : ∀ c ∈ x, isInk c = false)
    (t : List Char) : entries (t ++ x) = entries t := by
  induction x generalizing t with
  | nil => rw [List.append_nil]
  | cons c x ih =>
    obtain ⟨hc, hx⟩ := List.forall_mem_cons.mp hx
    rw [List.append_cons, ih hx]
    by_cases hcomma : c = ','
    · rw [hcomma, entries_append_comma]
      exact List.append_nil _
    · have hblank : Text.isBlankChar c = true := by
        simpa [isInk, hcomma] using hc
      exact entries_append_blank (by rw [Text.isBlank, List.all_cons, hblank]; rfl) t

theorem filter_isInk_trim (u : List Char) : (Text.trim u).filter isInk = u.filter isInk := by
  obtain ⟨g, g', hg, hg', hsplit⟩ := Text.exists_trim u
  have hnone : ∀ v : List Char, Text.isBlank v = true → v.filter isInk = [] := by
    intro v hv
    refine List.filter_eq_nil_iff.mpr ?_
    intro c hc
    rw [isInk, Text.isBlankChar_of_mem hv hc]
    exact Bool.false_ne_true
  conv_rhs => rw [hsplit, List.filter_append, List.filter_append, hnone g hg, hnone g' hg']
  rw [List.nil_append, List.append_nil]

/-- What is trimmed away between commas, and the pieces that are left out, have no ink. -/
theorem flatMap_filter_isInk (us : List (List Char)) :
    ((us.map Text.trim).filter (!·.isEmpty)).flatMap (·.filter isInk) =
      ([','].intercalate us).filter isInk := by
  induction us with
  | nil => rfl
  | cons u us ih =>
    have hhead : (([','].intercalate (u :: us))).filter isInk =
        u.filter isInk ++ ([','].intercalate us).filter isInk := by
      cases us with
      | nil => simp
      | cons v us =>
        rw [List.intercalate_cons_cons, List.filter_append, List.filter_append]
        exact List.append_assoc _ [] _
    rw [hhead, ← ih, ← filter_isInk_trim u, List.map_cons]
    cases hempty : Text.trim u with
    | nil => rfl
    | cons c v => rfl

/-- The entries have all characters of the list that are no blanks and no commas. -/
theorem ink_entries (t : List Char) : (entries t).flatMap (·.filter isInk) = t.filter isInk := by
  rw [entries, flatMap_filter_isInk, List.intercalate_splitOn]

end

/-! ## The list as it is written -/

/-- One or more characters of words. -/
def IsWordText (w : List Char) : Prop := w ≠ [] ∧ ∀ c ∈ w, Text.isWordChar c = true

/-- The name of a module: words and dots. -/
def IsModule (w : List Char) : Prop :=
  w ≠ [] ∧ ∀ c ∈ w, (Text.isWordChar c || c = '.') = true

/-- An imported name, and the one that it is given. -/
structure ImportItem where
  name : List Char
  given : Option (List Char)
  isName : IsWordText name
  isGiven : ∀ w ∈ given, IsWordText w

def ImportItem.text (item : ImportItem) : List Char :=
  match item.given with
  | none => item.name
  | some w => item.name ++ " as ".toList ++ w

/-- The items between commas, with any blanks around them; a comma may follow the last one. -/
def IsList (items : List ImportItem) (t : List Char) : Prop :=
  ∃ pieces : List (List Char), t = [','].intercalate pieces ∧
    (pieces.map Text.trim = items.map ImportItem.text ∨
      pieces.map Text.trim = items.map ImportItem.text ++ [[]])

/-- A character that may stand in a list. -/
def isListChar (c : Char) : Bool := Text.isBlankChar c || Text.isWordChar c || c = ','

theorem ImportItem.text_ne_nil (item : ImportItem) : item.text ≠ [] := by
  rw [text]
  split
  · exact item.isName.1
  · exact List.append_ne_nil_of_left_ne_nil (List.append_ne_nil_of_left_ne_nil item.isName.1 _) _

theorem ImportItem.mem_text {item : ImportItem} {c : Char} (hc : c ∈ item.text) :
    Text.isBlankChar c = true ∨ Text.isWordChar c = true := by
  rw [text] at hc
  split at hc
  · exact .inr (item.isName.2 c hc)
  · rename_i w hw
    simp only [List.mem_append] at hc
    rcases hc with (hc | hc) | hc
    · exact .inr (item.isName.2 c hc)
    · have hall : " as ".toList.all (fun c => Text.isBlankChar c || Text.isWordChar c) = true := by
        decide
      exact Bool.or_eq_true_iff.mp (List.all_eq_true.mp hall c hc)
    · exact .inr ((item.isGiven w hw).2 c hc)

section

variable {items : List ImportItem} {t : List Char}

theorem IsList.exists_pieces (h : IsList items t) : ∃ pieces : List (List Char),
    t = [','].intercalate pieces ∧ (∀ piece ∈ pieces, ∀ c ∈ piece,
      Text.isBlankChar c = true ∨ Text.isWordChar c = true) ∧
    (pieces.map Text.trim).filter (!·.isEmpty) = items.map ImportItem.text := by
  obtain ⟨pieces, ht, hpieces⟩ := h
  have hall : (items.map ImportItem.text).filter (!·.isEmpty) = items.map ImportItem.text := by
    refine List.filter_eq_self.mpr ?_
    intro u hu
    obtain ⟨item, -, rfl⟩ := List.mem_map.mp hu
    simp [item.text_ne_nil]
  refine ⟨pieces, ht, ?_, ?_⟩
  · intro piece hpiece c hc
    have hmem : Text.trim piece ∈ items.map ImportItem.text ++ [[]] := by
      have hmap : Text.trim piece ∈ pieces.map Text.trim := List.mem_map_of_mem hpiece
      rcases hpieces with heq | heq
      · exact List.mem_append_left _ (heq ▸ hmap)
      · exact heq ▸ hmap
    rcases Text.mem_trim_of_mem hc with hblank | htrim
    · exact .inl hblank
    · rcases List.mem_append.mp hmem with hitem | hnil
      · obtain ⟨item, -, heq⟩ := List.mem_map.mp hitem
        exact ImportItem.mem_text (heq ▸ htrim)
      · rw [List.mem_singleton.mp hnil] at htrim
        cases htrim
  -- a comma behind the last item leaves an empty piece, which is dropped
  · rcases hpieces with heq | heq
    · rw [heq, hall]
    · rw [heq, List.filter_append, hall]
      exact List.append_nil _

/-- The reader cuts a list into its items. -/
theorem IsList.entries_eq (h : IsList items t) (hne : items ≠ []) :
    entries t = items.map ImportItem.text := by
  obtain ⟨pieces, rfl, hchars, htrim⟩ := h.exists_pieces
  have hfree : ∀ piece ∈ pieces, ',' ∉ piece := by
    intro piece hpiece hmem
    have hcomma := hchars piece hpiece ',' hmem
    revert hcomma
    decide
  have hsome : pieces ≠ [] := by
    rintro rfl
    exact hne (List.map_eq_nil_iff.mp htrim.symm)
  rw [entries_intercalate hfree hsome, htrim]

theorem IsList.isListChar (h : IsList items t) {c : Char} (hc : c ∈ t) : isListChar c = true := by
  obtain ⟨pieces, rfl, hchars, -⟩ := h.exists_pieces
  rcases Text.mem_of_mem_intercalate hc with hc | ⟨piece, hpiece, hc⟩
  · rw [List.mem_singleton.mp hc]
    rfl
  · rcases hchars piece hpiece c hc with hblank | hword
    · simp [Indent.isListChar, hblank]
    · simp [Indent.isListChar, hword]

theorem IsList.notMem (h : IsList items t) {c : Char} (hc : Indent.isListChar c = false) :
    c ∉ t := by
  intro hmem
  rw [h.isListChar hmem] at hc
  cases hc

end

/-! ## Rows -/

/-- A line of a list: its code, and the comment behind it. -/
structure Row where
  code : Line
  comment : Option (List Char)

def Row.text (row : Row) : Line :=
  match row.comment with
  | none => row.code
  | some x => row.code ++ '#' :: x

/-- What the rows have, their code or the whole text, on one line. -/
def spaced (part : Row → Line) (rows : List Row) : List Char :=
  [' '].intercalate (rows.map fun row => Text.trim (part row))

/-- The rows up to the first comment. -/
def shownRows : List Row → List Row
  | [] => []
  | row :: rows => if row.comment.isSome then [row] else row :: shownRows rows

/-- The rows behind the first comment. -/
def hiddenRows : List Row → List Row
  | [] => []
  | row :: rows => if row.comment.isSome then rows else hiddenRows rows

theorem shownRows_append_hiddenRows (rows : List Row) :
    shownRows rows ++ hiddenRows rows = rows := by
  induction rows with
  | nil => rfl
  | cons row rows ih =>
    by_cases hcomment : row.comment.isSome = true
    · rw [shownRows, hiddenRows, if_pos hcomment, if_pos hcomment]
      rfl
    · rw [shownRows, hiddenRows, if_neg hcomment, if_neg hcomment, List.cons_append, ih]

theorem shownRows_ne_nil {rows : List Row} (h : rows ≠ []) : shownRows rows ≠ [] := by
  obtain ⟨row, rows, rfl⟩ := List.exists_cons_of_ne_nil h
  rw [shownRows]
  split <;> exact List.cons_ne_nil _ _

theorem shownRows_singleton (row : Row) : shownRows [row] = [row] := by
  rw [shownRows]
  split <;> rfl

theorem hiddenRows_singleton (row : Row) : hiddenRows [row] = [] := by
  rw [hiddenRows]
  split <;> rfl

section

variable {part : Row → Line} {row : Row} {rows rows' : List Row} {c : Char}

theorem spaced_singleton : spaced part [row] = Text.trim (part row) := List.intercalate_singleton

theorem spaced_cons (h : rows ≠ []) :
    spaced part (row :: rows) = Text.trim (part row) ++ ' ' :: spaced part rows := by
  rw [spaced, List.map_cons, List.intercalate_cons_of_ne_nil (by simp [h]), List.append_assoc]
  rfl

theorem spaced_append (h : rows ≠ []) (h' : rows' ≠ []) :
    spaced part (rows ++ rows') = spaced part rows ++ ' ' :: spaced part rows' := by
  induction rows with
  | nil => exact absurd rfl h
  | cons row rows ih =>
    by_cases hnil : rows = []
    · rw [hnil, spaced_singleton]
      exact spaced_cons h'
    · rw [List.cons_append, spaced_cons (by simp [hnil]), ih hnil, spaced_cons hnil,
        List.append_assoc, List.cons_append]

theorem mem_spaced (hrow : row ∈ rows) (hc : c ∈ part row) :
    Text.isBlankChar c = true ∨ c ∈ spaced part rows :=
  (Text.mem_trim_of_mem hc).imp_right (Text.mem_intercalate (List.mem_map_of_mem hrow))

theorem of_mem_spaced (hc : c ∈ spaced part rows) : c = ' ' ∨ ∃ row ∈ rows, c ∈ part row := by
  refine (Text.mem_of_mem_intercalate hc).imp List.mem_singleton.mp ?_
  rintro ⟨u, hu, hmem⟩
  obtain ⟨row, hrow, rfl⟩ := List.mem_map.mp hu
  exact ⟨row, hrow, Text.mem_of_mem_trim hmem⟩

end

/-! ## What the reader makes of the rows -/

theorem dropComment_append_of_not_mem {u : List Char} (hu : '#' ∉ u) (v : List Char) :
    dropComment (u ++ v) = u ++ dropComment v := by
  refine List.takeWhile_append_of_pos ?_
  intro c hc
  refine decide_eq_true ?_
  rintro rfl
  exact hu hc

theorem dropComment_append_sign {u : List Char} (hu : '#' ∉ u) (v : List Char) :
    dropComment (u ++ '#' :: v) = u := by
  rw [dropComment_append_of_not_mem hu]
  exact List.append_nil u

/-- A row with a comment is its code, up to blanks, when the comment is taken away. -/
theorem exists_dropComment_row {row : Row} (hcode : '#' ∉ row.code) {x : List Char}
    (hx : row.comment = some x) (rest : List Char) : ∃ g, Text.isBlank g = true ∧
      dropComment (Text.trim row.text ++ rest) = Text.trim row.code ++ g := by
  have hsign : Text.isBlankChar '#' = false := by decide
  obtain ⟨g, hg, hsplit⟩ := Text.exists_trimEnd (Text.trimStart row.code)
  have hfree : '#' ∉ Text.trimStart row.code :=
    fun hmem => hcode ((List.dropWhile_suffix _).subset hmem)
  refine ⟨g, hg, ?_⟩
  rw [Row.text, hx]
  simp only [Text.trim] at hsplit ⊢
  rw [Text.trimStart_append_cons hsign, Text.trimEnd_append_cons hsign, List.append_assoc,
    List.cons_append, dropComment_append_sign hfree, ← hsplit]

/-- Of the joined rows, the code up to the first comment is left. -/
theorem exists_dropComment_spaced {rows : List Row} (hcode : ∀ row ∈ rows, '#' ∉ row.code) :
    ∃ g, Text.isBlank g = true ∧
      dropComment (spaced Row.text rows) = spaced Row.code (shownRows rows) ++ g := by
  induction rows with
  | nil => exact ⟨[], rfl, rfl⟩
  | cons row rows ih =>
    obtain ⟨hrow, hmore⟩ := List.forall_mem_cons.mp hcode
    obtain ⟨g, hg, hdrop⟩ := ih hmore
    -- the first comment hides all further rows, since they are joined behind it
    cases hcomment : row.comment with
    | some x =>
      have hrest : ∃ rest, spaced Row.text (row :: rows) = Text.trim row.text ++ rest := by
        by_cases hnil : rows = []
        · exact ⟨[], by rw [hnil, spaced_singleton, List.append_nil]⟩
        · exact ⟨_, spaced_cons hnil⟩
      obtain ⟨rest, hrest⟩ := hrest
      obtain ⟨g', hg', hdrop'⟩ := exists_dropComment_row hrow hcomment rest
      refine ⟨g', hg', ?_⟩
      rw [hrest, hdrop', shownRows, hcomment, Option.isSome_some, if_pos rfl, spaced_singleton]
    | none =>
      have htext : row.text = row.code := by rw [Row.text, hcomment]
      have hfree : '#' ∉ Text.trim row.code := fun hmem => hrow (Text.mem_of_mem_trim hmem)
      have hshown : shownRows (row :: rows) = row :: shownRows rows := by
        rw [shownRows, hcomment]
        rfl
      rw [hshown]
      by_cases hnil : rows = []
      · refine ⟨[], rfl, ?_⟩
        have halone := dropComment_append_of_not_mem hfree []
        rw [List.append_nil] at halone
        rw [hnil, shownRows, spaced_singleton, spaced_singleton, htext, halone]
        rfl
      · refine ⟨g, hg, ?_⟩
        have hspace : dropComment (' ' :: spaced Row.text rows) =
            ' ' :: dropComment (spaced Row.text rows) := rfl
        rw [spaced_cons hnil, spaced_cons (shownRows_ne_nil hnil), htext,
          dropComment_append_of_not_mem hfree, hspace, hdrop, List.append_assoc, List.cons_append]

theorem Row.notMem_text {row : Row} {c : Char} (hcode : c ∉ row.code) (hsign : c ≠ '#')
    (hcomment : ∀ x ∈ row.comment, c ∉ x) : c ∉ row.text := by
  intro hmem
  rw [text] at hmem
  split at hmem
  · exact hcode hmem
  · rename_i x hx
    rw [List.mem_append, List.mem_cons] at hmem
    rcases hmem with hmem | heq | hmem
    · exact hcode hmem
    · exact hsign heq
    · exact hcomment x hx hmem

/-- What ends in a bracket ends in it where its last part is not empty. -/
theorem exists_of_append_cons_eq {u v t : List Char} (h : u ++ ' ' :: v = t ++ [')']) :
    ∃ t', t = u ++ ' ' :: t' ∧ v = t' ++ [')'] := by
  rcases List.eq_nil_or_concat v with rfl | ⟨t', c, rfl⟩
  · have hlast := congrArg List.getLast? h
    simp at hlast
  · rw [List.concat_eq_append, ← List.cons_append, ← List.append_assoc] at h
    obtain ⟨ht, hc⟩ := List.append_inj' h rfl
    refine ⟨t', ht.symm, ?_⟩
    rw [List.concat_eq_append, hc]

/-- The rows are joined up to the bracket that closes the list. -/
theorem joinList_rows {row : Row} {rows : List Row} {t : List Char}
    (hlist : spaced Row.code (row :: rows) = t ++ [')']) (hopen : ')' ∉ t)
    (hcomments : ∀ r ∈ row :: rows, ∀ x ∈ r.comment, ')' ∉ x) {front : List Char}
    (hfront : ')' ∉ front) {n : Nat} (hfit : n + rows.length ≤ maxLookahead)
    (after : List Line) :
    joinList (front ++ Text.trim row.text) n (rows.map Row.text ++ after) =
      front ++ spaced Row.text (row :: rows) := by
  induction rows generalizing row t front n with
  | nil =>
    rw [spaced_singleton] at hlist
    have hmem : ')' ∈ Text.trim row.text := by
      have hcode : ')' ∈ row.code :=
        Text.mem_of_mem_trim (hlist ▸ List.mem_append_right t List.mem_cons_self)
      have htext : ')' ∈ row.text := by
        rw [Row.text]
        split
        · exact hcode
        · exact List.mem_append_left _ hcode
      exact (Text.mem_trim_of_mem htext).resolve_left (by decide)
    have hclosed : (front ++ Text.trim row.text).contains ')' = true :=
      List.contains_iff_mem.mpr (List.mem_append_right front hmem)
    rw [spaced_singleton, List.map_nil, List.nil_append]
    cases after with
    | nil => rfl
    | cons l after => rw [joinList, hclosed, Bool.true_or, if_pos rfl]
  | cons next rows ih =>
    rw [List.length_cons] at hfit
    rw [spaced_cons (List.cons_ne_nil next rows)] at hlist
    -- the bracket is in a later row
    obtain ⟨t', rfl, hlist'⟩ := exists_of_append_cons_eq hlist
    rw [List.mem_append, List.mem_cons, not_or, not_or] at hopen
    obtain ⟨hrow, hmore⟩ := List.forall_mem_cons.mp hcomments
    have hcode : ')' ∉ row.code := by
      intro hmem
      exact (Text.mem_trim_of_mem hmem).elim (by decide) hopen.1
    have htext : ')' ∉ Text.trim row.text :=
      fun hmem => Row.notMem_text hcode (by decide) hrow (Text.mem_of_mem_trim hmem)
    have hgoes : (front ++ Text.trim row.text).contains ')' = false := by
      rw [List.contains_eq_mem, decide_eq_false_iff_not, List.mem_append, not_or]
      exact ⟨hfront, htext⟩
    have hn : decide (maxLookahead ≤ n) = false := decide_eq_false (by omega)
    have hnext : ')' ∉ front ++ Text.trim row.text ++ [' '] := by
      rw [List.mem_append, List.mem_append, not_or, not_or]
      exact ⟨⟨hfront, htext⟩, by decide⟩
    have hrest := ih hlist' hopen.2.2 hmore hnext (n := n + 1) (by omega)
    rw [List.map_cons, List.cons_append, joinList, hgoes, hn, Bool.or_self,
      if_neg Bool.false_ne_true, List.append_cons, hrest, spaced_cons (List.cons_ne_nil next rows)]
    simp only [List.append_assoc, List.singleton_append]

/-! ## The list of a record -/

/-- The names in the text of a list, with or without the bracket that closes it. -/
def listNames (t : List Char) : List (List Char) := entries (Text.dropEndWhile (· = ')') t)

section

variable {g t : List Char} (hg : Text.isBlank g = true)
include hg

/-- Blanks around a list change neither its entries nor what closes it. -/
theorem entries_dropEndWhile (hclose : ')' ∉ t ∨ ∃ t', t = t' ++ [')'] ∧ ')' ∉ t') :
    entries (Text.dropEndWhile (· = ')') (Text.trimEnd (g ++ t))) = listNames t := by
  have hfree : ∀ {u : List Char}, ')' ∉ u → ')' ∉ g ++ u := by
    intro u hu hmem
    rcases List.mem_append.mp hmem with hmem | hmem
    · exact Text.notMem_of_isBlank hg (by decide) hmem
    · exact hu hmem
  rcases hclose with hopen | ⟨t', rfl, hopen⟩
  · obtain ⟨g', hg', hsplit⟩ := Text.exists_trimEnd (g ++ t)
    have hmem : ')' ∉ Text.trimEnd (g ++ t) := by
      intro hmem
      refine hfree hopen ?_
      rw [hsplit]
      exact List.mem_append_left g' hmem
    have hentries := entries_append_blank hg' (Text.trimEnd (g ++ t))
    rw [← hsplit, entries_blank_append hg] at hentries
    rw [Text.dropEndWhile_of_not_mem hmem, listNames, Text.dropEndWhile_of_not_mem hopen, hentries]
  · have hclose : Text.trimEnd (g ++ (t' ++ [')'])) = g ++ t' ++ [')'] := by
      rw [← List.append_assoc]
      exact Text.trimEnd_append_cons (by decide) (g ++ t') []
    rw [hclose, Text.dropEndWhile_concat (hfree hopen), listNames, Text.dropEndWhile_concat hopen,
      entries_blank_append hg]

end

/-- The bracket that opens a list is dropped, with the blanks behind the list. -/
theorem dropWhile_trim_opener {opener g t g' : List Char} (hg : Text.isBlank g = true)
    (hg' : Text.isBlank g' = true) (ht : '(' ∉ t)
    (hopener : opener = ['('] ∨ opener = [] ∧ g = [] ∧ Text.trim t = t) :
    (Text.trim (opener ++ (g ++ t ++ g'))).dropWhile (· = '(') = Text.trimEnd (g ++ t) := by
  have hfree : '(' ∉ Text.trimEnd (g ++ t) := by
    obtain ⟨b, -, hsplit⟩ := Text.exists_trimEnd (g ++ t)
    intro hmem
    have hmem' : '(' ∈ g ++ t := hsplit ▸ List.mem_append_left b hmem
    rcases List.mem_append.mp hmem' with hmem' | hmem'
    · exact Text.notMem_of_isBlank hg (by decide) hmem'
    · exact ht hmem'
  -- only the bracket in front is dropped, as none begins the list
  have hstays : (Text.trimEnd (g ++ t)).dropWhile (· = '(') = Text.trimEnd (g ++ t) := by
    cases hlist : Text.trimEnd (g ++ t) with
    | nil => rfl
    | cons c u =>
      refine List.dropWhile_cons_of_neg ?_
      rw [hlist, List.mem_cons, not_or] at hfree
      simpa using Ne.symm hfree.1
  rcases hopener with rfl | ⟨rfl, rfl, htrim⟩
  · have hparen : Text.trim (['('] ++ (g ++ t ++ g')) = '(' :: Text.trimEnd (g ++ t) := by
      rw [← Text.trimEnd_append_of_isBlank hg' (g ++ t)]
      exact Text.trimEnd_append_cons (by decide) [] _
    rw [hparen, List.dropWhile_cons, if_pos (decide_eq_true rfl), hstays]
  · have hend : Text.trimEnd t = t := by
      rw [← htrim, Text.trimEnd_trim]
    rw [List.nil_append, hend] at hstays
    rw [List.nil_append, List.nil_append, Text.trim_append_of_isBlank_right hg', htrim, hend]
    exact hstays

end CodeAtlas.Indent
