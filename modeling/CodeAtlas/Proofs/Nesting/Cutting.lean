/-
Texts that are read into one piece.

The cutter puts one character after the other into a piece, up to a separator at the outer level.
What it makes of a text is where it stands behind it (`ReadsTo`), so that a text that is given in
parts is followed part by part. A text fills a piece if it leads from the outer level back to it,
whatever stands in front (`Fills`). Such texts, joined by separators, are cut where they were
joined, and the last of them may be any text that is not cut (`outerPieces_intercalate`).

Whether a text without quotes is such a text can be computed: the cutter finds no comma outside its
brackets and leaves it at the depth at which it entered (`closesFrom`). All kinds of brackets count
as one depth, as they do for the cutter, so that a text that is balanced in each kind closes. A list
of such texts, with a comma and a blank between neighbours, is cut into these texts
(`splitOuter_listed`).
-/
import CodeAtlas.Nesting.Split
import CodeAtlas.Proofs.Text.Trim

set_option autoImplicit false

namespace CodeAtlas

variable {sep c q prev : Char} {s s' s'' : SplitState} {t u g p : List Char} {depth depth' : Int}

namespace SplitState

theorem prev_push (s : SplitState) (c : Char) : (s.push c).prev = c := by
  rw [push]
  split
  · rfl
  · split <;> rfl

/-- What was read of the piece has no say in how the cutter goes on. -/
theorem push_piece (s : SplitState) (p : List Char) (c : Char) :
    push { s with piece := p } c = { s.push c with piece := c :: p } := by
  obtain ⟨depth, quote, prev, piece⟩ := s
  cases quote with
  | none =>
    simp only [push]
    split <;> rfl
  | some q => rfl

end SplitState

/-! ## Reading -/

/-- From the first state on, the cutter puts the text into its piece, and is in the second state
behind it. -/
def ReadsTo (sep : Char) (s : SplitState) (t : List Char) (s' : SplitState) : Prop :=
  ∀ rest, outerPieces sep s (t ++ rest) = outerPieces sep s' rest

theorem ReadsTo.append (h : ReadsTo sep s t s') (h' : ReadsTo sep s' u s'') :
    ReadsTo sep s (t ++ u) s'' := by
  intro rest
  rw [List.append_assoc, h, h']

theorem readsTo_nil (s : SplitState) : ReadsTo sep s [] s := fun _ => rfl

theorem ReadsTo.cons (h : ReadsTo sep s [c] s') (h' : ReadsTo sep s' t s'') :
    ReadsTo sep s (c :: t) s'' := h.append h'

theorem readsTo_push (h : s.ends sep c = false) : ReadsTo sep s [c] (s.push c) := by
  intro rest
  rw [List.singleton_append, outerPieces, h, if_neg Bool.false_ne_true]

/-- A separator ends a piece at the outer level only. -/
theorem readsTo_code (hc : Quoting.isQuote c = false)
    (hvalue : depth + bracketValue prev c = depth') (hsep : c = sep → 0 < depth) :
    ReadsTo sep ⟨depth, none, prev, p⟩ [c] ⟨depth', none, c, c :: p⟩ := by
  have hgoes : SplitState.ends sep ⟨depth, none, prev, p⟩ c = false := by
    refine Bool.eq_false_iff.mpr ?_
    intro hends
    simp only [SplitState.ends, Bool.and_eq_true, decide_eq_true_eq] at hends
    have hpos := hsep hends.1.2
    omega
  have hpush : SplitState.push ⟨depth, none, prev, p⟩ c = ⟨depth', none, c, c :: p⟩ := by
    simp only [SplitState.push, hc, hvalue, Bool.false_eq_true, if_false]
  rw [← hpush]
  exact readsTo_push hgoes

/-- A quote opens a literal. -/
theorem readsTo_quote (hq : Quoting.isQuote q = true) :
    ReadsTo sep ⟨depth, none, prev, p⟩ [q] ⟨depth, some q, q, q :: p⟩ := by
  have hgoes : SplitState.ends sep ⟨depth, none, prev, p⟩ q = false := by
    simp [SplitState.ends, hq]
  have hpush : SplitState.push ⟨depth, none, prev, p⟩ q = ⟨depth, some q, q, q :: p⟩ := by
    simp only [SplitState.push, hq, if_true]
  rw [← hpush]
  exact readsTo_push hgoes

/-- A literal goes on behind other characters, and behind a quote with a backslash in front. -/
theorem readsTo_inside (h : c = q → prev = '\\') :
    ReadsTo sep ⟨depth, some q, prev, p⟩ [c] ⟨depth, some q, c, c :: p⟩ := by
  have hpush : SplitState.push ⟨depth, some q, prev, p⟩ c = ⟨depth, some q, c, c :: p⟩ := by
    by_cases hc : c = q
    · simp [SplitState.push, h hc]
    · simp [SplitState.push, hc]
  rw [← hpush]
  exact readsTo_push rfl

/-- A literal ends at its quote. -/
theorem readsTo_close (h : prev ≠ '\\') :
    ReadsTo sep ⟨depth, some q, prev, p⟩ [q] ⟨depth, none, q, q :: p⟩ := by
  have hpush : SplitState.push ⟨depth, some q, prev, p⟩ q = ⟨depth, none, q, q :: p⟩ := by
    simp [SplitState.push, h]
  rw [← hpush]
  exact readsTo_push rfl

/-- A text without the quote is inside the literal. -/
theorem readsTo_open (h : q ∉ t) (prev : Char) (p : List Char) :
    ∃ last, ReadsTo sep ⟨depth, some q, prev, p⟩ t ⟨depth, some q, last, t.reverse ++ p⟩ := by
  induction t generalizing prev p with
  | nil => exact ⟨prev, readsTo_nil _⟩
  | cons c t ih =>
    rw [List.mem_cons, not_or] at h
    obtain ⟨last, hread⟩ := ih h.2 c (c :: p)
    refine ⟨last, ?_⟩
    rw [List.reverse_cons, List.append_assoc, List.singleton_append]
    exact (readsTo_inside fun hc => absurd hc.symm h.1).cons hread

/-! ## Filling a piece -/

/-- The text leads from the outer level to the outer level, whatever stands in front of it. -/
def Fills (sep : Char) (t : List Char) : Prop :=
  ∀ prev p, ∃ last, ReadsTo sep ⟨0, none, prev, p⟩ t ⟨0, none, last, t.reverse ++ p⟩

theorem Fills.append (ht : Fills sep t) (hu : Fills sep u) : Fills sep (t ++ u) := by
  intro prev p
  obtain ⟨last, hread⟩ := ht prev p
  obtain ⟨last', hread'⟩ := hu last (t.reverse ++ p)
  refine ⟨last', ?_⟩
  rw [List.reverse_append, List.append_assoc]
  exact hread.append hread'

/-- Characters of code that are neither brackets nor separators fill a piece. -/
theorem fills_of_forall (h : ∀ c ∈ t, Quoting.isQuote c = false ∧ c ≠ sep ∧
    ∀ prev, bracketValue prev c = 0) : Fills sep t := by
  induction t with
  | nil => exact fun prev p => ⟨prev, readsTo_nil _⟩
  | cons c t ih =>
    obtain ⟨⟨hquote, hne, hvalue⟩, hmore⟩ := List.forall_mem_cons.mp h
    have hone : Fills sep [c] := by
      intro prev p
      exact ⟨c, readsTo_code hquote (by rw [hvalue, Int.add_zero]) fun heq => absurd heq hne⟩
    exact hone.append (ih hmore)

/-- Blanks are neither quotes nor brackets. -/
theorem neutral_of_isBlankChar (hc : Text.isBlankChar c = true) :
    Quoting.isQuote c = false ∧ ∀ prev, bracketValue prev c = 0 := by
  have hne : ∀ d, Text.isBlankChar d = false → c ≠ d := by
    rintro d hd rfl
    rw [hc] at hd
    cases hd
  refine ⟨?_, fun prev => ?_⟩
  · simp only [Quoting.isQuote, hne '"' (by decide), hne '\'' (by decide), hne '\x60' (by decide),
      decide_false, Bool.or_self]
  · simp only [bracketValue, hne '(' (by decide), hne '[' (by decide), hne '\x7b' (by decide),
      hne '<' (by decide), hne ')' (by decide), hne ']' (by decide), hne '\x7d' (by decide),
      hne '>' (by decide), decide_false, Bool.or_self, Bool.false_and, Bool.false_eq_true, if_false]

theorem not_isBlankChar_of_isQuote (hq : Quoting.isQuote q = true) :
    Text.isBlankChar q = false := by
  refine Bool.eq_false_iff.mpr fun hblank => ?_
  rw [(neutral_of_isBlankChar hblank).1] at hq
  cases hq

theorem fills_of_isBlank (hsep : Text.isBlankChar sep = false) (hg : Text.isBlank g = true) :
    Fills sep g := by
  refine fills_of_forall fun c hc => ?_
  have hblank := Text.isBlankChar_of_mem hg hc
  obtain ⟨hquote, hvalue⟩ := neutral_of_isBlankChar hblank
  refine ⟨hquote, ?_, hvalue⟩
  rintro rfl
  rw [hsep] at hblank
  cases hblank

/-- A text fills a piece if it does so without the blanks around it. -/
theorem Fills.of_trim (hsep : Text.isBlankChar sep = false) (h : Fills sep (Text.trim t)) :
    Fills sep t := by
  obtain ⟨g, g', hg, hg', hsplit⟩ := Text.exists_trim t
  rw [hsplit]
  exact (fills_of_isBlank hsep hg).append (h.append (fills_of_isBlank hsep hg'))

/-! ## Cutting -/

/-- What may separate pieces: a character of code that is no bracket. -/
structure IsSeparator (sep : Char) : Prop where
  noQuote : Quoting.isQuote sep = false
  noBracket : ∀ prev, bracketValue prev sep = 0
  noBlank : Text.isBlankChar sep = false

/-- A separator at the outer level ends the piece. -/
theorem outerPieces_append_cons (hsep : IsSeparator sep) (ht : Fills sep t)
    (prev : Char) (p rest : List Char) :
    outerPieces sep ⟨0, none, prev, p⟩ (t ++ sep :: rest) =
      (p.reverse ++ t) :: outerPieces sep ⟨0, none, sep, []⟩ rest := by
  obtain ⟨last, hread⟩ := ht prev p
  have hends : SplitState.ends sep ⟨0, none, last, t.reverse ++ p⟩ sep = true := by
    simp [SplitState.ends, hsep.noQuote, hsep.noBracket]
  rw [hread, outerPieces, if_pos hends, List.reverse_append, List.reverse_reverse]
  rfl

/-- The text is not cut, whatever stands in front of it. -/
def Uncut (sep : Char) (t : List Char) : Prop :=
  ∀ prev p, outerPieces sep ⟨0, none, prev, p⟩ t = [p.reverse ++ t]

theorem uncut_of_readsTo (h : ∀ prev p, ∃ s, ReadsTo sep ⟨0, none, prev, p⟩ t s ∧
    s.piece = t.reverse ++ p) : Uncut sep t := by
  intro prev p
  obtain ⟨s, hread, hpiece⟩ := h prev p
  have hall := hread []
  rw [List.append_nil] at hall
  rw [hall, outerPieces, hpiece, List.reverse_append, List.reverse_reverse]

theorem Fills.uncut (h : Fills sep t) : Uncut sep t := by
  refine uncut_of_readsTo fun prev p => ?_
  obtain ⟨last, hread⟩ := h prev p
  exact ⟨_, hread, rfl⟩

/-- Texts that fill a piece each are cut where they were joined; the last one may be any text
that is not cut. -/
theorem outerPieces_intercalate (hsep : IsSeparator sep) {ts : List (List Char)}
    (hts : ∀ u ∈ ts, Fills sep u) (ht : Uncut sep t) (prev : Char) :
    outerPieces sep ⟨0, none, prev, []⟩ ([sep].intercalate (ts ++ [t])) = ts ++ [t] := by
  induction ts generalizing prev with
  | nil =>
    rw [List.nil_append, List.intercalate_singleton, ht]
    rfl
  | cons u ts ih =>
    obtain ⟨hu, hmore⟩ := List.forall_mem_cons.mp hts
    rw [List.cons_append, List.intercalate_cons_of_ne_nil (by simp), List.append_assoc,
      List.singleton_append, outerPieces_append_cons hsep hu, ih hmore]
    rfl

/-- Texts with something to read each are cut where they were joined, and trimmed. -/
theorem splitOuter_intercalate (hsep : IsSeparator sep) {ts : List (List Char)}
    (hts : ∀ u ∈ ts, Fills sep u) (ht : Uncut sep t)
    (hne : ∀ u ∈ ts ++ [t], Text.trim u ≠ []) :
    splitOuter sep ([sep].intercalate (ts ++ [t])) = (ts ++ [t]).map Text.trim := by
  rw [splitOuter, SplitState.start, outerPieces_intercalate hsep hts ht]
  refine List.filter_eq_self.mpr fun piece hpiece => ?_
  obtain ⟨u, hu, rfl⟩ := List.mem_map.mp hpiece
  simpa using hne u hu

/-- Texts that fill a piece each are cut where they were joined, and trimmed. -/
theorem splitOuter_of_fills (hsep : IsSeparator sep) {ts : List (List Char)}
    (hts : ∀ u ∈ ts, Text.trim u ≠ [] ∧ Fills sep u) :
    splitOuter sep ([sep].intercalate ts) = ts.map Text.trim := by
  rcases List.eq_nil_or_concat' ts with rfl | ⟨init, last, rfl⟩
  · have hfills : Fills sep [] := fills_of_isBlank hsep.noBlank rfl
    rw [List.intercalate_nil, splitOuter, SplitState.start, hfills.uncut]
    rfl
  · exact splitOuter_intercalate hsep (fun u hu => (hts u (List.mem_append_left _ hu)).2)
      (hts last (by simp)).2.uncut fun u hu => (hts u hu).1

/-! ## Lists as they are written -/

/-- The entries stand between separators, with any blanks around them; a separator may follow the
last one. -/
def IsListOf (sep : Char) (ts : List (List Char)) (t : List Char) : Prop :=
  ∃ pieces : List (List Char), pieces ≠ [] ∧ t = [sep].intercalate pieces ∧
    (pieces.map Text.trim = ts ∨ pieces.map Text.trim = ts ++ [[]])

section

variable {ts pieces : List (List Char)}

theorem trim_mem_of_listed (h : pieces.map Text.trim = ts ∨ pieces.map Text.trim = ts ++ [[]])
    (ht : t ∈ pieces) : Text.trim t ∈ ts ∨ Text.trim t = [] := by
  have hmem : Text.trim t ∈ pieces.map Text.trim := List.mem_map_of_mem ht
  rcases h with heq | heq
  · exact .inl (heq ▸ hmem)
  · exact (List.mem_append.mp (heq ▸ hmem)).imp_right List.mem_singleton.mp

/-- What holds of blanks, the separator and all entries holds of the list. -/
theorem IsListOf.forall_mem {P : Char → Prop} (h : IsListOf sep ts t) (hsep : P sep)
    (hblank : ∀ c, Text.isBlankChar c = true → P c) (hts : ∀ u ∈ ts, ∀ c ∈ u, P c) :
    ∀ c ∈ t, P c := by
  obtain ⟨pieces, -, rfl, hpieces⟩ := h
  intro c hc
  rcases Text.mem_of_mem_intercalate hc with hc | ⟨piece, hpiece, hc⟩
  · rw [List.mem_singleton.mp hc]
    exact hsep
  · rcases Text.mem_trim_of_mem hc with hc | hc
    · exact hblank c hc
    · rcases trim_mem_of_listed hpieces hpiece with hmem | hnil
      · exact hts _ hmem c hc
      · rw [hnil] at hc
        cases hc

/-- A list is cut into its entries. -/
theorem IsListOf.splitOuter_eq (h : IsListOf sep ts t) (hsep : IsSeparator sep)
    (hts : ∀ u ∈ ts, u ≠ [] ∧ Fills sep u) : splitOuter sep t = ts := by
  obtain ⟨pieces, hne, rfl, hpieces⟩ := h
  have hfills : ∀ u ∈ pieces, Fills sep u := by
    intro u hu
    refine Fills.of_trim hsep.noBlank ?_
    rcases trim_mem_of_listed hpieces hu with hmem | hnil
    · exact (hts _ hmem).2
    · rw [hnil]
      exact fills_of_isBlank hsep.noBlank rfl
  have hall : ts.filter (!·.isEmpty) = ts := by
    refine List.filter_eq_self.mpr fun u hu => ?_
    simp [(hts u hu).1]
  obtain ⟨init, last, rfl⟩ := (List.eq_nil_or_concat' pieces).resolve_left hne
  rw [splitOuter, SplitState.start, outerPieces_intercalate hsep
    (fun u hu => hfills u (List.mem_append_left _ hu)) (hfills last (by simp)).uncut]
  rcases hpieces with heq | heq
  · rw [heq, hall]
  · rw [heq, List.filter_append, hall]
    exact List.append_nil _

end

/-! ## Lists with commas -/

/-- From the depth and behind the character, the text never goes below depth zero, ends there,
and has no comma there. -/
def closesFrom (prev : Char) (depth : Int) : List Char → Bool
  | [] => depth = 0
  | c :: t =>
    let inside := depth + bracketValue prev c
    0 ≤ inside && !(c = ',' && inside = 0) && closesFrom c inside t

/-- A text without quotes that may stand between two commas. -/
structure IsPiece (t : List Char) : Prop where
  ne_nil : t ≠ []
  trimmed : Text.trim t = t
  noQuote : ∀ c ∈ t, Quoting.isQuote c = false
  closes : closesFrom ' ' 0 t = true

instance (t : List Char) : Decidable (IsPiece t) :=
  decidable_of_iff (t ≠ [] ∧ Text.trim t = t ∧ t.all (!Quoting.isQuote ·) = true ∧
      closesFrom ' ' 0 t = true) <| by
    rw [List.all_eq_true]
    simp only [Bool.not_eq_true']
    exact ⟨fun h => ⟨h.1, h.2.1, h.2.2.1, h.2.2.2⟩, fun h => ⟨h.1, h.2, h.3, h.4⟩⟩

/-- The texts with a comma and a blank between neighbours. -/
def listed (ts : List (List Char)) : List Char := [',', ' '].intercalate ts

theorem isSeparator_comma : IsSeparator ',' where
  noQuote := rfl
  noBracket _ := rfl
  noBlank := rfl

/-- A text that closes is read into the piece as a whole. -/
theorem exists_reads_of_closesFrom (hquote : ∀ c ∈ t, Quoting.isQuote c = false)
    (hclose : closesFrom prev depth t = true) (p : List Char) :
    ∃ last, ReadsTo ',' ⟨depth, none, prev, p⟩ t ⟨0, none, last, t.reverse ++ p⟩ := by
  induction t generalizing prev depth p with
  | nil =>
    have hdepth : depth = 0 := of_decide_eq_true hclose
    exact ⟨prev, by rw [hdepth]; exact readsTo_nil _⟩
  | cons c t ih =>
    obtain ⟨hc, hquote⟩ := List.forall_mem_cons.mp hquote
    simp only [closesFrom, Bool.and_eq_true, Bool.not_eq_true', decide_eq_true_eq] at hclose
    obtain ⟨⟨hdepth, hcomma⟩, hclose⟩ := hclose
    have hinside : c = ',' → 0 < depth := by
      rintro rfl
      have hvalue : bracketValue prev ',' = 0 := rfl
      rw [hvalue, Int.add_zero] at hdepth hcomma
      have hne : depth ≠ 0 := by simpa using hcomma
      omega
    obtain ⟨last, hrest⟩ := ih hquote hclose (c :: p)
    refine ⟨last, ?_⟩
    rw [List.reverse_cons, List.append_assoc, List.singleton_append]
    exact (readsTo_code hc rfl hinside).cons hrest

/-- A text that closes does not begin with a closing angle bracket, so that what stands in front
of it does not matter. -/
theorem bracketValue_of_closesFrom {c : Char} (hclose : closesFrom ' ' 0 (c :: t) = true)
    (prev : Char) : bracketValue prev c = bracketValue ' ' c := by
  have hangle : c ≠ '>' := by
    rintro rfl
    simp [closesFrom, bracketValue] at hclose
  simp only [bracketValue, hangle, decide_false, Bool.false_and]

theorem closesFrom_zero (hclose : closesFrom ' ' 0 t = true) (prev : Char) :
    closesFrom prev 0 t = true := by
  cases t with
  | nil => rfl
  | cons c t =>
    rw [closesFrom, bracketValue_of_closesFrom hclose]
    exact hclose

theorem IsPiece.fills (h : IsPiece t) : Fills ',' t := fun prev p =>
  exists_reads_of_closesFrom h.noQuote (closesFrom_zero h.closes prev) p

/-- A list, from any blanks in front of it to any blanks behind it, is cut into its texts. -/
theorem map_trim_outerPieces {ts : List (List Char)} (hts : ∀ u ∈ t :: ts, IsPiece u)
    (hg : Text.isBlank g = true) (hpiece : Text.isBlank p = true) (prev : Char) :
    (outerPieces ',' ⟨0, none, prev, p⟩ (listed (t :: ts) ++ g)).map Text.trim = t :: ts := by
  have hrev : Text.isBlank p.reverse = true := by
    rwa [Text.isBlank, List.all_reverse]
  induction ts generalizing t prev p with
  | nil =>
    obtain ⟨ht, -⟩ := List.forall_mem_cons.mp hts
    have hfills := ht.fills.append (fills_of_isBlank isSeparator_comma.noBlank hg)
    rw [listed, List.intercalate_singleton, hfills.uncut, List.map_singleton,
      Text.trim_append_of_isBlank hrev, Text.trim_append_of_isBlank_right hg, ht.trimmed]
  | cons u ts ih =>
    obtain ⟨ht, hmore⟩ := List.forall_mem_cons.mp hts
    have hsplit : listed (t :: u :: ts) ++ g = t ++ ',' :: ([' '] ++ (listed (u :: ts) ++ g)) := by
      rw [listed, List.intercalate_cons_cons]
      simp [listed]
    -- the blank behind the comma begins the next piece
    have hblank : ReadsTo ',' ⟨0, none, ',', []⟩ [' '] ⟨0, none, ' ', [' ']⟩ :=
      readsTo_code rfl rfl (by decide)
    rw [hsplit, outerPieces_append_cons isSeparator_comma ht.fills, hblank, List.map_cons,
      ih hmore rfl ' ' rfl, Text.trim_append_of_isBlank hrev, ht.trimmed]

/-- A list of texts is cut into these texts. -/
theorem splitOuter_listed {ts : List (List Char)} (hts : ∀ t ∈ ts, IsPiece t)
    (hg : Text.isBlank g = true) : splitOuter ',' (listed ts ++ g) = ts := by
  rw [splitOuter, SplitState.start]
  cases ts with
  | nil =>
    have hfills : Fills ',' g := fills_of_isBlank isSeparator_comma.noBlank hg
    rw [listed, List.intercalate_nil, List.nil_append, hfills.uncut]
    simp [Text.trim_eq_nil_of_isBlank hg]
  | cons t ts =>
    rw [map_trim_outerPieces hts hg rfl]
    refine List.filter_eq_self.mpr ?_
    intro u hu
    simp [(hts u hu).ne_nil]

theorem listed_cons {t : List Char} {ts : List (List Char)} (hne : ts ≠ []) :
    listed (t :: ts) = t ++ [',', ' '] ++ listed ts := List.intercalate_cons_of_ne_nil hne

theorem listed_concat_append (ts : List (List Char)) (a b : List Char) :
    listed (ts ++ [a ++ b]) = listed (ts ++ [a]) ++ b := by
  induction ts with
  | nil => rw [List.nil_append, List.nil_append, listed, listed, List.intercalate_singleton,
      List.intercalate_singleton]
  | cons t ts ih =>
    rw [List.cons_append, List.cons_append, listed_cons (by simp), listed_cons (by simp), ih]
    simp only [List.append_assoc]

/-- Behind its first text a list ends, or a comma follows. -/
theorem exists_listed_cons (t : List Char) (ts : List (List Char)) :
    ∃ r, listed (t :: ts) = t ++ r ∧ (r = [] ∨ r.head? = some ',') := by
  by_cases hnil : ts = []
  · exact ⟨[], by rw [hnil, listed, List.intercalate_singleton, List.append_nil], .inl rfl⟩
  · exact ⟨_, by rw [listed_cons hnil, List.append_assoc], .inr rfl⟩

/-- A list is trimmed as its texts are. -/
theorem trim_listed {ts : List (List Char)} (hts : ∀ t ∈ ts, IsPiece t) :
    Text.trim (listed ts) = listed ts := by
  induction ts with
  | nil => rfl
  | cons t ts ih =>
    obtain ⟨ht, hmore⟩ := List.forall_mem_cons.mp hts
    by_cases hnil : ts = []
    · rw [hnil, listed, List.intercalate_singleton, ht.trimmed]
    · obtain ⟨u, us, rfl⟩ := List.exists_cons_of_ne_nil hnil
      have hne : listed (u :: us) ≠ [] := by
        obtain ⟨r, hr, -⟩ := exists_listed_cons u us
        rw [hr]
        exact List.append_ne_nil_of_left_ne_nil (hmore u List.mem_cons_self).ne_nil r
      obtain ⟨-, c, v, -, hc, -, htrim⟩ :=
        Text.exists_cons_of_trim_ne_nil (ht.trimmed.symm ▸ ht.ne_nil)
      rw [ht.trimmed] at htrim
      rw [listed_cons hnil, htrim, List.cons_append]
      exact Text.trim_append_eq_self hc _ (ih hmore) hne

/-- A character of a list is one of a text, or stands between two of them. -/
theorem mem_of_mem_listed {c : Char} {ts : List (List Char)} (hcomma : c ≠ ',') (hspace : c ≠ ' ')
    (hc : c ∈ listed ts) : ∃ t ∈ ts, c ∈ t := by
  refine (Text.mem_of_mem_intercalate hc).resolve_left ?_
  simp [hcomma, hspace]

/-! ## Characters of a piece -/

/-- A piece is what is left of a text when other characters are taken out. -/
theorem sublist_of_mem_outerPieces {sep : Char} {s : SplitState} {t piece : List Char}
    (hpiece : piece ∈ outerPieces sep s t) : piece.Sublist (s.piece.reverse ++ t) := by
  induction t generalizing s with
  | nil =>
    rw [outerPieces, List.mem_singleton] at hpiece
    rw [hpiece, List.append_nil]
  | cons d t ih =>
    rw [outerPieces] at hpiece
    split at hpiece
    · rcases List.mem_cons.mp hpiece with rfl | hmore
      · exact List.sublist_append_left _ _
      · exact (ih hmore).trans ((List.sublist_cons_self d t).trans (List.sublist_append_right _ _))
    · have hpushed : (s.push d).piece = d :: s.piece :=
        congrArg SplitState.piece (s.push_piece s.piece d)
      have hrest := ih hpiece
      rwa [hpushed, List.reverse_cons, List.append_assoc, List.singleton_append] at hrest

theorem sublist_of_mem_splitOuter {sep : Char} {t piece : List Char}
    (hpiece : piece ∈ splitOuter sep t) : piece.Sublist t := by
  obtain ⟨u, hu, rfl⟩ := List.mem_map.mp (List.mem_of_mem_filter hpiece)
  exact (Text.isInfix_trim u).sublist.trans (sublist_of_mem_outerPieces hu)

end CodeAtlas
