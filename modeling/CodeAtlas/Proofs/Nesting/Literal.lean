/-
What stands in a literal is not seen.

A scanner knows of a literal where it begins and where it ends, and passes what stands between. It
is then where it was, with the closing quote in front of it. So two texts that differ in what a
literal holds are scanned alike: the counts and the balance are the same, the first cut and the end
of a group are at the same offset if the literals have as many bytes, and of the pieces only the one
with the literal differs, and only there (`literal_unseen`).

For each scanner there are two laws. One is about the text in front of the literal: the scanner is
done with it, or goes on behind it from a state that does not depend on what follows. The other is
about the literal. That the literal has no backslash counts for the pieces only, whose cutter looks
at the character in front of a quote.
-/
import CodeAtlas.Proofs.Nesting.Enclosed
import CodeAtlas.Proofs.Nesting.FirstCut
import CodeAtlas.Proofs.Nesting.Quiet

set_option autoImplicit false

namespace CodeAtlas

variable {a s s' t t' : List Char} {c q sep : Char} {st : Quoting}

/-! ## Texts of literals -/

/-- A text that may stand in a literal, with neither its quote nor a backslash. -/
structure IsRawText (q : Char) (s : List Char) : Prop where
  noQuote : q ∉ s
  noBackslash : '\\' ∉ s

theorem IsRawText.literalText (h : IsRawText q s) : LiteralText q s := by
  obtain ⟨hquote, hback⟩ := h
  induction s with
  | nil => exact .nil
  | cons c s ih =>
    rw [List.mem_cons, not_or] at hquote hback
    exact .plain (Ne.symm hquote.1) (Ne.symm hback.1) (ih hquote.2 hback.2)

theorem IsRawText.shutText (h : IsRawText q s) : ShutText q s := by
  constructor
  · rintro u v rfl
    exact absurd (List.mem_append_right u List.mem_cons_self) h.noQuote
  · exact fun hlast => h.noBackslash (List.mem_of_getLast? hlast)

theorem next_code_of_isQuote (hq : Quoting.isQuote q = true) :
    Quoting.code.next q = .literal q := if_pos hq

/-! ## Counting -/

/-- A count that stands still inside literals goes on behind the literal. -/
theorem LiteralText.passed {β : Type} {count : Quoting → List Char → β} (hs : LiteralText q s)
    (hq : Quoting.isQuote q = true)
    (hstill : ∀ {st : Quoting} {c : Char} {t : List Char}, st ≠ .code →
      count st (c :: t) = count (st.next c) t) (b : List Char) :
    count (.literal q) (s ++ q :: b) = count .code b :=
  hs.carried hq (P := fun st t => count st t = count .code b)
    (fun hst ih => (hstill hst).trans ih) rfl

theorem braceCountFrom_code_cons (h : ¬ (c = '/' ∧ t.head? = some '/')) :
    braceCountFrom .code (c :: t) = (braceCountFrom (Quoting.code.next c) t).add c := by
  rw [braceCountFrom]
  rintro rest rfl rfl
  exact h ⟨rfl, rfl⟩

/-- A text counts by what is counted behind it, unless a comment begins where it ends. -/
theorem braceCountFrom_append_congr (ht : t.head? ≠ some '/') (ht' : t'.head? ≠ some '/')
    (h : braceCountFrom (st.after a) t = braceCountFrom (st.after a) t') :
    braceCountFrom st (a ++ t) = braceCountFrom st (a ++ t') := by
  induction a generalizing st with
  | nil => exact h
  | cons c a ih =>
    rw [List.cons_append, List.cons_append]
    by_cases hcode : st = .code
    · subst hcode
      by_cases hcomment : c = '/' ∧ a.head? = some '/'
      · -- a comment begins here, and nothing behind it counts
        obtain ⟨rfl, hslash⟩ := hcomment
        obtain ⟨a, rfl⟩ := List.head?_eq_some_iff.mp hslash
        rfl
      · have hgoes : ∀ u : List Char, u.head? ≠ some '/' →
            ¬ (c = '/' ∧ (a ++ u).head? = some '/') := by
          rintro u hu ⟨hc, hslash⟩
          cases a with
          | nil => exact hu hslash
          | cons d a => exact hcomment ⟨hc, hslash⟩
        rw [braceCountFrom_code_cons (hgoes t ht), braceCountFrom_code_cons (hgoes t' ht'), ih h]
    · rw [braceCountFrom_cons hcode, braceCountFrom_cons hcode, ih h]

theorem braceCount_literal_congr (ha : Quoting.code.after a = .code)
    (hq : Quoting.isQuote q = true) (hs : LiteralText q s) (hs' : LiteralText q s')
    (b : List Char) :
    braceCount (a ++ q :: (s ++ q :: b)) = braceCount (a ++ q :: (s' ++ q :: b)) := by
  have hslash : q ≠ '/' := ne_of_isQuote hq rfl
  have hliteral : ∀ {x}, LiteralText q x →
      braceCountFrom .code (q :: (x ++ q :: b)) = (braceCountFrom .code b).add q := by
    intro x hx
    rw [braceCountFrom_code_cons (fun h => hslash h.1), next_code_of_isQuote hq,
      hx.passed hq fun hst => braceCountFrom_cons hst _ _]
  refine braceCountFrom_append_congr (by simpa using hslash) (by simpa using hslash) ?_
  rw [ha, hliteral hs, hliteral hs']

theorem parenBalance_literal_congr (ha : Quoting.code.after a = .code)
    (hq : Quoting.isQuote q = true) (hs : LiteralText q s) (hs' : LiteralText q s')
    (b : List Char) :
    parenBalance (a ++ q :: (s ++ q :: b)) = parenBalance (a ++ q :: (s' ++ q :: b)) := by
  have hstill : ∀ {st : Quoting} {c : Char} {t : List Char}, st ≠ .code →
      parenBalanceFrom st (c :: t) = parenBalanceFrom (st.next c) t := by
    intro st c t hst
    rw [parenBalanceFrom]
    exact hst
  have hliteral : ∀ {x}, LiteralText q x → parenBalanceFrom .code (q :: (x ++ q :: b)) =
      Quoting.code.roundValue q + parenBalanceFrom .code b := by
    intro x hx
    rw [parenBalanceFrom_cons, next_code_of_isQuote hq, hx.passed hq hstill]
  rw [parenBalance, parenBalance, parenBalanceFrom_append, parenBalanceFrom_append, ha,
    hliteral hs, hliteral hs']

/-! ## Round groups -/

/-- A literal is taken into a group as a whole. -/
theorem closeGroup?_literal (hq : Quoting.isQuote q = true) (hs : LiteralText q s) (depth : Nat)
    (b : List Char) :
    closeGroup? .code depth (q :: (s ++ q :: b)) =
      (closeGroup? .code depth b).map fun p => (q :: (s ++ q :: p.1), p.2) := by
  have hinside : ∃ u, s ++ q :: b = u ++ b ∧ closeGroup? (.literal q) depth (s ++ q :: b) =
      (closeGroup? .code depth b).map fun p => (u ++ p.1, p.2) := by
    refine hs.carried hq (P := fun st t => ∃ u, t = u ++ b ∧ closeGroup? st depth t =
      (closeGroup? .code depth b).map fun p => (u ++ p.1, p.2)) ?_ ?_
    · rintro st c t hst ⟨u, rfl, hu⟩
      refine ⟨c :: u, rfl, ?_⟩
      rw [closeGroup?, hu, Option.map_map]
      · rfl
      · exact hst
    · exact ⟨[], rfl, by simp⟩
  obtain ⟨u, hu, hgroup⟩ := hinside
  rw [List.append_cons] at hu
  obtain rfl := List.append_cancel_right hu
  -- the quote itself is no bracket
  have hopens : closeGroup? .code depth (q :: (s ++ q :: b)) =
      (closeGroup? (.literal q) depth (s ++ q :: b)).map fun p => (q :: p.1, p.2) := by
    rw [closeGroup?, next_code_of_isQuote hq]
    · exact ne_of_isQuote hq rfl
    · exact fun heq _ => ne_of_isQuote hq rfl heq
    · exact fun _ heq _ => ne_of_isQuote hq rfl heq
  rw [hopens, hgroup, Option.map_map]
  simp [Function.comp_def]

theorem groupAt?_append (p t : List Char) :
    groupAt? (Text.byteLength p) (p ++ t) = takeGroup? t := by
  rw [groupAt?, Text.dropBytes?_eq_some_iff.mpr ⟨p, rfl, rfl⟩, Option.bind_some]

/-- The offsets at which the group at an offset is cut out of the text: behind its opening bracket
and in front of its closing one. -/
def groupCuts? (offset : Nat) (t : List Char) : Option (Nat × Nat) :=
  (groupAt? offset t).map fun group => (offset + 1, offset + 1 + Text.byteLength group.1)

theorem groupCuts?_literal_congr {p u : List Char} (hp : Quoting.code.after p = .code)
    (ha : Quoting.code.after (p ++ '(' :: u) = .code) (hq : Quoting.isQuote q = true)
    (hs : LiteralText q s) (hs' : LiteralText q s')
    (hlength : Text.byteLength s = Text.byteLength s') (b : List Char) :
    groupCuts? (Text.byteLength p) (p ++ '(' :: u ++ q :: (s ++ q :: b)) =
      groupCuts? (Text.byteLength p) (p ++ '(' :: u ++ q :: (s' ++ q :: b)) := by
  have hu : Quoting.code.after u = .code := by
    rw [Quoting.after_append, hp] at ha
    exact ha
  -- at the offset the group begins, whatever stands behind `u`
  have htake : ∀ t, groupAt? (Text.byteLength p) (p ++ '(' :: u ++ t) =
      closeGroup? .code 0 (u ++ t) := by
    intro t
    rw [List.append_assoc, groupAt?_append]
    rfl
  rw [groupCuts?, groupCuts?, htake, htake]
  rcases closeGroup?_append_cases .code 0 u with ⟨inner, rest, hclosed⟩ | ⟨depth, hopen⟩
  · -- the group ends in front of the literal
    rw [hclosed, hclosed]
    rfl
  · rw [hopen, hopen, hu, closeGroup?_literal hq hs, closeGroup?_literal hq hs', Option.map_map,
      Option.map_map, Option.map_map, Option.map_map]
    congr 1
    funext group
    simp only [Function.comp_apply, Text.byteLength_append, Text.byteLength_cons, hlength]

/-! ## The first cut -/

/-- What a cutter makes of a character: it ends there if that separates and the depth allows it,
and else goes on whatever follows. -/
theorem cutOuterFrom?_cons_cases (f : Option Char → Char → List Char → Bool) (st : Quoting)
    (depth : Int) (prev : Option Char) (c : Char) :
    ∃ (mayEnd : Bool) (depth' : Int), ∀ t, cutOuterFrom? f st depth prev (c :: t) =
      if mayEnd && f prev c t then some ([], c :: t)
      else (cutOuterFrom? f (st.next c) depth' (some c) t).map fun p => (c :: p.1, p.2) := by
  cases st with
  | code =>
    by_cases hquote : Quoting.isQuote c = true
    · refine ⟨false, depth, fun t => ?_⟩
      rw [cutOuterFrom?, if_pos hquote, next_code_of_isQuote hquote, Bool.false_and,
        if_neg Bool.false_ne_true]
    · have hplain : Quoting.isQuote c = false := Bool.eq_false_iff.mpr hquote
      refine ⟨depth + bracketValue (prev.getD '\x00') c ≤ 0,
        depth + bracketValue (prev.getD '\x00') c, fun t => ?_⟩
      rw [cutOuterFrom?, if_neg hquote, Quoting.next_code_of_not_isQuote hplain]
  | literal q =>
    refine ⟨false, depth, fun t => ?_⟩
    rw [cutOuterFrom?, Bool.false_and, if_neg Bool.false_ne_true]
    exact Quoting.noConfusion
  | escape q =>
    refine ⟨false, depth, fun t => ?_⟩
    rw [cutOuterFrom?, Bool.false_and, if_neg Bool.false_ne_true]
    exact Quoting.noConfusion

/-- In front of a quote, a text is cut, or it is passed to some depth; which of the two does not
depend on what follows the quote. -/
theorem cutOuterFrom?_append_cases {f : Option Char → Char → List Char → Bool}
    (hf : ∀ prev c r r', r.head? = r'.head? → f prev c r = f prev c r') (q : Char)
    (st : Quoting) (depth : Int) (prev : Option Char) (a : List Char) :
    (∃ l c r, ∀ t, cutOuterFrom? f st depth prev (a ++ q :: t) = some (l, c :: (r ++ q :: t))) ∨
      ∃ depth' prev', ∀ t, cutOuterFrom? f st depth prev (a ++ q :: t) =
        (cutOuterFrom? f (st.after a) depth' prev' (q :: t)).map fun p => (a ++ p.1, p.2) := by
  induction a generalizing st depth prev with
  | nil => exact .inr ⟨depth, prev, fun t => by simp [Quoting.after]⟩
  | cons c a ih =>
    obtain ⟨mayEnd, depth', hstep⟩ := cutOuterFrom?_cons_cases f st depth prev c
    -- of what follows, the separator is only told the first character
    have hsame : ∀ t, f prev c (a ++ q :: t) = f prev c (a ++ [q]) := fun t =>
      hf prev c _ _ (by rw [List.head?_append, List.head?_append]; rfl)
    by_cases hends : (mayEnd && f prev c (a ++ [q])) = true
    · refine .inl ⟨[], c, a, fun t => ?_⟩
      rw [List.cons_append, hstep, hsame, if_pos hends]
    · rcases ih (st.next c) depth' (some c) with ⟨l, d, r, hcut⟩ | ⟨depth'', prev', hpass⟩
      · refine .inl ⟨c :: l, d, r, fun t => ?_⟩
        rw [List.cons_append, hstep, hsame, if_neg hends, hcut]
        rfl
      · refine .inr ⟨depth'', prev', fun t => ?_⟩
        rw [List.cons_append, hstep, hsame, if_neg hends, hpass, Option.map_map]
        rfl

/-- The literal is passed as a whole, so a text with a literal is cut in front of it or behind it,
and where it is cut does not depend on what the literal holds. -/
theorem cutOuterFrom?_literal_cases {f : Option Char → Char → List Char → Bool}
    (hf : ∀ prev c r r', r.head? = r'.head? → f prev c r = f prev c r')
    (ha : Quoting.code.after a = .code) (hq : Quoting.isQuote q = true) (b : List Char) :
    (∃ l c r, ∀ s, LiteralText q s → cutOuterFrom? f .code 0 none (a ++ q :: (s ++ q :: b)) =
      some (l, c :: (r ++ q :: (s ++ q :: b)))) ∨
    ∃ cut : Option (List Char × List Char), ∀ s, LiteralText q s →
      cutOuterFrom? f .code 0 none (a ++ q :: (s ++ q :: b)) =
        cut.map fun p => (a ++ q :: (s ++ q :: p.1), p.2) := by
  rcases cutOuterFrom?_append_cases hf q .code 0 none a with ⟨l, c, r, hcut⟩ | ⟨depth, prev, hpass⟩
  · exact .inl ⟨l, c, r, fun s _ => hcut _⟩
  · refine .inr ⟨cutOuterFrom? f .code depth (some q) b, fun s hs => ?_⟩
    rw [hpass, ha, cutOuterFrom?, if_pos hq, cutOuterFrom?_literal hq hs, Option.map_map,
      Option.map_map]
    rfl

/-- What is told of a cut by the bytes in front of it and the character behind it is the same for
literals of as many bytes. -/
theorem map_cutOuterFrom?_literal_congr {f : Option Char → Char → List Char → Bool}
    {tell : List Char × List Char → Nat}
    (hf : ∀ prev c r r', r.head? = r'.head? → f prev c r = f prev c r')
    (htell : ∀ l l' r r', Text.byteLength l = Text.byteLength l' → r.head? = r'.head? →
      tell (l, r) = tell (l', r'))
    (ha : Quoting.code.after a = .code) (hq : Quoting.isQuote q = true) (hs : LiteralText q s)
    (hs' : LiteralText q s') (hlength : Text.byteLength s = Text.byteLength s') (b : List Char) :
    (cutOuterFrom? f .code 0 none (a ++ q :: (s ++ q :: b))).map tell =
      (cutOuterFrom? f .code 0 none (a ++ q :: (s' ++ q :: b))).map tell := by
  rcases cutOuterFrom?_literal_cases hf ha hq b with ⟨l, c, r, hfront⟩ | ⟨cut, hbehind⟩
  · rw [hfront s hs, hfront s' hs', Option.map_some, Option.map_some]
    exact congrArg some (htell l l _ _ rfl rfl)
  · rw [hbehind s hs, hbehind s' hs', Option.map_map, Option.map_map]
    congr 1
    funext p
    refine htell _ _ _ _ ?_ rfl
    simp only [Text.byteLength_append, Text.byteLength_cons, hlength]

theorem standsAlone_congr {prev : Option Char} (h : t.head? = t'.head?) :
    standsAlone sep prev t = standsAlone sep prev t' := by
  rw [standsAlone, standsAlone, isCompound, isCompound, h]

theorem outerOffset?_literal_congr (ha : Quoting.code.after a = .code)
    (hq : Quoting.isQuote q = true) (hs : LiteralText q s) (hs' : LiteralText q s')
    (hlength : Text.byteLength s = Text.byteLength s') (sep : Char) (b : List Char) :
    outerOffset? sep (a ++ q :: (s ++ q :: b)) = outerOffset? sep (a ++ q :: (s' ++ q :: b)) := by
  refine map_cutOuterFrom?_literal_congr (fun prev c r r' h => ?_) (fun l l' r r' hl h => ?_) ha hq
    hs hs' hlength b
  · rw [standsAlone_congr h]
  · simp only [hl, h]

theorem cutOuter?_literal_congr (ha : Quoting.code.after a = .code)
    (hq : Quoting.isQuote q = true) (hs : LiteralText q s) (hs' : LiteralText q s')
    (hlength : Text.byteLength s = Text.byteLength s') (sep : Char) (b : List Char) :
    (cutOuter? sep (a ++ q :: (s ++ q :: b))).map (fun cut => Text.byteLength cut.1) =
      (cutOuter? sep (a ++ q :: (s' ++ q :: b))).map fun cut => Text.byteLength cut.1 := by
  rw [cutOuter?, cutOuter?, Option.map_map, Option.map_map]
  refine map_cutOuterFrom?_literal_congr (fun prev c r r' h => ?_) (fun l l' r r' hl _ => hl) ha hq
    hs hs' hlength b
  rw [standsAlone_congr h]

/-! ## All pieces -/

namespace SplitState

variable {state : SplitState}

/-- What the cutter of pieces knows of quotes, as a scanner has it that looks for no backslashes. -/
def quoting (state : SplitState) : Quoting :=
  match state.quote with
  | none => .code
  | some q => .literal q

theorem quoting_cut (h : state.ends sep c = true) :
    (state.cut c).quoting = state.quoting.next c := by
  obtain ⟨depth, quote, prev, piece⟩ := state
  cases quote with
  | none =>
    simp only [ends, Bool.and_eq_true, Bool.not_eq_true'] at h
    exact (Quoting.next_code_of_not_isQuote h.1.1.1.2).symm
  | some q => simp [ends] at h

/-- Without backslashes, both let a literal end at the same quote. -/
theorem quoting_push (hprev : state.prev ≠ '\\') (hc : c ≠ '\\') :
    (state.push c).quoting = state.quoting.next c := by
  obtain ⟨depth, quote, prev, piece⟩ := state
  cases quote with
  | none =>
    by_cases hquote : Quoting.isQuote c = true
    · simp only [push, quoting, hquote, if_true, Quoting.next]
    · simp only [push, quoting, hquote, Quoting.next]
      rfl
  | some q =>
    by_cases heq : c = q
    · subst heq
      simp [push, quoting, Quoting.next, hprev, hc]
    · simp [push, quoting, Quoting.next, heq, hc]

end SplitState

/-- Behind a text without backslashes the cutter has cut off some pieces, and has that quote open
which the text leaves open. -/
theorem exists_outerPieces_append {state : SplitState} (hprev : state.prev ≠ '\\')
    (ha : '\\' ∉ a) (sep : Char) : ∃ front state', state'.quoting = state.quoting.after a ∧
      ∀ t, outerPieces sep state (a ++ t) = front ++ outerPieces sep state' t := by
  induction a generalizing state with
  | nil => exact ⟨[], state, rfl, fun t => rfl⟩
  | cons c a ih =>
    rw [List.mem_cons, not_or] at ha
    have hc : c ≠ '\\' := Ne.symm ha.1
    by_cases hends : state.ends sep c = true
    · have hlast : (state.cut c).prev ≠ '\\' := hc
      obtain ⟨front, state', hquoting, hfront⟩ := ih hlast ha.2
      refine ⟨state.piece.reverse :: front, state', ?_, fun t => ?_⟩
      · rw [hquoting, SplitState.quoting_cut hends]
        rfl
      · rw [List.cons_append, outerPieces, if_pos hends, hfront, List.cons_append]
    · have hlast : (state.push c).prev ≠ '\\' := by
        rwa [SplitState.prev_push]
      obtain ⟨front, state', hquoting, hfront⟩ := ih hlast ha.2
      refine ⟨front, state', ?_, fun t => ?_⟩
      · rw [hquoting, SplitState.quoting_push hprev hc]
        rfl
      · rw [List.cons_append, outerPieces, if_neg hends, hfront]

/-- What was read of a piece stands in front of the first piece, and has no other effect. -/
theorem exists_outerPieces_cons (sep : Char) (state : SplitState) (t : List Char) :
    ∃ r back, ∀ p, outerPieces sep { state with piece := p } t = (p.reverse ++ r) :: back := by
  induction t generalizing state with
  | nil => exact ⟨[], [], fun p => by rw [outerPieces, List.append_nil]⟩
  | cons c t ih =>
    by_cases hends : state.ends sep c = true
    · refine ⟨[], outerPieces sep (state.cut c) t, fun p => ?_⟩
      have hcut : SplitState.ends sep { state with piece := p } c = true := hends
      rw [outerPieces, if_pos hcut, List.append_nil]
      rfl
    · obtain ⟨r, back, hmore⟩ := ih (state.push c)
      refine ⟨c :: r, back, fun p => ?_⟩
      have hgoes : ¬ SplitState.ends sep { state with piece := p } c = true := hends
      rw [outerPieces, if_neg hgoes, SplitState.push_piece, hmore, List.reverse_cons,
        List.append_assoc]
      rfl

/-- A literal is read into the piece that it stands in. -/
theorem exists_outerPieces_literal (hq : Quoting.isQuote q = true) (sep : Char) (depth : Int)
    (prev : Char) (p b : List Char) : ∃ r back, ∀ s, IsRawText q s →
      outerPieces sep ⟨depth, none, prev, p⟩ (q :: (s ++ q :: b)) =
        (p.reverse ++ q :: (s ++ q :: r)) :: back := by
  obtain ⟨r, back, hback⟩ := exists_outerPieces_cons sep ⟨depth, none, q, []⟩ b
  refine ⟨r, back, fun s hs => ?_⟩
  have hshut : ReadsAt sep depth (q :: (s ++ [q])) := hs.shutText.readsAt hq
  have hread := hshut prev p b
  -- behind the literal its closing quote is the character in front
  have hlast : (q :: (s ++ [q])).getLast?.getD prev = q := by
    rw [← List.cons_append, List.getLast?_concat, Option.getD_some]
  rw [hlast, hback, List.cons_append, List.append_assoc, List.singleton_append] at hread
  rw [hread]
  simp

theorem trim_around_literal (hq : Quoting.isQuote q = true) (l s r : List Char) :
    Text.trim (l ++ q :: (s ++ q :: r)) =
      Text.trimStart l ++ q :: (s ++ q :: Text.trimEnd r) := by
  have hblank := not_isBlankChar_of_isQuote hq
  have hsplit : Text.trimStart l ++ q :: (s ++ q :: r) =
      (Text.trimStart l ++ q :: s) ++ q :: r := by simp
  rw [Text.trim, Text.trimStart_append_cons hblank, hsplit, Text.trimEnd_append_cons hblank]
  simp

/-- The pieces of a text with a literal do not depend on what the literal holds, but for the piece
that the literal stands in, which holds it. -/
theorem splitOuter_literal (ha : '\\' ∉ a) (hcode : Quoting.code.after a = .code)
    (hq : Quoting.isQuote q = true) (sep : Char) (b : List Char) :
    ∃ front l r back, ∀ s, IsRawText q s →
      splitOuter sep (a ++ q :: (s ++ q :: b)) = front ++ (l ++ q :: (s ++ q :: r)) :: back := by
  have hfirst : SplitState.start.prev ≠ '\\' := by decide
  have hstart : SplitState.start.quoting = .code := rfl
  obtain ⟨front, ⟨depth, quote, prev, p⟩, hquoting, hfront⟩ :=
    exists_outerPieces_append hfirst ha sep
  rw [hstart, hcode] at hquoting
  cases quote with
  | some q => cases hquoting
  | none =>
    obtain ⟨r, back, hback⟩ := exists_outerPieces_literal hq sep depth prev p b
    refine ⟨(front.map Text.trim).filter (!·.isEmpty), Text.trimStart p.reverse, Text.trimEnd r,
      (back.map Text.trim).filter (!·.isEmpty), fun s hs => ?_⟩
    -- the piece with the literal is not empty, so it is kept
    rw [splitOuter, hfront, hback s hs, List.map_append, List.filter_append, List.map_cons,
      trim_around_literal hq, List.filter_cons_of_pos (by simp)]

/-! ## All scanners -/

/-- Two texts that differ in what a literal holds, but not in how many bytes that has, are scanned
alike. Their curly brackets and their balance of round brackets are the same, they are first cut at
the same offset, a group that begins in front of the literal is cut out at the same offsets, and
they have the same pieces, but that the piece with the literal has the one text or the other. -/
theorem literal_unseen (ha : '\\' ∉ a) (hcode : Quoting.code.after a = .code)
    (hq : Quoting.isQuote q = true) (hs : IsRawText q s) (hs' : IsRawText q s')
    (hlength : Text.byteLength s = Text.byteLength s') (b : List Char) :
    let t := a ++ q :: (s ++ q :: b)
    let t' := a ++ q :: (s' ++ q :: b)
    braceCount t = braceCount t' ∧ parenBalance t = parenBalance t' ∧
      (∀ sep, outerOffset? sep t = outerOffset? sep t' ∧
        (cutOuter? sep t).map (fun cut => Text.byteLength cut.1) =
          (cutOuter? sep t').map fun cut => Text.byteLength cut.1) ∧
      (∀ p u, a = p ++ '(' :: u → Quoting.code.after p = .code →
        groupCuts? (Text.byteLength p) t = groupCuts? (Text.byteLength p) t') ∧
      ∀ sep, ∃ front l r back,
        splitOuter sep t = front ++ (l ++ q :: (s ++ q :: r)) :: back ∧
          splitOuter sep t' = front ++ (l ++ q :: (s' ++ q :: r)) :: back := by
  intro t t'
  have hraw := hs.literalText
  have hraw' := hs'.literalText
  refine ⟨braceCount_literal_congr hcode hq hraw hraw' b,
    parenBalance_literal_congr hcode hq hraw hraw' b, fun sep => ⟨?_, ?_⟩, ?_, fun sep => ?_⟩
  · exact outerOffset?_literal_congr hcode hq hraw hraw' hlength sep b
  · exact cutOuter?_literal_congr hcode hq hraw hraw' hlength sep b
  · rintro p u rfl hp
    exact groupCuts?_literal_congr hp hcode hq hraw hraw' hlength b
  · obtain ⟨front, l, r, back, hpieces⟩ := splitOuter_literal ha hcode hq sep b
    exact ⟨front, l, r, back, hpieces s hs, hpieces s' hs'⟩

/-- A literal with brackets and a comma in it, and one with a character of two bytes instead. -/
theorem literal_unseen_brackets :
    let a := "f(a, ".toList
    let t := "f(a, ')\x7d,', b) = \x7b".toList
    let t' := "f(a, 'é;', b) = \x7b".toList
    ('\\' ∉ a ∧ Quoting.code.after a = .code ∧ IsRawText '\'' ")\x7d,".toList ∧
      IsRawText '\'' "é;".toList ∧ Text.byteLength ")\x7d,".toList = Text.byteLength "é;".toList) ∧
    braceCount t = braceCount t' ∧ parenBalance t = parenBalance t' ∧
      outerOffset? '=' t = outerOffset? '=' t' ∧ groupCuts? 1 t = groupCuts? 1 t' ∧
      (splitOuter ',' t).length = (splitOuter ',' t').length := by
  have ha : '\\' ∉ "f(a, ".toList := by decide
  have hcode : Quoting.code.after "f(a, ".toList = .code := by decide
  have hs : IsRawText '\'' ")\x7d,".toList := ⟨by decide, by decide⟩
  have hs' : IsRawText '\'' "é;".toList := ⟨by decide, by decide⟩
  have hlength : Text.byteLength ")\x7d,".toList = Text.byteLength "é;".toList := by decide
  obtain ⟨hcount, hbalance, hcut, hgroup, hpieces⟩ :=
    literal_unseen ha hcode (q := '\'') rfl hs hs' hlength ", b) = \x7b".toList
  obtain ⟨front, l, r, back, hfirst, hsecond⟩ := hpieces ','
  refine ⟨⟨ha, hcode, hs, hs', hlength⟩, hcount, hbalance, (hcut '=').1,
    hgroup "f".toList "a, ".toList rfl (by decide), ?_⟩
  have hsame : (front ++ (l ++ '\'' :: (")\x7d,".toList ++ '\'' :: r)) :: back).length =
      (front ++ (l ++ '\'' :: ("é;".toList ++ '\'' :: r)) :: back).length := by
    simp only [List.length_append, List.length_cons]
  exact (congrArg List.length hfirst).trans (hsame.trans (congrArg List.length hsecond).symm)

end CodeAtlas
