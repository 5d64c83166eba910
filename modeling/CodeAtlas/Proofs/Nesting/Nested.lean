/-
Nested texts.

A piece of a list is built from plain characters, from groups between two brackets of a kind and
from literals between two quotes, in which a backslash takes the next character with it (`Nested`).
The cutter counts brackets, and it knows of a literal only the last character: it lets a literal
end at a quote with no backslash in front. So it agrees with the literals that do not end in a
backslash (`Nested.readsAt`). A literal that ends in an escaped backslash stays open for it. Behind
the first one of a list nothing is cut, up to the next quote of its kind, and a list in which
there is none is cut into its pieces (`splitOuter_nested`).
-/
import CodeAtlas.Proofs.Nesting.Cutting
import CodeAtlas.Text.Word
import Mathlib.Data.Bool.AllAny

set_option autoImplicit false

namespace CodeAtlas

/-! ## Texts -/

/-- The kinds of brackets. -/
inductive Bracket where
  | round
  | square
  | curly
  | angle
  deriving DecidableEq, Repr

namespace Bracket

def opens : Bracket → Char
  | round => '('
  | square => '['
  | curly => '\x7b'
  | angle => '<'

def closes : Bracket → Char
  | round => ')'
  | square => ']'
  | curly => '\x7d'
  | angle => '>'

end Bracket

/-- All kinds of brackets. -/
def brackets : List Bracket := [.round, .square, .curly, .angle]

/-- A character that is no bracket and no quote. -/
def IsPlain (c : Char) : Prop :=
  Quoting.isQuote c = false ∧ ∀ b ∈ brackets, c ≠ b.opens ∧ c ≠ b.closes

instance (c : Char) : Decidable (IsPlain c) :=
  inferInstanceAs (Decidable (_ ∧ ∀ b ∈ brackets, _))

/-- What stands between two quotes `q`: any characters, where a quote or a backslash has a
backslash in front of it. -/
inductive LiteralText (q : Char) : List Char → Prop where
  | nil : LiteralText q []
  | plain {c : Char} {t : List Char} : c ≠ q → c ≠ '\\' → LiteralText q t → LiteralText q (c :: t)
  | escaped (c : Char) {t : List Char} : LiteralText q t → LiteralText q ('\\' :: c :: t)

/-- Each quote in the text has a backslash in front of it. -/
def QuotesEscaped (q : Char) (s : List Char) : Prop :=
  ∀ u v, s = u ++ q :: v → u.getLast? = some '\\'

/-- What the cutter takes for the text of a literal: it ends at the first quote that has no
backslash in front. -/
def ShutText (q : Char) (s : List Char) : Prop := QuotesEscaped q s ∧ s.getLast? ≠ some '\\'

/-- Texts built from plain characters, arrows, groups and the literals `L`. The separator, if
there is one, does not stand outside groups and literals. The angle of an arrow closes no group,
so that a group in angle brackets does not end in an equals sign. -/
inductive Nested (L : Char → List Char → Prop) : Option Char → List Char → Prop where
  | nil {o : Option Char} : Nested L o []
  | plain {o : Option Char} {c : Char} {t : List Char} : IsPlain c → o ≠ some c → Nested L o t →
      Nested L o (c :: t)
  | arrow {o : Option Char} {t : List Char} : o ≠ some '=' → Nested L o t →
      Nested L o ('=' :: '>' :: t)
  | group {o : Option Char} {s t : List Char} (b : Bracket) : Nested L none s →
      (b = .angle → s.getLast? ≠ some '=') → Nested L o t →
      Nested L o (b.opens :: (s ++ b.closes :: t))
  | literal {o : Option Char} {q : Char} {s t : List Char} : Quoting.isQuote q = true → L q s →
      Nested L o t → Nested L o (q :: (s ++ q :: t))

/-- What can stand in front of a literal in a nested text: some groups may be open. -/
inductive Begun (L : Char → List Char → Prop) : Option Char → List Char → Prop where
  | outside {o : Option Char} {t : List Char} : Nested L o t → Begun L o t
  | inside {o : Option Char} {s t : List Char} (b : Bracket) : Nested L o s → Begun L none t →
      Begun L o (s ++ b.opens :: t)

/-- The first literal of the text that ends in an escaped backslash stands in the quotes `q`, and
`back` is what follows it. -/
def LeavesOpen (o : Option Char) (t : List Char) (q : Char) (back : List Char) : Prop :=
  ∃ front s, t = front ++ q :: (s ++ q :: back) ∧ Begun ShutText o front ∧
    Quoting.isQuote q = true ∧ LiteralText q s ∧ s.getLast? = some '\\'

/-- A text that may stand between two separators, with blanks around it. -/
structure IsEntry (sep : Char) (t : List Char) : Prop where
  filled : Text.trim t ≠ []
  nested : Nested LiteralText (some sep) (Text.trim t)

/-- The characters that lists of pieces are separated by. -/
def listSeparators : List Char := [',', ';', '|']

/-! ## Building texts -/

section

variable {L : Char → List Char → Prop} {o : Option Char} {s t u : List Char}

theorem Nested.append (ht : Nested L o t) (hu : Nested L o u) : Nested L o (t ++ u) := by
  induction ht with
  | nil => exact hu
  | plain hc ho _ ih => exact .plain hc ho (ih hu)
  | arrow ho _ ih => exact .arrow ho (ih hu)
  | @group o s t b hs hangle _ _ ih =>
    rw [List.cons_append, List.append_assoc, List.cons_append]
    exact .group b hs hangle (ih hu)
  | @literal o q s t hq hs _ ih =>
    rw [List.cons_append, List.append_assoc, List.cons_append]
    exact .literal hq hs (ih hu)

theorem nested_of_plain (h : ∀ c ∈ t, IsPlain c ∧ o ≠ some c) : Nested L o t := by
  induction t with
  | nil => exact .nil
  | cons c t ih =>
    obtain ⟨⟨hc, ho⟩, hmore⟩ := List.forall_mem_cons.mp h
    exact .plain hc ho (ih hmore)

theorem Begun.prepend (hs : Nested L o s) (ht : Begun L o t) : Begun L o (s ++ t) := by
  cases ht with
  | outside ht => exact .outside (hs.append ht)
  | @inside _ u t b hu ht =>
    rw [← List.append_assoc]
    exact .inside b (hs.append hu) ht

end

/-! ## Reading -/

section

variable {sep q prev : Char} {o : Option Char} {s t u a back : List Char} {depth : Int}

theorem bracketValue_opens (prev : Char) (b : Bracket) : bracketValue prev b.opens = 1 := by
  cases b <;> rfl

theorem bracketValue_closes (b : Bracket) (h : b = .angle → prev ≠ '=') :
    bracketValue prev b.closes = -1 := by
  cases b with
  | angle => simp [bracketValue, Bracket.closes, h rfl]
  | _ => rfl

theorem isQuote_opens (b : Bracket) : Quoting.isQuote b.opens = false := by cases b <;> rfl

theorem isQuote_closes (b : Bracket) : Quoting.isQuote b.closes = false := by cases b <;> rfl

theorem bracketValue_plain {c : Char} (h : IsPlain c) (prev : Char) : bracketValue prev c = 0 := by
  have hround : c ≠ '(' ∧ c ≠ ')' := h.2 .round (by decide)
  have hsquare : c ≠ '[' ∧ c ≠ ']' := h.2 .square (by decide)
  have hcurly : c ≠ '\x7b' ∧ c ≠ '\x7d' := h.2 .curly (by decide)
  have hangle : c ≠ '<' ∧ c ≠ '>' := h.2 .angle (by decide)
  simp only [bracketValue, hround, hsquare, hcurly, hangle, decide_false, Bool.or_self,
    Bool.false_and, Bool.false_eq_true, if_false]

theorem ne_of_isQuote {c : Char} (hq : Quoting.isQuote q = true)
    (hc : Quoting.isQuote c = false) : q ≠ c := by
  rintro rfl
  rw [hq] at hc
  cases hc

theorem ne_backslash_of_isQuote (hq : Quoting.isQuote q = true) : q ≠ '\\' := ne_of_isQuote hq rfl

/-- What holds behind a literal holds in front of its text too, if every character that stands
outside code carries it back. -/
theorem LiteralText.carried {P : Quoting → List Char → Prop} (hs : LiteralText q s)
    (hq : Quoting.isQuote q = true)
    (hback : ∀ {st : Quoting} {c : Char} {t : List Char}, st ≠ .code → P (st.next c) t →
      P st (c :: t))
    (hrest : P .code back) : P (.literal q) (s ++ q :: back) := by
  have hliteral : Quoting.literal q ≠ .code := Quoting.noConfusion
  induction hs with
  | nil =>
    have hends : (Quoting.literal q).next q = .code := by
      rw [Quoting.next, if_neg (ne_backslash_of_isQuote hq), if_pos rfl]
    exact hback hliteral (hends ▸ hrest)
  | @plain c t hne hplain _ ih =>
    have hstays : (Quoting.literal q).next c = .literal q := by
      rw [Quoting.next, if_neg hplain, if_neg hne]
    refine hback hliteral ?_
    rw [hstays]
    exact ih
  | @escaped c t _ ih =>
    -- behind a backslash, any character leads back into the literal
    have hescape : P (.escape q) (c :: (t ++ q :: back)) := hback Quoting.noConfusion ih
    exact hback hliteral hescape

/-- The text is read at the depth as a whole, and leads back to it. -/
def ReadsAt (sep : Char) (depth : Int) (t : List Char) : Prop :=
  ∀ prev p, ReadsTo sep ⟨depth, none, prev, p⟩ t
    ⟨depth, none, t.getLast?.getD prev, t.reverse ++ p⟩

theorem ReadsAt.fills (h : ReadsAt sep 0 t) : Fills sep t := fun prev p => ⟨_, h prev p⟩

theorem ReadsAt.append (ht : ReadsAt sep depth t) (hu : ReadsAt sep depth u) :
    ReadsAt sep depth (t ++ u) := by
  intro prev p
  have hlast : (t ++ u).getLast?.getD prev = u.getLast?.getD (t.getLast?.getD prev) := by
    rw [List.getLast?_append]
    cases u.getLast? <;> rfl
  rw [hlast, List.reverse_append, List.append_assoc]
  exact (ht prev p).append (hu _ _)

theorem readsAt_code {c : Char} (hquote : Quoting.isQuote c = false)
    (hvalue : ∀ prev, bracketValue prev c = 0) (hsep : c = sep → 0 < depth) :
    ReadsAt sep depth [c] := by
  intro prev p
  exact readsTo_code hquote (by rw [hvalue, Int.add_zero]) hsep

theorem readsTo_opens (hsep : IsSeparator sep) (b : Bracket) (p : List Char) :
    ReadsTo sep ⟨depth, none, prev, p⟩ [b.opens] ⟨depth + 1, none, b.opens, b.opens :: p⟩ := by
  refine readsTo_code (isQuote_opens b) (by rw [bracketValue_opens]) fun heq => ?_
  have hvalue := bracketValue_opens ' ' b
  rw [heq, hsep.noBracket] at hvalue
  cases hvalue

/-- A group is read as a whole if what it holds is, one level below. -/
theorem readsAt_group (hsep : IsSeparator sep) (b : Bracket) (hs : ReadsAt sep (depth + 1) s)
    (hangle : b = .angle → s.getLast? ≠ some '=') :
    ReadsAt sep depth (b.opens :: (s ++ [b.closes])) := by
  intro prev p
  -- behind an equals sign an angle bracket would be the end of an arrow
  have hlast : b = .angle → s.getLast?.getD b.opens ≠ '=' := by
    rintro rfl
    cases hs : s.getLast? with
    | none => decide
    | some c =>
      rintro rfl
      exact hangle rfl hs
  have hcloses : ReadsTo sep ⟨depth + 1, none, s.getLast?.getD b.opens, s.reverse ++ b.opens :: p⟩
      [b.closes] ⟨depth, none, b.closes, b.closes :: (s.reverse ++ b.opens :: p)⟩ := by
    refine readsTo_code (isQuote_closes b) ?_ fun heq => ?_
    · rw [bracketValue_closes b hlast, Int.add_neg_cancel_right]
    · have hvalue : bracketValue ' ' b.closes = -1 := bracketValue_closes b fun _ => by decide
      rw [heq, hsep.noBracket] at hvalue
      cases hvalue
  have hend : (b.opens :: (s ++ [b.closes])).getLast?.getD prev = b.closes := by
    rw [← List.cons_append, List.getLast?_concat, Option.getD_some]
  have hpiece : (b.opens :: (s ++ [b.closes])).reverse ++ p =
      b.closes :: (s.reverse ++ b.opens :: p) := by simp
  rw [hend, hpiece]
  exact (readsTo_opens hsep b p).cons ((hs b.opens (b.opens :: p)).append hcloses)

/-- In the text of a literal, each quote has a backslash in front of it. -/
theorem LiteralText.quotesEscaped (h : LiteralText q s) (hq : Quoting.isQuote q = true) :
    QuotesEscaped q s := by
  have hlast : ∀ {u : List Char} (c : Char), u.getLast? = some '\\' →
      (c :: u).getLast? = some '\\' := by
    intro u c hu
    rw [List.getLast?_cons, hu, Option.getD_some]
  induction h with
  | nil =>
    intro u v heq
    simp at heq
  | @plain c t hne _ _ ih =>
    intro u v heq
    cases u with
    | nil => exact absurd (List.cons.inj heq).1 hne
    | cons d u => exact hlast d (ih u v (List.cons.inj heq).2)
  | @escaped c t _ ih =>
    intro u v heq
    rcases u with _ | ⟨d, _ | ⟨e, u⟩⟩
    · exact absurd (List.cons.inj heq).1.symm (ne_backslash_of_isQuote hq)
    · rw [← (List.cons.inj heq).1]
      rfl
    · exact hlast d (hlast e (ih u v (List.cons.inj (List.cons.inj heq).2).2))

/-- A literal does not end at quotes with a backslash in front. -/
theorem readsTo_escaped (h : ∀ u v, s = u ++ q :: v → u.getLast?.getD prev = '\\') (p : List Char) :
    ReadsTo sep ⟨depth, some q, prev, p⟩ s
      ⟨depth, some q, s.getLast?.getD prev, s.reverse ++ p⟩ := by
  induction s generalizing prev p with
  | nil => exact readsTo_nil _
  | cons c t ih =>
    have hfirst : c = q → prev = '\\' := by
      rintro rfl
      exact h [] t rfl
    have hmore : ∀ u v, t = u ++ q :: v → u.getLast?.getD c = '\\' := by
      rintro u v rfl
      have hlast := h (c :: u) v rfl
      rwa [List.getLast?_cons, Option.getD_some] at hlast
    rw [List.getLast?_cons, Option.getD_some, List.reverse_cons, List.append_assoc,
      List.singleton_append]
    exact (readsTo_inside hfirst).cons (ih hmore (c :: p))

theorem QuotesEscaped.readsTo (h : QuotesEscaped q s) (p : List Char) :
    ReadsTo sep ⟨depth, some q, q, p⟩ s ⟨depth, some q, s.getLast?.getD q, s.reverse ++ p⟩ := by
  refine readsTo_escaped (fun u v heq => ?_) p
  rw [h u v heq, Option.getD_some]

/-- Such a text is read as that of a literal. -/
theorem ShutText.readsAt (h : ShutText q s) (hq : Quoting.isQuote q = true) :
    ReadsAt sep depth (q :: (s ++ [q])) := by
  intro prev p
  have hlast : s.getLast?.getD q ≠ '\\' := by
    cases hs : s.getLast? with
    | none => exact ne_backslash_of_isQuote hq
    | some c =>
      rintro rfl
      exact h.2 hs
  have hend : (q :: (s ++ [q])).getLast?.getD prev = q := by
    rw [← List.cons_append, List.getLast?_concat, Option.getD_some]
  have hpiece : (q :: (s ++ [q])).reverse ++ p = q :: (s.reverse ++ q :: p) := by simp
  rw [hend, hpiece]
  exact (readsTo_quote hq).cons ((h.1.readsTo (q :: p)).append (readsTo_close hlast))

/-- A nested text is read as a whole inside groups and, if no separator stands outside of its
own groups, at the outer level. -/
theorem Nested.readsAt (hsep : IsSeparator sep) (h : Nested ShutText o t) (hdepth : 0 ≤ depth)
    (ho : depth = 0 → o = some sep) : ReadsAt sep depth t := by
  -- the separator may stand in a group: there the depth is not zero, and nothing is cut
  induction h generalizing depth with
  | nil => exact fun prev p => readsTo_nil _
  | @plain o c t hc hne _ ih =>
    refine (readsAt_code hc.1 (bracketValue_plain hc) ?_).append (ih hdepth ho)
    rintro rfl
    have hinside : depth ≠ 0 := fun hzero => hne (ho hzero)
    omega
  | @arrow o t hne _ ih =>
    have harrow : ReadsAt sep depth ['=', '>'] := by
      have hequals : '=' = sep → 0 < depth := by
        rintro rfl
        have hinside : depth ≠ 0 := fun hzero => hne (ho hzero)
        omega
      have hangle : '>' ≠ sep := by
        rintro rfl
        have hvalue := hsep.noBracket ' '
        cases hvalue
      intro prev p
      have hread : ReadsTo sep ⟨depth, none, '=', '=' :: p⟩ ['>']
          ⟨depth, none, '>', '>' :: '=' :: p⟩ :=
        readsTo_code rfl (Int.add_zero depth) fun heq => absurd heq hangle
      exact (readsAt_code rfl (fun _ => rfl) hequals prev p).cons hread
    exact harrow.append (ih hdepth ho)
  | @group o s t b _ hangle _ ihs iht =>
    have hinside : ReadsAt sep (depth + 1) s :=
      ihs (by omega) fun hzero => absurd hzero (by omega)
    have hgroup := (readsAt_group hsep b hinside hangle).append (iht hdepth ho)
    rwa [List.cons_append, List.append_assoc, List.singleton_append] at hgroup
  | @literal o q s t hq hs _ ih =>
    have hshut : ReadsAt sep depth (q :: (s ++ [q])) := hs.readsAt hq
    have hliteral := hshut.append (ih hdepth ho)
    rwa [List.cons_append, List.append_assoc, List.singleton_append] at hliteral

/-- What stands in front of a literal leads to some depth. -/
theorem Begun.exists_readsTo (hsep : IsSeparator sep) (h : Begun ShutText o a) (hdepth : 0 ≤ depth)
    (ho : depth = 0 → o = some sep) (prev : Char) (p : List Char) :
    ∃ depth' last, ReadsTo sep ⟨depth, none, prev, p⟩ a ⟨depth', none, last, a.reverse ++ p⟩ := by
  induction h generalizing depth prev p with
  | outside h => exact ⟨_, _, h.readsAt hsep hdepth ho prev p⟩
  | @inside o s t b hs _ ih =>
    have hread := hs.readsAt hsep hdepth ho prev p
    have hinside : 0 ≤ depth + 1 := by omega
    obtain ⟨depth', last, hmore⟩ := ih hinside (fun hzero => absurd hzero (by omega)) b.opens
      (b.opens :: (s.reverse ++ p))
    refine ⟨depth', last, ?_⟩
    have hpiece : (s ++ b.opens :: t).reverse ++ p = t.reverse ++ b.opens :: (s.reverse ++ p) := by
      simp
    rw [hpiece]
    exact hread.append ((readsTo_opens hsep b _).cons hmore)

/-- Behind a literal that ends in an escaped backslash nothing is cut, up to the next quote. -/
theorem LeavesOpen.uncut (hsep : IsSeparator sep) (h : LeavesOpen (some sep) t q back)
    (hback : q ∉ back) : Uncut sep t := by
  obtain ⟨front, s, rfl, hfront, hq, hs, hlast⟩ := h
  refine uncut_of_readsTo fun prev p => ?_
  obtain ⟨depth, last, hread⟩ := hfront.exists_readsTo hsep (Int.le_refl 0) (fun _ => rfl) prev p
  have htext : ReadsTo sep ⟨depth, some q, q, q :: (front.reverse ++ p)⟩ s
      ⟨depth, some q, s.getLast?.getD q, s.reverse ++ q :: (front.reverse ++ p)⟩ :=
    (hs.quotesEscaped hq).readsTo _
  -- the quote that should end the literal has a backslash in front of it
  have hquote : ReadsTo sep
      ⟨depth, some q, s.getLast?.getD q, s.reverse ++ q :: (front.reverse ++ p)⟩ [q]
      ⟨depth, some q, q, q :: (s.reverse ++ q :: (front.reverse ++ p))⟩ := by
    refine readsTo_inside fun _ => ?_
    rw [hlast, Option.getD_some]
  obtain ⟨last', hmore⟩ : ∃ last', ReadsTo sep
      ⟨depth, some q, q, q :: (s.reverse ++ q :: (front.reverse ++ p))⟩ back
      ⟨depth, some q, last', back.reverse ++ q :: (s.reverse ++ q :: (front.reverse ++ p))⟩ :=
    readsTo_open hback q _
  exact ⟨_, hread.append ((readsTo_quote hq).cons (htext.append (hquote.cons hmore))), by simp⟩

end

/-! ## Literals that stay open -/

section

variable {L : Char → List Char → Prop} {o : Option Char} {q : Char} {s t x back : List Char}

theorem LeavesOpen.prepend (hs : Nested ShutText o s) (h : LeavesOpen o t q back) :
    LeavesOpen o (s ++ t) q back := by
  obtain ⟨front, text, rfl, hfront, hliteral⟩ := h
  exact ⟨s ++ front, text, by rw [List.append_assoc], hfront.prepend hs, hliteral⟩

theorem LeavesOpen.append (h : LeavesOpen o t q back) (x : List Char) :
    LeavesOpen o (t ++ x) q (back ++ x) := by
  obtain ⟨front, text, rfl, hliteral⟩ := h
  exact ⟨front, text, by simp, hliteral⟩

/-- The group around such a literal is open where the literal begins. -/
theorem LeavesOpen.inside (b : Bracket) (h : LeavesOpen none s q back) (x : List Char) :
    LeavesOpen o (b.opens :: (s ++ x)) q (back ++ x) := by
  obtain ⟨front, text, rfl, hfront, hliteral⟩ := h
  exact ⟨b.opens :: front, text, by simp, .inside b .nil hfront, hliteral⟩

/-- A nested text has such a literal, or all its literals are shut. -/
theorem Nested.shut_or_leavesOpen (h : Nested LiteralText o t) :
    Nested ShutText o t ∨ ∃ q back, LeavesOpen o t q back := by
  induction h with
  | nil => exact .inl .nil
  | @plain o c t hc hne _ ih =>
    rcases ih with hshut | ⟨q, back, hopen⟩
    · exact .inl (.plain hc hne hshut)
    · exact .inr ⟨q, back, hopen.prepend (.plain hc hne .nil)⟩
  | @arrow o t hne _ ih =>
    rcases ih with hshut | ⟨q, back, hopen⟩
    · exact .inl (.arrow hne hshut)
    · exact .inr ⟨q, back, hopen.prepend (.arrow hne .nil)⟩
  | @group o s t b _ hangle _ ihs iht =>
    rcases ihs with hs | ⟨q, back, hopen⟩
    · rcases iht with hshut | ⟨q, back, hopen⟩
      · exact .inl (.group b hs hangle hshut)
      · have hgroup := hopen.prepend (.group b hs hangle .nil)
        rw [List.cons_append, List.append_assoc, List.singleton_append] at hgroup
        exact .inr ⟨q, back, hgroup⟩
    · exact .inr ⟨q, _, hopen.inside b _⟩
  | @literal o q s t hq hs _ ih =>
    -- a backslash in front of the closing quote takes it away
    by_cases hlast : s.getLast? = some '\\'
    · exact .inr ⟨q, t, [], s, rfl, .outside .nil, hq, hs, hlast⟩
    · rcases ih with hshut | ⟨q', back, hopen⟩
      · exact .inl (.literal hq ⟨hs.quotesEscaped hq, hlast⟩ hshut)
      · have hliteral := hopen.prepend (.literal hq ⟨hs.quotesEscaped hq, hlast⟩ .nil)
        rw [List.cons_append, List.append_assoc, List.singleton_append] at hliteral
        exact .inr ⟨q', back, hliteral⟩

/-- Without backslashes, all literals are shut. -/
theorem Nested.shut (h : Nested LiteralText o t) (hback : '\\' ∉ t) : Nested ShutText o t := by
  rcases h.shut_or_leavesOpen with hshut | ⟨q, back, front, s, rfl, -, -, -, hlast⟩
  · exact hshut
  · have hmem := List.mem_of_getLast? hlast
    simp [hmem] at hback

end

/-! ## Lists -/

section

variable {sep q : Char} {t back : List Char} {ts front more : List (List Char)}

theorem isSeparator_of_mem (h : sep ∈ listSeparators) : IsSeparator sep := by
  simp only [listSeparators, List.mem_cons, List.not_mem_nil, or_false] at h
  rcases h with rfl | rfl | rfl <;> exact ⟨rfl, fun _ => rfl, rfl⟩

theorem isPlain_of_isNameChar {c : Char} (hc : Text.isNameChar c = true) : IsPlain c := by
  have hne : ∀ d, Text.isNameChar d = false → c ≠ d := by
    rintro d hd rfl
    rw [hc] at hd
    cases hd
  refine ⟨?_, fun b _ => ⟨hne _ (by cases b <;> decide), hne _ (by cases b <;> decide)⟩⟩
  simp only [Quoting.isQuote, hne '"' (by decide), hne '\'' (by decide), hne '\x60' (by decide),
    decide_false, Bool.or_self]

theorem isPlain_of_isBlankChar {c : Char} (h : Text.isBlankChar c = true) : IsPlain c := by
  refine ⟨(neutral_of_isBlankChar h).1, fun b _ => ⟨?_, ?_⟩⟩
  · rintro rfl
    cases b <;> cases h
  · rintro rfl
    cases b <;> cases h

theorem nested_of_isBlank {g : List Char} (hsep : Text.isBlankChar sep = false)
    (hg : Text.isBlank g = true) : Nested ShutText (some sep) g := by
  refine nested_of_plain fun c hc => ?_
  have hblank := Text.isBlankChar_of_mem hg hc
  refine ⟨isPlain_of_isBlankChar hblank, ?_⟩
  rintro ⟨⟩
  rw [hsep] at hblank
  cases hblank

theorem fills_of_shut (hsep : IsSeparator sep) (h : Nested ShutText (some sep) (Text.trim t)) :
    Fills sep t :=
  (h.readsAt hsep (Int.le_refl 0) fun _ => rfl).fills.of_trim hsep.noBlank

theorem intercalate_append_cons (front : List (List Char)) (t : List Char)
    (more : List (List Char)) : [sep].intercalate (front ++ t :: more) =
      [sep].intercalate (front ++ [[sep].intercalate (t :: more)]) := by
  induction front with
  | nil => rw [List.nil_append, List.nil_append, List.intercalate_singleton]
  | cons u front ih =>
    rw [List.cons_append, List.cons_append, List.intercalate_cons_of_ne_nil (by simp),
      List.intercalate_cons_of_ne_nil (by simp), ih]

/-- What follows the first text of a list has no other characters than the other texts. -/
theorem exists_intercalate_cons (hq : q ≠ sep) (t : List Char) (hmore : ∀ u ∈ more, q ∉ u) :
    ∃ x, [sep].intercalate (t :: more) = t ++ x ∧ q ∉ x := by
  induction more generalizing t with
  | nil => exact ⟨[], by simp, by simp⟩
  | cons u more ih =>
    obtain ⟨hu, hmore⟩ := List.forall_mem_cons.mp hmore
    obtain ⟨x, hx, hnone⟩ := ih u hmore
    refine ⟨sep :: (u ++ x), ?_, ?_⟩
    · rw [List.intercalate_cons_cons, hx, List.append_assoc, List.singleton_append]
    · simp [hq, hu, hnone]

/-- The pieces in front of a literal that stays open are cut off, and the rest is one piece. -/
theorem splitOuter_of_leavesOpen (hsep : IsSeparator sep)
    (hfront : ∀ u ∈ front, Text.trim u ≠ [] ∧ Nested ShutText (some sep) (Text.trim u))
    (ht : LeavesOpen (some sep) (Text.trim t) q back) (hback : q ∉ back)
    (hmore : ∀ u ∈ more, q ∉ u) :
    splitOuter sep ([sep].intercalate (front ++ t :: more)) =
      front.map Text.trim ++ [Text.trim ([sep].intercalate (t :: more))] := by
  obtain ⟨_, _, hsplit, -, hquote, -⟩ := id ht
  have hne : q ≠ sep := ne_of_isQuote hquote hsep.noQuote
  have hblack : Text.isBlankChar q = false := not_isBlankChar_of_isQuote hquote
  obtain ⟨x, hx, hnone⟩ := exists_intercalate_cons hne t hmore
  obtain ⟨g, g', hg, hg', htrim⟩ := Text.exists_trim t
  have hopen : LeavesOpen (some sep) (t ++ x) q (back ++ (g' ++ x)) := by
    have hpadded := (ht.append (g' ++ x)).prepend (nested_of_isBlank hsep.noBlank hg)
    rwa [← List.append_assoc (Text.trim t), ← List.append_assoc g, ← htrim] at hpadded
  -- behind the quote that is missing everything is part of the literal
  have huncut : Uncut sep ([sep].intercalate (t :: more)) := by
    rw [hx]
    refine hopen.uncut hsep ?_
    rw [List.mem_append, List.mem_append, not_or, not_or]
    exact ⟨hback, Text.notMem_of_isBlank hg' hblack, hnone⟩
  have hsome : Text.trim ([sep].intercalate (t :: more)) ≠ [] := by
    refine Text.trim_ne_nil_of_mem (c := q) ?_ hblack
    rw [hx]
    refine List.mem_append_left x (Text.mem_of_mem_trim ?_)
    rw [hsplit]
    simp
  rw [intercalate_append_cons, splitOuter_intercalate hsep
      (fun u hu => fills_of_shut hsep (hfront u hu).2) huncut, List.map_append]
  · rfl
  · intro u hu
    rcases List.mem_append.mp hu with hu | hu
    · exact (hfront u hu).1
    · rw [List.mem_singleton.mp hu]
      exact hsome

/-- A list of which all literals are shut is cut where it was joined. -/
theorem splitOuter_of_shut (hsep : IsSeparator sep)
    (hts : ∀ u ∈ ts, Text.trim u ≠ [] ∧ Nested ShutText (some sep) (Text.trim u)) :
    splitOuter sep ([sep].intercalate ts) = ts.map Text.trim :=
  splitOuter_of_fills hsep fun u hu => ⟨(hts u hu).1, fills_of_shut hsep (hts u hu).2⟩

/-- In a list there is a first entry with a literal that stays open, or there is none. -/
theorem shut_or_exists_leavesOpen (hts : ∀ t ∈ ts, IsEntry sep t) :
    (∀ t ∈ ts, Nested ShutText (some sep) (Text.trim t)) ∨
      ∃ front t more q back, ts = front ++ t :: more ∧
        (∀ u ∈ front, Nested ShutText (some sep) (Text.trim u)) ∧
        LeavesOpen (some sep) (Text.trim t) q back := by
  induction ts with
  | nil => exact .inl (by simp)
  | cons t ts ih =>
    obtain ⟨ht, hmore⟩ := List.forall_mem_cons.mp hts
    rcases ht.nested.shut_or_leavesOpen with hshut | ⟨q, back, hopen⟩
    · rcases ih hmore with hall | ⟨front, u, more, q, back, rfl, hfront, hopen⟩
      · exact .inl (List.forall_mem_cons.mpr ⟨hshut, hall⟩)
      · exact .inr ⟨t :: front, u, more, q, back, rfl, List.forall_mem_cons.mpr ⟨hshut, hfront⟩,
          hopen⟩
    · exact .inr ⟨[], t, ts, q, back, rfl, by simp, hopen⟩

/-- Nested pieces that are joined by a separator, with any blanks around it, are cut where they
were joined if no literal ends in an escaped backslash. If there is such a literal and its quote
does not come again, the pieces in front are cut off and the rest of the list is one piece. -/
theorem splitOuter_nested (hsep : sep ∈ listSeparators) (hts : ∀ t ∈ ts, IsEntry sep t) :
    ((∀ t ∈ ts, Nested ShutText (some sep) (Text.trim t)) →
      splitOuter sep ([sep].intercalate ts) = ts.map Text.trim) ∧
    ((∀ t ∈ ts, Nested ShutText (some sep) (Text.trim t)) ∨
      ∃ front t more q back, ts = front ++ t :: more ∧
        (∀ u ∈ front, Nested ShutText (some sep) (Text.trim u)) ∧
        LeavesOpen (some sep) (Text.trim t) q back ∧
        (q ∉ back → (∀ u ∈ more, q ∉ u) →
          splitOuter sep ([sep].intercalate ts) =
            front.map Text.trim ++ [Text.trim ([sep].intercalate (t :: more))])) := by
  have hseparates := isSeparator_of_mem hsep
  constructor
  · exact fun hshut => splitOuter_of_shut hseparates fun t ht => ⟨(hts t ht).filled, hshut t ht⟩
  · rcases shut_or_exists_leavesOpen hts with hshut | ⟨front, t, more, q, back, rfl, hfront, hopen⟩
    · exact .inl hshut
    · refine .inr ⟨front, t, more, q, back, rfl, hfront, hopen, fun hback hmore => ?_⟩
      refine splitOuter_of_leavesOpen hseparates (fun u hu => ⟨?_, hfront u hu⟩) hopen hback hmore
      exact (hts u (List.mem_append_left _ hu)).filled

end

/-- In a list with a group and a literal, the comma between them is the only one that cuts. -/
theorem splitOuter_nested_groupAndLiteral :
    splitOuter ',' "a<b, c> , \"x\\\",y\"".toList =
      ["a<b, c>".toList, "\"x\\\",y\"".toList] := by
  have hplain : ∀ c ∈ "ab, cxy".toList, IsPlain c := List.all_iff_forall_prop.mp (by decide)
  have hinner : ∀ c ∈ "b, c".toList, IsPlain c ∧ none ≠ some c :=
    List.all_iff_forall_prop.mp (by decide)
  have hgroup : ∀ L, Nested L (some ',') "a<b, c>".toList := fun L =>
    .plain (hplain 'a' (by decide)) (by decide)
      (.group .angle (nested_of_plain (t := "b, c".toList) hinner) (by decide) .nil)
  have hliteral : LiteralText '"' "x\\\",y".toList :=
    .plain (by decide) (by decide)
      (.escaped '"' (.plain (by decide) (by decide) (.plain (by decide) (by decide) .nil)))
  have hentries : ∀ t ∈ ["a<b, c> ".toList, " \"x\\\",y\"".toList], IsEntry ',' t := by
    intro t ht
    rcases List.mem_pair.mp ht with rfl | rfl
    · exact ⟨by decide, hgroup _⟩
    · exact ⟨by decide, .literal rfl hliteral .nil⟩
  have hshut : ∀ t ∈ ["a<b, c> ".toList, " \"x\\\",y\"".toList],
      Nested ShutText (some ',') (Text.trim t) := by
    intro t ht
    rcases List.mem_pair.mp ht with rfl | rfl
    · exact hgroup _
    · have hends : ShutText '"' "x\\\",y".toList := ⟨hliteral.quotesEscaped rfl, by decide⟩
      exact .literal rfl hends .nil
  exact (splitOuter_nested (by decide) hentries).1 hshut

/-- Behind a literal that ends in an escaped backslash, the next piece is not cut off. -/
theorem splitOuter_escapedBackslash :
    (∀ t ∈ ["\"x\\\\\"".toList, "b".toList], IsEntry ',' t) ∧
      splitOuter ',' "\"x\\\\\",b".toList = ["\"x\\\\\",b".toList] := by
  constructor
  · intro t ht
    rcases List.mem_pair.mp ht with rfl | rfl
    · exact ⟨by decide, .literal (s := "x\\\\".toList) rfl
        (.plain (by decide) (by decide) (.escaped '\\' .nil)) .nil⟩
    · exact ⟨by decide, .plain (by decide) (by decide) .nil⟩
  · decide

end CodeAtlas
