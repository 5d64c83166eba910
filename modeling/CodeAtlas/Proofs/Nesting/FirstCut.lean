/-
Texts in front of the first cut.

The reader that looks for the first outer separator passes a text whatever follows it, if the text
leads from the outer level back to it and no separator in it stands for itself (`Passes`). So the
cut is at a separator behind such a text, if that one stands for itself, and a text that is passed
as a whole is not cut. Two kinds of texts are passed: those that close and have equals signs in
arrows only, and nested texts, with groups and literals in them.
-/
import CodeAtlas.Proofs.Nesting.Nested
import CodeAtlas.Proofs.Nesting.Cutting
import CodeAtlas.Proofs.Text.Bytes

set_option autoImplicit false

namespace CodeAtlas

variable {sep c : Char} {prev prev' prev'' : Option Char} {t u l r : List Char} {depth : Int}

/-- At the outer level and behind the character, no character of the text is taken for the
separator, and the reader is at the outer level behind it, whatever follows. -/
def Passes (sep : Char) (prev : Option Char) (t : List Char) : Prop :=
  ∀ rest, cutOuterFrom? (separatesAt sep) .code 0 prev (t ++ rest) =
    (cutOuterFrom? (separatesAt sep) .code 0 (t.getLast?.or prev) rest).map
      fun p => (t ++ p.1, p.2)

theorem Passes.append (ht : Passes sep prev t) (hu : Passes sep (t.getLast?.or prev) u) :
    Passes sep prev (t ++ u) := by
  intro rest
  have hlast : (t ++ u).getLast?.or prev = u.getLast?.or (t.getLast?.or prev) := by
    rw [List.getLast?_append, Option.or_assoc]
  rw [List.append_assoc, ht, hu, Option.map_map, hlast]
  simp only [Function.comp_def, List.append_assoc]

/-- Plain characters keep the depth, and at the outer level none of them may be a comma. -/
theorem exists_closesFrom_append (h : ∀ c ∈ t, IsPlain c ∧ (c = ',' → 0 < depth))
    (hdepth : 0 ≤ depth) (prev : Char) (u : List Char) :
    ∃ last, closesFrom prev depth (t ++ u) = closesFrom last depth u := by
  induction t generalizing prev with
  | nil => exact ⟨prev, rfl⟩
  | cons c t ih =>
    obtain ⟨⟨hplain, hcomma⟩, hmore⟩ := List.forall_mem_cons.mp h
    obtain ⟨last, hlast⟩ := ih hmore c
    have hinside : (decide (c = ',') && decide (depth = 0)) = false := by
      rw [Bool.and_eq_false_iff, decide_eq_false_iff_not, decide_eq_false_iff_not]
      by_cases hc : c = ','
      · have hpos := hcomma hc
        exact .inr (by omega)
      · exact .inl hc
    refine ⟨last, ?_⟩
    rw [List.cons_append, closesFrom, bracketValue_plain hplain, Int.add_zero, hlast, hinside,
      decide_eq_true hdepth]
    rfl

theorem closesFrom_of_plain (hw : ∀ c ∈ t, IsPlain c ∧ c ≠ ',') (hu : closesFrom ' ' 0 u = true)
    (prev : Char) : closesFrom prev 0 (t ++ u) = true := by
  obtain ⟨last, hlast⟩ := exists_closesFrom_append
    (fun c hc => ⟨(hw c hc).1, fun heq => absurd heq (hw c hc).2⟩) (Int.le_refl 0) prev u
  rw [hlast, closesFrom_zero hu]

/-- A character of code that does not separate is passed. -/
theorem cutOuterFrom?_code (hquote : Quoting.isQuote c = false)
    (hgoes : depth + bracketValue (prev.getD '\x00') c ≤ 0 → separatesAt sep prev c t = false) :
    cutOuterFrom? (separatesAt sep) .code depth prev (c :: t) =
      (cutOuterFrom? (separatesAt sep) .code (depth + bracketValue (prev.getD '\x00') c) (some c)
        t).map fun p => (c :: p.1, p.2) := by
  have hstays : (decide (depth + bracketValue (prev.getD '\x00') c ≤ 0) &&
      separatesAt sep prev c t) = false := by
    by_cases hdepth : depth + bracketValue (prev.getD '\x00') c ≤ 0
    · rw [hgoes hdepth, Bool.and_false]
    · rw [decide_eq_false hdepth, Bool.false_and]
  simp only [cutOuterFrom?, hquote, hstays, Bool.false_eq_true, if_false]

theorem passes_nil (prev : Option Char) : Passes sep prev [] := by
  intro rest
  simp

/-- Plain characters other than the separator are passed. -/
theorem passes_of_plain (h : ∀ c ∈ t, IsPlain c ∧ c ≠ sep) (prev : Option Char) :
    Passes sep prev t := by
  induction t generalizing prev with
  | nil => exact passes_nil prev
  | cons c t ih =>
    obtain ⟨⟨hc, hne⟩, hmore⟩ := List.forall_mem_cons.mp h
    have hone : Passes sep prev [c] := by
      intro rest
      rw [List.singleton_append, cutOuterFrom?_code hc.1 fun _ => by simp [separatesAt, hne],
        bracketValue_plain hc, Int.add_zero]
      rfl
    exact hone.append (ih hmore _)

/-- A separator that stands for itself is the first cut behind a text that is passed. -/
theorem cutOuter?_of_passes (hsep : IsPlain sep) (hl : Passes sep none l)
    (halone : standsAlone sep l.getLast? r = true) :
    cutOuter? sep (l ++ sep :: r) = some (l, r) := by
  have hends : cutOuterFrom? (separatesAt sep) .code 0 l.getLast? (sep :: r) =
      some ([], sep :: r) := by
    rw [cutOuterFrom?, hsep.1, if_neg Bool.false_ne_true, bracketValue_plain hsep]
    simp [separatesAt, halone]
  show (cutOuterFrom? (separatesAt sep) .code 0 none (l ++ sep :: r)).map _ = _
  rw [hl, Option.or_none, hends]
  simp

theorem cutOuter?_eq_none_of_passes (h : Passes sep none t) : cutOuter? sep t = none := by
  have hall := h []
  rw [List.append_nil, cutOuterFrom?] at hall
  show (cutOuterFrom? (separatesAt sep) .code 0 none t).map _ = _
  rw [hall]
  rfl

/-! ## Equals signs -/

/-- What stands in front of a text does not matter if the text begins with neither an equals sign
nor the angle of an arrow. -/
theorem cutOuterFrom?_of_head? (hequals : t.head? ≠ some '=') (hangle : t.head? ≠ some '>')
    (prev prev' : Option Char) : cutOuterFrom? (separatesAt '=') .code 0 prev t =
      cutOuterFrom? (separatesAt '=') .code 0 prev' t := by
  cases t with
  | nil => rfl
  | cons c t =>
    have hne : c ≠ '=' ∧ c ≠ '>' := by simpa using And.intro hequals hangle
    simp only [cutOuterFrom?, separatesAt, bracketValue, hne.1, hne.2, decide_false,
      Bool.false_and]

/-- An equals sign that does not stand for itself is passed. -/
theorem cutOuter?_of_compound (hl : Passes '=' none l)
    (hcompound : standsAlone '=' l.getLast? r = false) (hequals : r.head? ≠ some '=')
    (hangle : r.head? ≠ some '>') :
    cutOuter? '=' (l ++ '=' :: r) =
      (cutOuter? '=' r).map fun p => (l ++ '=' :: p.1, p.2) := by
  have hsign : cutOuterFrom? (separatesAt '=') .code 0 l.getLast? ('=' :: r) =
      (cutOuterFrom? (separatesAt '=') .code (0 + bracketValue (l.getLast?.getD '\x00') '=')
        (some '=') r).map fun p => ('=' :: p.1, p.2) :=
    cutOuterFrom?_code rfl fun _ => by simp [separatesAt, hcompound]
  show (cutOuterFrom? (separatesAt '=') .code 0 none (l ++ '=' :: r)).map _ =
    ((cutOuterFrom? (separatesAt '=') .code 0 none r).map _).map _
  rw [hl, Option.or_none, hsign, show bracketValue (l.getLast?.getD _) _ = 0 from rfl, Int.add_zero,
    cutOuterFrom?_of_head? hequals hangle _ none]
  simp only [Option.map_map, Function.comp_def]

/-- From the depth and behind the character, each equals sign at depth zero is part of an arrow. -/
def arrowsOnly (prev : Char) (depth : Int) : List Char → Bool
  | [] => true
  | c :: t =>
    let inside := depth + bracketValue prev c
    !(c = '=' && inside = 0 && t.head? ≠ some '>') && arrowsOnly c inside t

/-- A text that closes is passed if its outer equals signs are parts of arrows. -/
theorem cutOuterFrom?_of_arrowsOnly {prev : Char} (hquote : ∀ c ∈ t, Quoting.isQuote c = false)
    (hclose : closesFrom prev depth t = true) (harrows : arrowsOnly prev depth t = true)
    (rest : List Char) :
    cutOuterFrom? (separatesAt '=') .code depth (some prev) (t ++ rest) =
      (cutOuterFrom? (separatesAt '=') .code 0 (t.getLast?.or (some prev)) rest).map
        fun p => (t ++ p.1, p.2) := by
  induction t generalizing prev depth with
  | nil =>
    have hdepth : depth = 0 := of_decide_eq_true hclose
    rw [hdepth]
    simp
  | cons c t ih =>
    obtain ⟨hc, hquote⟩ := List.forall_mem_cons.mp hquote
    simp only [closesFrom, Bool.and_eq_true, Bool.not_eq_true', decide_eq_true_eq] at hclose
    simp only [arrowsOnly, Bool.and_eq_true, Bool.not_eq_true'] at harrows
    obtain ⟨⟨hdepth, -⟩, hclose⟩ := hclose
    obtain ⟨hsign, harrows⟩ := harrows
    -- an equals sign that stands outside is followed by the bracket of its arrow
    have hgoes : depth + bracketValue prev c ≤ 0 →
        separatesAt '=' (some prev) c (t ++ rest) = false := by
      intro hle
      refine Bool.eq_false_iff.mpr fun hseparates => ?_
      simp only [separatesAt, Bool.and_eq_true, decide_eq_true_eq] at hseparates
      obtain ⟨rfl, halone⟩ := hseparates
      have hzero : depth + bracketValue prev '=' = 0 := by omega
      simp only [hzero, decide_true, Bool.true_and, decide_eq_false_iff_not, ne_eq,
        Decidable.not_not] at hsign
      obtain ⟨v, rfl⟩ := List.head?_eq_some_iff.mp hsign
      simp [standsAlone, isCompound] at halone
    have hlast : (c :: t).getLast?.or (some prev) = t.getLast?.or (some c) := by
      rw [List.getLast?_cons]
      cases t.getLast? <;> rfl
    have hone : cutOuterFrom? (separatesAt '=') .code depth (some prev) (c :: (t ++ rest)) =
        (cutOuterFrom? (separatesAt '=') .code (depth + bracketValue prev c) (some c)
          (t ++ rest)).map fun p => (c :: p.1, p.2) := cutOuterFrom?_code hc hgoes
    rw [List.cons_append, hone, ih hquote hclose harrows, Option.map_map, hlast]
    rfl

/-- What stands in front of the text does not matter. -/
theorem arrowsOnly_zero (hclose : closesFrom ' ' 0 t = true) (h : arrowsOnly ' ' 0 t = true)
    (prev : Char) : arrowsOnly prev 0 t = true := by
  cases t with
  | nil => rfl
  | cons c t =>
    rw [arrowsOnly, bracketValue_of_closesFrom hclose]
    exact h

theorem passes_of_arrowsOnly (ht : IsPiece t) (harrows : arrowsOnly ' ' 0 t = true) (prev : Char) :
    Passes '=' (some prev) t :=
  cutOuterFrom?_of_arrowsOnly ht.noQuote (closesFrom_zero ht.closes prev)
    (arrowsOnly_zero ht.closes harrows prev)

/-- Such a text ends in neither an equals sign nor an opening angle bracket. -/
theorem getLast?_of_arrowsOnly {prev : Char} (hdepth : 0 ≤ depth)
    (hclose : closesFrom prev depth t = true) (harrows : arrowsOnly prev depth t = true) :
    t.getLast? ≠ some '=' ∧ t.getLast? ≠ some '<' := by
  induction t generalizing prev depth with
  | nil => exact ⟨nofun, nofun⟩
  | cons c t ih =>
    simp only [closesFrom, Bool.and_eq_true, Bool.not_eq_true', decide_eq_true_eq] at hclose
    simp only [arrowsOnly, Bool.and_eq_true, Bool.not_eq_true'] at harrows
    obtain ⟨⟨hinside, -⟩, hclose⟩ := hclose
    obtain ⟨hsign, harrows⟩ := harrows
    cases t with
    | nil =>
      have hzero : depth + bracketValue prev c = 0 := of_decide_eq_true hclose
      constructor
      · rintro ⟨⟩
        rw [hzero] at hsign
        cases hsign
      · rintro ⟨⟩
        have hone : depth + 1 = 0 := hzero
        omega
    | cons d t =>
      rw [List.getLast?_cons_cons]
      exact ih hinside hclose harrows

/-! ## Nested texts -/

/-- From the first depth and behind the character, no character of the text is taken for the
separator, and the reader is at the second depth behind it, whatever follows. -/
def PassesTo (sep : Char) (prev : Option Char) (depth depth' : Int) (t : List Char) : Prop :=
  ∀ rest, cutOuterFrom? (separatesAt sep) .code depth prev (t ++ rest) =
    (cutOuterFrom? (separatesAt sep) .code depth' (t.getLast?.or prev) rest).map
      fun p => (t ++ p.1, p.2)

section

variable {q : Char} {o : Option Char} {s : List Char} {depth' depth'' : Int}

theorem PassesTo.append (ht : PassesTo sep prev depth depth' t)
    (hu : PassesTo sep (t.getLast?.or prev) depth' depth'' u) :
    PassesTo sep prev depth depth'' (t ++ u) := by
  intro rest
  have hlast : (t ++ u).getLast?.or prev = u.getLast?.or (t.getLast?.or prev) := by
    rw [List.getLast?_append, Option.or_assoc]
  rw [List.append_assoc, ht, hu, Option.map_map, hlast]
  simp only [Function.comp_def, List.append_assoc]

theorem passesTo_nil (prev : Option Char) : PassesTo sep prev depth depth [] := by
  intro rest
  simp

/-- A character of code leads to the depth behind it. -/
theorem passesTo_code (hquote : Quoting.isQuote c = false)
    (hvalue : depth + bracketValue (prev.getD '\x00') c = depth')
    (hsep : c = sep → 0 < depth') : PassesTo sep prev depth depth' [c] := by
  intro rest
  rw [List.singleton_append, cutOuterFrom?_code hquote, hvalue]
  · rfl
  · intro hle
    have hne : c ≠ sep := fun heq => by
      have hpos := hsep heq
      omega
    simp [separatesAt, hne]

/-- The text of a literal is passed up to the quote that ends it. -/
theorem cutOuterFrom?_literal {f : Option Char → Char → List Char → Bool}
    (hq : Quoting.isQuote q = true) (hs : LiteralText q s) (prev : Option Char)
    (rest : List Char) :
    cutOuterFrom? f (.literal q) depth prev (s ++ q :: rest) =
      (cutOuterFrom? f .code depth (some q) rest).map fun p => (s ++ q :: p.1, p.2) := by
  -- the text `u` that is still to be passed tells which character stands in front of the rest
  have hpassed : ∃ u, s ++ q :: rest = u ++ rest ∧ ∀ prev,
      cutOuterFrom? f (.literal q) depth prev (s ++ q :: rest) =
        (cutOuterFrom? f .code depth (u.getLast?.or prev) rest).map fun p => (u ++ p.1, p.2) := by
    refine hs.carried hq (P := fun st t => ∃ u, t = u ++ rest ∧ ∀ prev,
      cutOuterFrom? f st depth prev t =
        (cutOuterFrom? f .code depth (u.getLast?.or prev) rest).map fun p => (u ++ p.1, p.2)) ?_ ?_
    · rintro st c t hst ⟨u, rfl, hu⟩
      refine ⟨c :: u, rfl, fun prev => ?_⟩
      rw [cutOuterFrom?, hu, Option.map_map, List.getLast?_cons]
      · cases u.getLast? <;> rfl
      · exact hst
    · exact ⟨[], rfl, by simp⟩
  obtain ⟨u, hu, hpasses⟩ := hpassed
  rw [List.append_cons] at hu
  obtain rfl := List.append_cancel_right hu
  rw [hpasses, List.getLast?_concat, Option.some_or]
  simp

/-- A literal is passed as a whole. -/
theorem passesTo_literal (hq : Quoting.isQuote q = true) (hs : LiteralText q s)
    (prev : Option Char) : PassesTo sep prev depth depth (q :: (s ++ [q])) := by
  intro rest
  have hopens : cutOuterFrom? (separatesAt sep) .code depth prev (q :: (s ++ q :: rest)) =
      (cutOuterFrom? (separatesAt sep) (.literal q) depth (some q) (s ++ q :: rest)).map
        fun p => (q :: p.1, p.2) := by
    rw [cutOuterFrom?, if_pos hq]
  have hlast : (q :: (s ++ [q])).getLast?.or prev = some q := by
    rw [← List.cons_append, List.getLast?_concat, Option.some_or]
  have hsplit : q :: (s ++ [q]) ++ rest = q :: (s ++ q :: rest) := by simp
  rw [hsplit, hopens, cutOuterFrom?_literal hq hs, hlast, Option.map_map]
  simp only [Function.comp_def, List.cons_append, List.append_assoc, List.nil_append]

/-- A nested text is passed inside groups and, if no separator stands outside of its own groups,
at the outer level. -/
theorem Nested.passesTo (hsep : IsPlain sep) (h : Nested LiteralText o t) (hdepth : 0 ≤ depth)
    (ho : depth = 0 → o = some sep) (prev : Option Char) : PassesTo sep prev depth depth t := by
  have hbracket : ∀ b : Bracket, b.opens ≠ sep ∧ b.closes ≠ sep := fun b =>
    ⟨fun heq => (hsep.2 b (by cases b <;> decide)).1 heq.symm,
      fun heq => (hsep.2 b (by cases b <;> decide)).2 heq.symm⟩
  induction h generalizing depth prev with
  | nil => exact passesTo_nil prev
  | @plain o c t hc hne _ ih =>
    have hone : PassesTo sep prev depth depth [c] := by
      refine passesTo_code hc.1 (by rw [bracketValue_plain hc, Int.add_zero]) ?_
      rintro rfl
      have hinside : depth ≠ 0 := fun hzero => hne (ho hzero)
      omega
    exact hone.append (ih hdepth ho _)
  | @arrow o t hne _ ih =>
    have hequals : PassesTo sep prev depth depth ['='] := by
      refine passesTo_code rfl (Int.add_zero depth) ?_
      rintro rfl
      have hinside : depth ≠ 0 := fun hzero => hne (ho hzero)
      omega
    have hangle : PassesTo sep (some '=') depth depth ['>'] :=
      passesTo_code rfl (Int.add_zero depth) fun heq => absurd heq (hbracket .angle).2
    exact (hequals.append hangle).append (ih hdepth ho _)
  | @group o s t b _ hangle _ ihs iht =>
    have hopens : PassesTo sep prev depth (depth + 1) [b.opens] :=
      passesTo_code (isQuote_opens b) (by rw [bracketValue_opens]) fun heq =>
        absurd heq (hbracket b).1
    have hinside : PassesTo sep (some b.opens) (depth + 1) (depth + 1) s :=
      ihs (by omega) (fun hzero => absurd hzero (by omega)) _
    -- an angle bracket closes its group unless it is the end of an arrow
    have hvalue : depth + 1 + bracketValue ((s.getLast?.or (some b.opens)).getD '\x00') b.closes =
        depth := by
      rw [bracketValue_closes b, Int.add_neg_cancel_right]
      rintro rfl heq
      cases hlast : s.getLast? with
      | none =>
        rw [hlast] at heq
        revert heq
        decide
      | some c =>
        rw [hlast] at heq
        obtain rfl : c = '=' := heq
        exact hangle rfl hlast
    have hcloses : PassesTo sep (s.getLast?.or (some b.opens)) (depth + 1) depth [b.closes] :=
      passesTo_code (isQuote_closes b) hvalue fun heq => absurd heq (hbracket b).2
    have hgroup := hopens.append (hinside.append (hcloses.append (iht hdepth ho _)))
    rwa [List.singleton_append, List.singleton_append] at hgroup
  | @literal o q s t hq hs _ ih =>
    have hliteral := (passesTo_literal hq hs prev).append (ih hdepth ho _)
    rwa [List.cons_append, List.append_assoc, List.singleton_append] at hliteral

theorem Nested.passes (hsep : IsPlain sep) (h : Nested LiteralText (some sep) t)
    (prev : Option Char) : Passes sep prev t := h.passesTo hsep (Int.le_refl 0) (fun _ => rfl) prev

/-- A nested text does not end in a sign that stands in its groups and literals only. -/
theorem Nested.getLast?_ne (hsep : IsPlain c) (h : Nested LiteralText o t) (ho : o = some c) :
    t.getLast? ≠ some c := by
  have hends : ∀ (u : List Char) {e : Char} {v : List Char}, e ≠ c → v.getLast? ≠ some c →
      (u ++ e :: v).getLast? ≠ some c := by
    intro u e v he hv
    rw [List.getLast?_append_of_ne_nil _ (List.cons_ne_nil e v), List.getLast?_cons]
    cases hlast : v.getLast? with
    | none => simpa using he
    | some d =>
      rw [hlast] at hv
      exact hv
  induction h with
  | nil => exact nofun
  | plain _ hne _ ih => exact hends [] (fun heq => hne (by rw [ho, heq])) (ih ho)
  | arrow _ _ ih => exact hends ['='] (hsep.2 .angle (by decide)).2.symm (ih ho)
  | @group o s t b _ _ _ _ ih =>
    have hcloses : b.closes ≠ c := (hsep.2 b (by cases b <;> decide)).2.symm
    exact hends (b.opens :: s) hcloses (ih ho)
  | @literal o q s t hq _ _ ih =>
    refine hends (q :: s) ?_ (ih ho)
    rintro rfl
    rw [hsep.1] at hq
    cases hq

end

end CodeAtlas
