/-
Round groups.

The reader of a group takes one character after the other into the group, up to the bracket that
closes it (`closeGroup?_cons`), and what it does next depends on what it has read and not on what
follows. So a group that is closed stays what it is when more is put behind the text, and a text
that leaves it open is taken into it as a whole.
-/
import CodeAtlas.Nesting.Balance

set_option autoImplicit false

namespace CodeAtlas

variable {q : Quoting} {depth : Nat} {t u inner rest : List Char}

/-- What a character adds to the balance where the scanner stands. -/
def Quoting.roundValue (st : Quoting) (c : Char) : Int :=
  match st with
  | .code => parenValue c
  | _ => 0

/-- A bracket that closes the group, or a character that is taken into it and changes the depth by
its value. -/
theorem closeGroup?_cons (st : Quoting) (depth : Nat) (c : Char) :
    (st = .code ∧ depth = 0 ∧ c = ')') ∨
      ∃ depth' : Nat, (depth' : Int) = depth + st.roundValue c ∧ ∀ t,
        closeGroup? st depth (c :: t) =
          (closeGroup? (st.next c) depth' t).map fun p => (c :: p.1, p.2) := by
  cases st with
  | literal q => exact .inr ⟨depth, (Int.add_zero _).symm, fun _ => rfl⟩
  | escape q => exact .inr ⟨depth, (Int.add_zero _).symm, fun _ => rfl⟩
  | code =>
    -- brackets count in code only
    by_cases hclose : c = ')'
    · subst hclose
      cases depth with
      | zero => exact .inl ⟨rfl, rfl, rfl⟩
      | succ depth =>
        have hvalue : Quoting.code.roundValue ')' = -1 := rfl
        exact .inr ⟨depth, by omega, fun _ => rfl⟩
    · by_cases hopen : c = '('
      · subst hopen
        have hvalue : Quoting.code.roundValue '(' = 1 := rfl
        exact .inr ⟨depth + 1, by omega, fun _ => rfl⟩
      · have hvalue : Quoting.code.roundValue c = 0 := by
          rw [Quoting.roundValue, parenValue, if_neg hopen, if_neg hclose]
        refine .inr ⟨depth, by omega, fun t => ?_⟩
        rw [closeGroup?]
        · exact hopen
        · exact fun h _ => hclose h
        · exact fun _ h _ => hclose h

/-- A character closes the group, or it is taken into the group whatever follows it. -/
theorem closeGroup?_step (q : Quoting) (depth : Nat) (c : Char) :
    (c = ')' ∧ ∀ t, closeGroup? q depth (c :: t) = some ([], t)) ∨
      ∃ q' depth', ∀ t, closeGroup? q depth (c :: t) =
        (closeGroup? q' depth' t).map fun p => (c :: p.1, p.2) := by
  rcases closeGroup?_cons q depth c with ⟨rfl, rfl, rfl⟩ | ⟨depth', -, hmore⟩
  · exact .inl ⟨rfl, fun _ => rfl⟩
  · exact .inr ⟨q.next c, depth', hmore⟩

/-- What is in a group, the bracket that closes it and what follows are all of the text. -/
theorem append_of_closeGroup? (h : closeGroup? q depth t = some (inner, rest)) :
    t = inner ++ ')' :: rest := by
  induction t generalizing q depth inner with
  | nil => simp [closeGroup?] at h
  | cons c t ih =>
    rcases closeGroup?_step q depth c with ⟨rfl, hclose⟩ | ⟨q', depth', hmore⟩
    · rw [hclose] at h
      obtain ⟨rfl, rfl⟩ := Prod.mk.inj (Option.some.inj h)
      rfl
    · rw [hmore] at h
      obtain ⟨⟨inner', rest'⟩, hgroup, heq⟩ := Option.map_eq_some_iff.mp h
      obtain ⟨rfl, rfl⟩ := Prod.mk.inj heq
      rw [ih hgroup, List.cons_append]

/-- A round group with its brackets, and what follows it, are all of the text. -/
theorem append_of_takeGroup? (h : takeGroup? t = some (inner, rest)) :
    t = '(' :: inner ++ ')' :: rest := by
  unfold takeGroup? at h
  split at h
  · rw [append_of_closeGroup? h]
    rfl
  · simp at h

/-- A text closes the group, or it is taken into the group as a whole; which of the two does not
depend on what follows. -/
theorem closeGroup?_append_cases (q : Quoting) (depth : Nat) (t : List Char) :
    (∃ inner rest, ∀ u, closeGroup? q depth (t ++ u) = some (inner, rest ++ u)) ∨
      ∃ depth', ∀ u, closeGroup? q depth (t ++ u) =
        (closeGroup? (q.after t) depth' u).map fun p => (t ++ p.1, p.2) := by
  induction t generalizing q depth with
  | nil => exact .inr ⟨depth, fun u => by simp [Quoting.after]⟩
  | cons c t ih =>
    rcases closeGroup?_cons q depth c with ⟨rfl, rfl, rfl⟩ | ⟨depth', -, hmore⟩
    · exact .inl ⟨[], t, fun _ => rfl⟩
    · rcases ih (q.next c) depth' with ⟨inner, rest, hclosed⟩ | ⟨depth'', hopen⟩
      · refine .inl ⟨c :: inner, rest, fun u => ?_⟩
        rw [List.cons_append, hmore, hclosed]
        rfl
      · refine .inr ⟨depth'', fun u => ?_⟩
        rw [List.cons_append, hmore, hopen, Option.map_map]
        rfl

/-- A group that is closed stays what it is. -/
theorem closeGroup?_append (h : closeGroup? q depth t = some (inner, rest)) (e : List Char) :
    closeGroup? q depth (t ++ e) = some (inner, rest ++ e) := by
  rcases closeGroup?_append_cases q depth t with ⟨inner', rest', hclosed⟩ | ⟨depth', hopen⟩
  · have hnil := hclosed []
    rw [List.append_nil, List.append_nil, h] at hnil
    obtain ⟨rfl, rfl⟩ := Prod.mk.inj (Option.some.inj hnil)
    exact hclosed e
  · -- without anything behind it, an open group is not closed
    have hnil := hopen []
    rw [List.append_nil, h, closeGroup?] at hnil
    cases hnil

theorem closeGroup?_of_notMem (h : ')' ∉ t) : closeGroup? q depth t = none := by
  refine Option.eq_none_iff_forall_ne_some.mpr ?_
  rintro ⟨inner, rest⟩ hgroup
  rw [append_of_closeGroup? hgroup] at h
  exact h (List.mem_append_right inner List.mem_cons_self)

/-- A text that leaves a group open is taken into it as a whole. -/
theorem exists_of_closeGroup?_append (hopen : closeGroup? q depth t = none)
    (h : closeGroup? q depth (t ++ u) = some (inner, rest)) :
    ∃ q' depth' more, inner = t ++ more ∧ closeGroup? q' depth' u = some (more, rest) := by
  rcases closeGroup?_append_cases q depth t with ⟨inner', rest', hclosed⟩ | ⟨depth', hmore⟩
  · have hnil := hclosed []
    rw [List.append_nil, hopen] at hnil
    cases hnil
  · rw [hmore] at h
    obtain ⟨⟨more, rest'⟩, hgroup, heq⟩ := Option.map_eq_some_iff.mp h
    obtain ⟨rfl, rfl⟩ := Prod.mk.inj heq
    exact ⟨_, depth', more, rfl, hgroup⟩

/-! ## Balanced texts -/

/-- Behind so many open round brackets, the text closes these and the ones that it opens, and no
others. -/
def closesRound : Nat → List Char → Bool
  | depth, [] => depth = 0
  | depth, '(' :: t => closesRound (depth + 1) t
  | 0, ')' :: _ => false
  | depth + 1, ')' :: t => closesRound depth t
  | depth, _ :: t => closesRound depth t

/-- A text without quotes whose round brackets are balanced. -/
structure IsRound (t : List Char) : Prop where
  noQuote : ∀ c ∈ t, Quoting.isQuote c = false
  closes : closesRound 0 t = true

instance (t : List Char) : Decidable (IsRound t) :=
  decidable_of_iff (t.all (!Quoting.isQuote ·) = true ∧ closesRound 0 t = true) <| by
    rw [List.all_eq_true]
    simp only [Bool.not_eq_true']
    exact ⟨fun h => ⟨h.1, h.2⟩, fun h => ⟨h.1, h.2⟩⟩

/-- A balanced text is taken into the group, which the bracket behind it closes. -/
theorem closeGroup?_of_closesRound (hquote : ∀ c ∈ t, Quoting.isQuote c = false)
    (h : closesRound depth t = true) (rest : List Char) :
    closeGroup? .code depth (t ++ ')' :: rest) = some (t, rest) := by
  fun_induction closesRound depth t with
  | case1 depth =>
    obtain rfl : depth = 0 := of_decide_eq_true h
    rfl
  | case2 depth t ih =>
    rw [List.cons_append, closeGroup?, ih (List.forall_mem_cons.mp hquote).2 h]
    rfl
  | case3 => cases h
  | case4 depth t ih =>
    rw [List.cons_append, closeGroup?, ih (List.forall_mem_cons.mp hquote).2 h]
    rfl
  | case5 depth c t hopen hzero hsucc ih =>
    obtain ⟨hc, hmore⟩ := List.forall_mem_cons.mp hquote
    rw [List.cons_append, closeGroup?, Quoting.next_code_of_not_isQuote hc, ih hmore h]
    · rfl
    · exact hopen
    · exact fun hclose hdepth => hzero hdepth hclose
    · exact fun d hclose hdepth => hsucc d hdepth hclose

theorem takeGroup?_of_isRound (h : IsRound t) (rest : List Char) :
    takeGroup? ('(' :: (t ++ ')' :: rest)) = some (t, rest) :=
  closeGroup?_of_closesRound h.noQuote h.closes rest

/-- The begin of a balanced text leaves the group open. -/
theorem closeGroup?_of_isRound_append (h : IsRound (t ++ u)) : closeGroup? .code 0 t = none := by
  refine Option.eq_none_iff_forall_ne_some.mpr ?_
  rintro ⟨inner, rest⟩ hgroup
  have hmore := closeGroup?_append hgroup (u ++ [')'])
  rw [← List.append_assoc, closeGroup?_of_closesRound h.noQuote h.closes] at hmore
  simp at hmore

theorem parenBalance_cons {c : Char} (hc : Quoting.isQuote c = false) (rest : List Char) :
    parenBalance (c :: rest) = parenValue c + parenBalance rest := by
  rw [parenBalance, parenBalanceFrom, Quoting.next_code_of_not_isQuote hc]
  rfl

/-- Behind a balanced text the balance is what it was without it. -/
theorem parenBalance_of_closesRound (hquote : ∀ c ∈ t, Quoting.isQuote c = false)
    (h : closesRound depth t = true) (rest : List Char) :
    depth + parenBalance (t ++ rest) = parenBalance rest := by
  -- the depth is what the balance of the rest has still to make up for
  fun_induction closesRound depth t with
  | case1 depth =>
    obtain rfl : depth = 0 := of_decide_eq_true h
    exact Int.zero_add _
  | case2 depth t ih =>
    obtain ⟨hc, hmore⟩ := List.forall_mem_cons.mp hquote
    have hrest := ih hmore h
    have hvalue : parenValue '(' = 1 := rfl
    rw [List.cons_append, parenBalance_cons hc]
    omega
  | case3 => cases h
  | case4 depth t ih =>
    obtain ⟨hc, hmore⟩ := List.forall_mem_cons.mp hquote
    have hrest := ih hmore h
    have hvalue : parenValue ')' = -1 := rfl
    rw [List.cons_append, parenBalance_cons hc]
    omega
  | case5 depth c t hopen hzero hsucc ih =>
    obtain ⟨hc, hmore⟩ := List.forall_mem_cons.mp hquote
    have hrest := ih hmore h
    have hclose : c ≠ ')' := by
      cases depth with
      | zero => exact hzero rfl
      | succ d => exact hsucc d rfl
    have hvalue : parenValue c = 0 := by
      rw [parenValue, if_neg hopen, if_neg hclose]
    rw [List.cons_append, parenBalance_cons hc]
    omega

theorem IsRound.parenBalance_append (h : IsRound t) (rest : List Char) :
    parenBalance (t ++ rest) = parenBalance rest := by
  have hbalance := parenBalance_of_closesRound h.noQuote h.closes rest
  omega

/-- Balanced texts can stand one behind the other. -/
theorem closesRound_append (ht : closesRound depth t = true)
    (hu : closesRound 0 u = true) : closesRound depth (t ++ u) = true := by
  fun_induction closesRound depth t with
  | case1 depth =>
    obtain rfl : depth = 0 := of_decide_eq_true ht
    exact hu
  | case2 depth t ih => exact ih ht
  | case3 => cases ht
  | case4 depth t ih => exact ih ht
  | case5 depth c t hopen hzero hsucc ih =>
    rw [List.cons_append, closesRound]
    · exact ih ht
    · exact hopen
    · exact fun hdepth hclose => hzero hdepth hclose
    · exact fun d hclose hdepth => hsucc d hclose hdepth

theorem IsRound.append (ht : IsRound t) (hu : IsRound u) : IsRound (t ++ u) where
  noQuote c hc := (List.mem_append.mp hc).elim (ht.noQuote c) (hu.noQuote c)
  closes := closesRound_append ht.closes hu.closes

theorem closesRound_of_forall (h : ∀ c ∈ t, c ≠ '(' ∧ c ≠ ')') : closesRound 0 t = true := by
  induction t with
  | nil => rfl
  | cons c t ih =>
    obtain ⟨⟨hopen, hclose⟩, hmore⟩ := List.forall_mem_cons.mp h
    rw [closesRound]
    · exact ih hmore
    · exact hopen
    · exact fun _ h => hclose h
    · exact fun _ h _ => nomatch h

end CodeAtlas
