/-
What a round group is.

The reader of a group keeps a depth, and the balance of round brackets is a sum. Both stand still
inside literals and change together outside of them (`closeGroup?_cons`), so that the group ends at
the first bracket behind which more is closed than was opened. What can stand inside a group is
therefore told by the balance of its beginnings alone (`IsEnclosed`), and a text has a group where
one of its beginnings closes it.

A reader of bytes that is told an offset sees the same group: a bracket among the bytes is a
character of its own, and both ends of the group are such brackets.
-/
import CodeAtlas.Proofs.Text.Bytes

set_option autoImplicit false

namespace CodeAtlas

variable {st : Quoting} {depth offset : Nat} {c d : Char} {s t u inner rest : List Char}

/-! ## The balance along a text -/

theorem parenBalanceFrom_nil (st : Quoting) : parenBalanceFrom st [] = 0 := by
  cases st <;> rfl

theorem parenBalanceFrom_cons (st : Quoting) (c : Char) (t : List Char) :
    parenBalanceFrom st (c :: t) = st.roundValue c + parenBalanceFrom (st.next c) t := by
  cases st with
  | code => rfl
  | literal q => exact (Int.zero_add _).symm
  | escape q => exact (Int.zero_add _).symm

theorem parenBalanceFrom_append (st : Quoting) (s t : List Char) :
    parenBalanceFrom st (s ++ t) = parenBalanceFrom st s + parenBalanceFrom (st.after s) t := by
  induction s generalizing st with
  | nil => rw [parenBalanceFrom_nil, Int.zero_add]; rfl
  | cons c s ih =>
    rw [List.cons_append, parenBalanceFrom_cons, parenBalanceFrom_cons, ih, Int.add_assoc]
    rfl

/-! ## Where a group ends -/

/-- Behind a depth, the text ends outside literals with all brackets closed, and no beginning of it
that ends outside literals closes more than is open. -/
structure Closes (st : Quoting) (depth : Nat) (t : List Char) : Prop where
  shut : st.after t = .code
  balanced : depth + parenBalanceFrom st t = 0
  covered : ∀ u, u <+: t → st.after u = .code → 0 ≤ depth + parenBalanceFrom st u

theorem closes_nil_iff : Closes st depth [] ↔ st = .code ∧ depth = 0 := by
  constructor
  · rintro ⟨hshut, hbalanced, -⟩
    rw [parenBalanceFrom_nil] at hbalanced
    exact ⟨hshut, by omega⟩
  · rintro ⟨rfl, rfl⟩
    refine ⟨rfl, rfl, fun u hu _ => ?_⟩
    rw [List.prefix_nil.mp hu]
    exact Int.le_refl 0

/-- In front of a text stands a character that the group takes in. -/
theorem closes_cons_iff {depth' : Nat} (hdepth : (depth' : Int) = depth + st.roundValue c) :
    Closes st depth (c :: t) ↔ Closes (st.next c) depth' t := by
  have hbalance : ∀ u, depth + parenBalanceFrom st (c :: u) =
      depth' + parenBalanceFrom (st.next c) u := by
    intro u
    rw [parenBalanceFrom_cons, hdepth, Int.add_assoc]
  constructor
  · rintro ⟨hshut, hbalanced, hcovered⟩
    refine ⟨hshut, by rw [← hbalance, hbalanced], fun u hu hafter => ?_⟩
    rw [← hbalance]
    exact hcovered (c :: u) (List.cons_prefix_cons.mpr ⟨rfl, hu⟩) hafter
  · rintro ⟨hshut, hbalanced, hcovered⟩
    refine ⟨hshut, by rw [hbalance, hbalanced], fun u hu hafter => ?_⟩
    cases u with
    | nil => rw [parenBalanceFrom_nil]; omega
    | cons d u =>
      obtain ⟨rfl, htail⟩ := List.cons_prefix_cons.mp hu
      rw [hbalance]
      exact hcovered u htail hafter

/-- A closing bracket too many is in no group. -/
theorem not_closes_cons : ¬ Closes .code 0 (')' :: t) := by
  intro h
  have hcovered := h.covered [')'] (List.prefix_append [')'] t) rfl
  revert hcovered
  decide

theorem closeGroup?_eq_some_iff : closeGroup? st depth t = some (inner, rest) ↔
    t = inner ++ ')' :: rest ∧ Closes st depth inner := by
  induction t generalizing st depth inner with
  | nil => simp [closeGroup?]
  | cons c t ih =>
    rcases closeGroup?_cons st depth c with ⟨rfl, rfl, rfl⟩ | ⟨depth', hdepth, hmore⟩
    · -- the group ends here, and nothing else does
      cases inner with
      | nil => simp [closeGroup?, closes_nil_iff, eq_comm]
      | cons d inner =>
        simp only [closeGroup?, List.cons_append, List.cons.injEq, Option.some.injEq,
          Prod.mk.injEq, false_and, false_iff, not_and, reduceCtorEq]
        rintro ⟨rfl, -⟩
        exact not_closes_cons
    · rw [hmore]
      cases inner with
      | nil =>
        -- a character that is taken in is no end of the group
        simp only [Option.map_eq_some_iff, Prod.mk.injEq, reduceCtorEq, false_and, and_false,
          exists_false, List.nil_append, List.cons.injEq, false_iff, not_and, closes_nil_iff]
        rintro ⟨rfl, -⟩ rfl rfl
        have hvalue : Quoting.code.roundValue ')' = -1 := rfl
        omega
      | cons d inner =>
        simp only [Option.map_eq_some_iff, Prod.exists, Prod.mk.injEq, List.cons.injEq,
          List.cons_append]
        constructor
        · rintro ⟨inner', rest', hgroup, ⟨rfl, rfl⟩, rfl⟩
          obtain ⟨rfl, hcloses⟩ := ih.mp hgroup
          exact ⟨⟨rfl, rfl⟩, (closes_cons_iff hdepth).mpr hcloses⟩
        · rintro ⟨⟨rfl, rfl⟩, hcloses⟩
          exact ⟨inner, rest, ih.mpr ⟨rfl, (closes_cons_iff hdepth).mp hcloses⟩, ⟨rfl, rfl⟩, rfl⟩

/-- While nothing closes the group, no beginning of the text closes more than is open. -/
theorem le_of_closeGroup?_eq_none (h : closeGroup? st depth t = none) (hu : u <+: t)
    (hafter : st.after u = .code) : 0 ≤ depth + parenBalanceFrom st u := by
  induction t generalizing st depth u with
  | nil =>
    rw [List.prefix_nil.mp hu, parenBalanceFrom_nil]
    omega
  | cons c t ih =>
    cases u with
    | nil => rw [parenBalanceFrom_nil]; omega
    | cons d u =>
      obtain ⟨rfl, htail⟩ := List.cons_prefix_cons.mp hu
      rcases closeGroup?_cons st depth d with ⟨rfl, rfl, rfl⟩ | ⟨depth', hdepth, hmore⟩
      · simp [closeGroup?] at h
      · rw [hmore, Option.map_eq_none_iff] at h
        rw [parenBalanceFrom_cons, ← Int.add_assoc, ← hdepth]
        exact ih h htail hafter

/-! ## Round groups -/

/-- A text that can stand in a round group: its literals are closed, its round brackets are
balanced, and none of them closes a bracket in front of the text. -/
structure IsEnclosed (t : List Char) : Prop where
  shut : Quoting.code.after t = .code
  balanced : parenBalance t = 0
  covered : ∀ u, u <+: t → Quoting.code.after u = .code → 0 ≤ parenBalance u

theorem closes_zero_iff : Closes .code 0 t ↔ IsEnclosed t := by
  have hzero : ∀ u, ((0 : Nat) : Int) + parenBalanceFrom .code u = parenBalance u :=
    fun u => Int.zero_add _
  constructor
  · rintro ⟨hshut, hbalanced, hcovered⟩
    exact ⟨hshut, (hzero t).symm.trans hbalanced,
      fun u hu hafter => hzero u ▸ hcovered u hu hafter⟩
  · rintro ⟨hshut, hbalanced, hcovered⟩
    exact ⟨hshut, (hzero t).trans hbalanced,
      fun u hu hafter => (hzero u).symm ▸ hcovered u hu hafter⟩

theorem takeGroup?_eq_some_iff : takeGroup? t = some (inner, rest) ↔
    t = '(' :: (inner ++ ')' :: rest) ∧ IsEnclosed inner := by
  unfold takeGroup?
  split
  case h_1 t =>
    rw [closeGroup?_eq_some_iff, closes_zero_iff, List.cons.injEq, and_iff_right rfl]
  case h_2 hopen =>
    refine iff_of_false (by simp) ?_
    rintro ⟨rfl, -⟩
    exact hopen _ rfl

/-- A group with its brackets is balanced. -/
theorem IsEnclosed.parenBalance_group (h : IsEnclosed inner) :
    parenBalance ('(' :: (inner ++ [')'])) = 0 ∧
      Quoting.code.after ('(' :: (inner ++ [')'])) = .code := by
  have hafter : Quoting.code.after ('(' :: (inner ++ [')'])) =
      (Quoting.code.after inner).after [')'] := Quoting.after_append _ _ _
  have hbalance : parenBalance ('(' :: (inner ++ [')'])) = 1 + parenBalanceFrom .code
      (inner ++ [')']) := rfl
  have hinner : parenBalanceFrom .code inner = 0 := h.balanced
  have hclose : parenBalanceFrom .code [')'] = -1 := rfl
  constructor
  · rw [hbalance, parenBalanceFrom_append, h.shut, hinner, hclose]
    rfl
  · rw [hafter, h.shut]
    rfl

/-- There is no group exactly if no beginning of the text closes it. -/
theorem takeGroup?_eq_none_iff : takeGroup? ('(' :: t) = none ↔
    ∀ u, u <+: '(' :: t → u ≠ [] → Quoting.code.after u = .code → parenBalance u ≠ 0 := by
  constructor
  · intro hopen u hu hne hafter
    cases u with
    | nil => exact absurd rfl hne
    | cons c u =>
      obtain ⟨rfl, htail⟩ := List.cons_prefix_cons.mp hu
      have hcovered := le_of_closeGroup?_eq_none hopen htail hafter
      have hbalance : parenBalance ('(' :: u) = 1 + parenBalanceFrom .code u := rfl
      omega
  · intro hnever
    refine Option.eq_none_iff_forall_ne_some.mpr ?_
    rintro ⟨inner, rest⟩ hgroup
    obtain ⟨ht, henclosed⟩ := takeGroup?_eq_some_iff.mp hgroup
    obtain ⟨hbalance, hafter⟩ := henclosed.parenBalance_group
    refine hnever _ ⟨rest, ?_⟩ (List.cons_ne_nil _ _) hafter hbalance
    rw [ht]
    simp

/-! ## Groups at an offset -/

namespace Text

theorem byteLength_cons (c : Char) (t : List Char) :
    byteLength (c :: t) = c.utf8Size + byteLength t := rfl

theorem byteLength_append (s t : List Char) :
    byteLength (s ++ t) = byteLength s + byteLength t := sumOf_append _ s t

/-- Only the empty text has no bytes. -/
theorem eq_nil_of_byteLength_eq_zero {p : List Char} (h : byteLength p = 0) : p = [] := by
  cases p with
  | nil => rfl
  | cons c p =>
    have hsize := c.utf8Size_pos
    rw [byteLength_cons] at h
    omega

theorem dropBytes?_zero_eq_some_iff : dropBytes? 0 s = some t ↔ ∃ p, s = p ++ t ∧
    byteLength p = 0 := by
  have hall : dropBytes? 0 s = some s := by cases s <;> rfl
  rw [hall, Option.some_inj]
  constructor
  · exact fun h => ⟨[], h, rfl⟩
  · rintro ⟨p, hp, hlength⟩
    rwa [eq_nil_of_byteLength_eq_zero hlength] at hp

/-- Bytes are dropped where the text in front of them has as many. -/
theorem dropBytes?_eq_some_iff :
    dropBytes? offset s = some t ↔ ∃ p, s = p ++ t ∧ byteLength p = offset := by
  induction s generalizing offset with
  | nil =>
    cases offset with
    | zero => exact dropBytes?_zero_eq_some_iff
    | succ n =>
      refine iff_of_false (by simp [dropBytes?]) ?_
      rintro ⟨p, hp, hlength⟩
      rw [(List.append_eq_nil_iff.mp hp.symm).1] at hlength
      exact absurd hlength (Nat.succ_ne_zero n).symm
  | cons c s ih =>
    have hsize := c.utf8Size_pos
    cases offset with
    | zero => exact dropBytes?_zero_eq_some_iff
    | succ n =>
      -- the first character is dropped as a whole, or the offset is inside of it
      unfold dropBytes?
      constructor
      · intro h
        split at h
        case isTrue hle =>
          obtain ⟨p, rfl, hlength⟩ := ih.mp h
          exact ⟨c :: p, rfl, by rw [byteLength_cons, hlength]; omega⟩
        case isFalse => cases h
      · rintro ⟨p, hp, hlength⟩
        cases p with
        | nil => exact absurd hlength (Nat.succ_ne_zero n).symm
        | cons d p =>
          obtain ⟨rfl, rfl⟩ := List.cons.inj hp
          rw [byteLength_cons] at hlength
          rw [if_pos (by omega)]
          exact ih.mpr ⟨p, rfl, by omega⟩

theorem length_utf8Char (c : Char) : (utf8Char c).length = c.utf8Size := by
  rw [utf8Char, List.length_map, String.length_utf8EncodeChar]

theorem length_utf8 (t : List Char) : (utf8 t).length = byteLength t := by
  induction t with
  | nil => rfl
  | cons c t ih => rw [utf8_cons, List.length_append, length_utf8Char, ih, byteLength_cons]

/-- A byte in ASCII is a character of its own, with characters in front of it. -/
theorem getElem?_utf8_eq_some_iff (hd : d.toNat < 128) :
    (utf8 s)[offset]? = some d ↔ ∃ p t, s = p ++ d :: t ∧ byteLength p = offset := by
  constructor
  · intro h
    induction s generalizing offset with
    | nil => simp at h
    | cons c s ih =>
      rw [utf8_cons] at h
      by_cases hlt : offset < (utf8Char c).length
      · -- the byte is one of this character, so it is the character
        rw [List.getElem?_append_left hlt] at h
        have hplain : c.toNat < 128 := by
          by_contra hinert
          have hbyte := inert_of_mem_utf8Char (Nat.le_of_not_lt hinert) (List.mem_of_getElem? h)
          exact hbyte.ne hd rfl
        rw [utf8Char_of_lt hplain] at h hlt
        have hzero : offset = 0 := by
          rw [List.length_singleton] at hlt
          omega
        subst hzero
        exact ⟨[], s, by rw [Option.some.inj h, List.nil_append], rfl⟩
      · rw [List.getElem?_append_right (Nat.le_of_not_lt hlt)] at h
        obtain ⟨p, t, rfl, hlength⟩ := ih h
        refine ⟨c :: p, t, rfl, ?_⟩
        rw [byteLength_cons, hlength, ← length_utf8Char]
        omega
  · rintro ⟨p, t, rfl, rfl⟩
    rw [utf8_append, utf8_cons, utf8Char_of_lt hd, List.getElem?_append_right (by rw [length_utf8]),
      length_utf8, Nat.sub_self]
    rfl

theorem drop_utf8 (h : dropBytes? offset s = some t) : (utf8 s).drop offset = utf8 t := by
  obtain ⟨p, rfl, rfl⟩ := dropBytes?_eq_some_iff.mp h
  rw [utf8_append, ← length_utf8, List.drop_left]

end Text

/-- The inside of the round group that begins behind so many bytes, and what follows it. -/
def groupAt? (offset : Nat) (s : List Char) : Option (List Char × List Char) :=
  (Text.dropBytes? offset s).bind takeGroup?

/-- The group at an offset is exact. What is found is the text taken apart at the two brackets of
a group, and every group is found. Where a bracket opens at the offset, nothing is found exactly if
no beginning of the text from there closes it, and a reader of the bytes finds the same. -/
theorem groupAt?_exact (offset : Nat) (s : List Char) :
    (∀ inner rest, groupAt? offset s = some (inner, rest) ↔
      ∃ p, Text.byteLength p = offset ∧ s = p ++ '(' :: (inner ++ ')' :: rest) ∧
        IsEnclosed inner) ∧
    ((Text.utf8 s)[offset]? = some '(' →
      (groupAt? offset s = none ↔
        ∀ p t, Text.byteLength p = offset → s = p ++ t →
          ∀ u, u <+: t → u ≠ [] → Quoting.code.after u = .code → parenBalance u ≠ 0) ∧
      takeGroup? ((Text.utf8 s).drop offset) =
        (groupAt? offset s).map (Prod.map Text.utf8 Text.utf8)) := by
  refine ⟨fun inner rest => ?_, fun hbyte => ?_⟩
  · unfold groupAt?
    rw [Option.bind_eq_some_iff]
    constructor
    · rintro ⟨t, hdrop, hgroup⟩
      obtain ⟨p, hp, hlength⟩ := Text.dropBytes?_eq_some_iff.mp hdrop
      obtain ⟨rfl, henclosed⟩ := takeGroup?_eq_some_iff.mp hgroup
      exact ⟨p, hlength, hp, henclosed⟩
    · rintro ⟨p, hlength, hp, henclosed⟩
      exact ⟨_, Text.dropBytes?_eq_some_iff.mpr ⟨p, hp, hlength⟩,
        takeGroup?_eq_some_iff.mpr ⟨rfl, henclosed⟩⟩
  · obtain ⟨p, t, hp, hlength⟩ := (Text.getElem?_utf8_eq_some_iff (by decide)).mp hbyte
    have hdrop : Text.dropBytes? offset s = some ('(' :: t) :=
      Text.dropBytes?_eq_some_iff.mpr ⟨p, hp, hlength⟩
    have hgroup : groupAt? offset s = takeGroup? ('(' :: t) := by
      rw [groupAt?, hdrop, Option.bind_some]
    constructor
    · rw [hgroup, takeGroup?_eq_none_iff]
      constructor
      · intro hnever p' t' hlength' hp'
        -- the offset tells where the text is cut
        have hsame := hdrop.symm.trans (Text.dropBytes?_eq_some_iff.mpr ⟨p', hp', hlength'⟩)
        rw [← Option.some.inj hsame]
        exact hnever
      · intro hnever
        exact hnever p ('(' :: t) hlength hp
    · rw [hgroup, Text.drop_utf8 hdrop, takeGroup?_utf8]

/-- A group behind a character of two bytes, with a bracket in a literal and a group inside. -/
theorem groupAt?_accented :
    let s := "é(a, \")\", (b)) c".toList
    (Text.utf8 s)[2]? = some '(' ∧ groupAt? 2 s = some ("a, \")\", (b)".toList, " c".toList) ∧
      takeGroup? ((Text.utf8 s).drop 2) =
        (groupAt? 2 s).map (Prod.map Text.utf8 Text.utf8) := by
  have hbyte : (Text.utf8 "é(a, \")\", (b)) c".toList)[2]? = some '(' := by decide +kernel
  exact ⟨hbyte, by decide +kernel, ((groupAt?_exact 2 _).2 hbyte).2⟩

end CodeAtlas
