/-
Cutting bytes and cutting characters.

Texts here are lists of characters, so a text that is cut in two is cut between
characters. A reader of the UTF-8 form sees bytes and could in principle cut inside a
character. It does not: everything that a cutter looks for is in ASCII, and no byte of
a character outside ASCII is the number of one inside. `Text.utf8` is the UTF-8 form
with each byte as the character of that number, so that a cutter reads it as it reads
any text, and cutting it gives the UTF-8 forms of the two texts that cutting the
characters gives (`takeGroup?_utf8`, `cutOuter?_utf8`).

Each cutter loses nothing but what it looks for, so its cut points are the ends of
texts with which its own text begins.
-/
import CodeAtlas.Doc.Docstring
import CodeAtlas.Nesting.Split
import CodeAtlas.Proofs.Nesting.Group
import CodeAtlas.Proofs.Text.Search
import Mathlib.Data.List.Basic

set_option autoImplicit false

namespace CodeAtlas

/-! ## The UTF-8 form -/

namespace Text

/-- The bytes of a character, each as the character with its number. -/
def utf8Char (c : Char) : List Char :=
  (String.utf8EncodeChar c).map fun b => Char.ofNat b.toNat

def utf8 (t : List Char) : List Char := t.flatMap utf8Char

@[simp] theorem utf8_nil : utf8 [] = [] := rfl

@[simp] theorem utf8_cons (c : Char) (t : List Char) : utf8 (c :: t) = utf8Char c ++ utf8 t := rfl

@[simp] theorem utf8_append (s t : List Char) : utf8 (s ++ t) = utf8 s ++ utf8 t :=
  List.flatMap_append

/-- A character in ASCII is its only byte. -/
theorem utf8Char_of_lt {c : Char} (h : c.toNat < 128) : utf8Char c = [c] := by
  have hle : c.val.toNat ≤ 0x7f := by
    have : c.toNat = c.val.toNat := rfl
    omega
  have hbyte : (UInt8.ofNat c.val.toNat).toNat = c.toNat := by
    rw [UInt8.toNat_ofNat']
    exact Nat.mod_eq_of_lt (by omega)
  simp only [utf8Char, String.utf8EncodeChar, hle, if_true, List.map_cons, List.map_nil, hbyte,
    Char.ofNat_toNat]

end Text

/-- Is the character outside ASCII? No cutter looks for such a character, so it is
inert. -/
def Inert (c : Char) : Prop := 128 ≤ c.toNat

namespace Text

theorem toNat_ofNat_byte (b : UInt8) : (Char.ofNat b.toNat).toNat = b.toNat := by
  have hvalid : b.toNat.isValidChar := .inl (by have := b.toNat_lt; omega)
  rw [Char.ofNat, dif_pos hvalid]
  rfl

/-- The bytes of a character outside ASCII are at least two, and all of them are outside
ASCII. -/
theorem inert_of_mem_utf8Char {c b : Char} (h : Inert c) (hb : b ∈ utf8Char c) : Inert b := by
  obtain ⟨byte, hbyte, rfl⟩ := List.mem_map.mp hb
  have hc : ¬ c.val.toNat ≤ 0x7f := by
    have : c.toNat = c.val.toNat := rfl
    unfold Inert at h
    omega
  rw [Inert, toNat_ofNat_byte]
  simp only [String.utf8EncodeChar, hc, if_false] at hbyte
  -- two, three or four bytes, each of which is built by adding to at least 128
  split at hbyte
  · simp only [List.mem_cons, List.not_mem_nil, or_false] at hbyte
    rcases hbyte with rfl | rfl <;> rw [UInt8.toNat_ofNat'] <;> omega
  · split at hbyte
    · simp only [List.mem_cons, List.not_mem_nil, or_false] at hbyte
      rcases hbyte with rfl | rfl | rfl <;> rw [UInt8.toNat_ofNat'] <;> omega
    · simp only [List.mem_cons, List.not_mem_nil, or_false] at hbyte
      rcases hbyte with rfl | rfl | rfl | rfl <;> rw [UInt8.toNat_ofNat'] <;> omega

theorem utf8Char_ne_nil (c : Char) : utf8Char c ≠ [] := by
  have h := String.length_utf8EncodeChar c
  intro hnil
  rw [utf8Char, List.map_eq_nil_iff] at hnil
  rw [hnil, List.length_nil] at h
  have := c.utf8Size_pos
  omega

end Text

theorem Inert.ne {c d : Char} (h : Inert c) (hd : d.toNat < 128) : c ≠ d := by
  rintro rfl
  unfold Inert at h
  omega

theorem lt_of_not_inert {c : Char} (h : ¬ Inert c) : c.toNat < 128 := by
  unfold Inert at h
  omega

/-! ## Literals -/

namespace Quoting

/-- Where the scanner stands behind an inert character. -/
def settle : Quoting → Quoting
  | .code => .code
  | .literal q | .escape q => .literal q

/-- Is the quote of the literal, if the scanner stands in one, in ASCII? -/
def Plain : Quoting → Prop
  | .code => True
  | .literal q | .escape q => q.toNat < 128

theorem toNat_lt_of_isQuote {c : Char} (h : isQuote c = true) : c.toNat < 128 := by
  simp only [isQuote, Bool.or_eq_true, decide_eq_true_eq] at h
  rcases h with (rfl | rfl) | rfl <;> decide

theorem not_isQuote_of_inert {c : Char} (h : Inert c) : isQuote c = false := by
  by_contra hquote
  have hlt := toNat_lt_of_isQuote (Bool.of_not_eq_false hquote)
  exact h.ne hlt rfl

theorem plain_code : Plain .code := trivial

theorem plain_literal {c : Char} (h : isQuote c = true) : Plain (.literal c) :=
  toNat_lt_of_isQuote h

theorem Plain.settle {st : Quoting} (h : st.Plain) : st.settle.Plain := by
  cases st <;> exact h

theorem Plain.next {st : Quoting} (h : st.Plain) (c : Char) : (st.next c).Plain := by
  cases st with
  | code =>
    simp only [Quoting.next]
    split
    · rename_i hquote
      exact plain_literal hquote
    · exact plain_code
  | literal q =>
    simp only [Quoting.next]
    split
    · exact h
    · split
      · trivial
      · exact h
  | escape q => exact h

@[simp] theorem settle_settle (st : Quoting) : st.settle.settle = st.settle := by
  cases st <;> rfl

theorem next_of_inert {st : Quoting} {c : Char} (hst : st.Plain) (hc : Inert c) :
    st.next c = st.settle := by
  cases st with
  | code => exact next_code_of_not_isQuote (not_isQuote_of_inert hc)
  -- in a literal only its quote and the backslash count, and both are in ASCII
  | literal q => simp only [next, settle, if_neg (hc.ne (show '\\'.toNat < 128 by decide)),
      if_neg (hc.ne hst)]
  | escape q => rfl

end Quoting

/-! ## Round groups -/

theorem closeGroup?_cons_of_inert {st : Quoting} {c : Char} (hst : st.Plain) (hc : Inert c)
    (depth : Nat) (t : List Char) :
    closeGroup? st depth (c :: t)
      = (closeGroup? st.settle depth t).map fun p => (c :: p.1, p.2) := by
  cases st with
  | code =>
    simp only [closeGroup?]
    split
    · exact absurd rfl (hc.ne (by decide))
    · exact absurd rfl (hc.ne (by decide))
    · exact absurd rfl (hc.ne (by decide))
    · rw [Quoting.next_of_inert hst hc]
  | literal q => rw [closeGroup?, Quoting.next_of_inert hst hc]; simp
  | escape q => rw [closeGroup?, Quoting.next_of_inert hst hc]; simp

theorem closeGroup?_append_of_inert {st : Quoting} {bs : List Char} (hst : st.Plain)
    (hbs : ∀ b ∈ bs, Inert b) (hne : bs ≠ []) (depth : Nat) (t : List Char) :
    closeGroup? st depth (bs ++ t)
      = (closeGroup? st.settle depth t).map fun p => (bs ++ p.1, p.2) := by
  induction bs generalizing st with
  | nil => exact absurd rfl hne
  | cons b bs ih =>
    obtain ⟨hb, hbs⟩ := List.forall_mem_cons.mp hbs
    rw [List.cons_append, closeGroup?_cons_of_inert hst hb]
    by_cases hnil : bs = []
    · subst hnil
      rfl
    · rw [ih hst.settle hbs hnil, Option.map_map, Quoting.settle_settle]
      rfl

theorem closeGroup?_utf8 {st : Quoting} (hst : st.Plain) (depth : Nat) (t : List Char) :
    closeGroup? st depth (Text.utf8 t)
      = (closeGroup? st depth t).map (Prod.map Text.utf8 Text.utf8) := by
  induction t generalizing st depth with
  | nil => simp [closeGroup?]
  | cons c t ih =>
    by_cases hc : Inert c
    · -- all bytes of the character are passed over, as the character is
      rw [Text.utf8_cons, closeGroup?_append_of_inert hst
        (fun b hb => Text.inert_of_mem_utf8Char hc hb) (Text.utf8Char_ne_nil c),
        closeGroup?_cons_of_inert hst hc, ih hst.settle, Option.map_map, Option.map_map]
      rfl
    · have hlt := lt_of_not_inert hc
      rw [Text.utf8_cons, Text.utf8Char_of_lt hlt, List.singleton_append]
      cases st with
      | code =>
        simp only [closeGroup?]
        split
        · rfl
        · rw [ih Quoting.plain_code, Option.map_map, Option.map_map]
          rfl
        · rw [ih Quoting.plain_code, Option.map_map, Option.map_map]
          rfl
        · rw [ih (hst.next c), Option.map_map, Option.map_map]
          simp [Function.comp_def, Prod.map, Text.utf8Char_of_lt hlt]
      | literal q | escape q =>
        simp only [closeGroup?]
        rw [ih (hst.next c), Option.map_map, Option.map_map]
        simp [Function.comp_def, Prod.map, Text.utf8Char_of_lt hlt]

/-- Taking a round group apart by bytes is taking it apart by characters. -/
theorem takeGroup?_utf8 (t : List Char) :
    takeGroup? (Text.utf8 t) = (takeGroup? t).map (Prod.map Text.utf8 Text.utf8) := by
  cases t with
  | nil => rfl
  | cons c t =>
    by_cases hopen : c = '('
    · subst hopen
      rw [Text.utf8_cons, Text.utf8Char_of_lt (by decide), List.singleton_append]
      exact closeGroup?_utf8 Quoting.plain_code 0 t
    · -- no byte of another character is an opening bracket
      have hhead : ∀ b ∈ Text.utf8Char c, b ≠ '(' := by
        intro b hb
        by_cases hc : Inert c
        · exact (Text.inert_of_mem_utf8Char hc hb).ne (by decide)
        · rw [Text.utf8Char_of_lt (lt_of_not_inert hc), List.mem_singleton] at hb
          rwa [hb]
      obtain ⟨b, bs, hbs⟩ := List.exists_cons_of_ne_nil (Text.utf8Char_ne_nil c)
      have hb : b ≠ '(' := hhead b (by simp [hbs])
      rw [Text.utf8_cons, hbs, List.cons_append]
      simp [takeGroup?, hopen, hb]

/-! ## Outer separators -/

/-- Is it the same character, or are both inert? -/
def Alike (a b : Option Char) : Prop := a = b ∨ (∃ c d, a = some c ∧ b = some d ∧ Inert c ∧ Inert d)

theorem bracketValue_of_inert {c : Char} (hc : Inert c) (prev : Char) :
    bracketValue prev c = 0 := by
  have h := fun d hd => hc.ne (d := d) hd
  simp [bracketValue, h '(' (by decide), h '[' (by decide), h '\x7b' (by decide),
    h '<' (by decide), h ')' (by decide), h ']' (by decide), h '}' (by decide), h '>' (by decide)]

theorem Alike.bracketValue {a b : Option Char} (h : Alike a b) (c : Char) :
    bracketValue (a.getD '\x00') c = bracketValue (b.getD '\x00') c := by
  rcases h with rfl | ⟨p, q, rfl, rfl, hp, hq⟩
  · rfl
  · -- only an equals sign in front matters, and neither is one
    simp [CodeAtlas.bracketValue, hp.ne (show '='.toNat < 128 by decide),
      hq.ne (show '='.toNat < 128 by decide)]

theorem Alike.any {a b : Option Char} (h : Alike a b) {p : Char → Bool}
    (hp : ∀ c, Inert c → p c = false) : a.any p = b.any p := by
  rcases h with rfl | ⟨c, d, rfl, rfl, hc, hd⟩
  · rfl
  · simp [hp c hc, hp d hd]

theorem alike_head?_utf8 (t : List Char) : Alike (Text.utf8 t).head? t.head? := by
  cases t with
  | nil => exact .inl rfl
  | cons c t =>
    by_cases hc : Inert c
    · obtain ⟨b, bs, hbs⟩ := List.exists_cons_of_ne_nil (Text.utf8Char_ne_nil c)
      refine .inr ⟨b, c, by simp [hbs], rfl, ?_, hc⟩
      exact Text.inert_of_mem_utf8Char hc (by simp [hbs])
    · exact .inl (by simp [Text.utf8Char_of_lt (lt_of_not_inert hc)])

theorem Alike.standsAlone {a b : Option Char} (h : Alike a b) (sep : Char) (t : List Char) :
    standsAlone sep a (Text.utf8 t) = standsAlone sep b t := by
  have hprev : a.any (fun p => p = '=' || p = '!' || p = '<' || p = '>')
      = b.any (fun p => p = '=' || p = '!' || p = '<' || p = '>') :=
    h.any fun c hc => by
      simp [hc.ne (show '='.toNat < 128 by decide), hc.ne (show '!'.toNat < 128 by decide),
        hc.ne (show '<'.toNat < 128 by decide), hc.ne (show '>'.toNat < 128 by decide)]
  have hnext : (Text.utf8 t).head?.any (fun n => n = '>' || n = '=')
      = t.head?.any (fun n => n = '>' || n = '=') :=
    (alike_head?_utf8 t).any fun c hc => by
      simp [hc.ne (show '='.toNat < 128 by decide), hc.ne (show '>'.toNat < 128 by decide)]
  simp only [CodeAtlas.standsAlone, isCompound, hprev, hnext]

section Separator

variable {sep : Char}

/-- Does the separator stand here for itself? -/
abbrev separatesAt (sep : Char) (prev : Option Char) (c : Char) (rest : List Char) : Bool :=
  c = sep && standsAlone sep prev rest

theorem cutOuterFrom?_cons_of_inert {st : Quoting} {c : Char} (hsep : sep.toNat < 128)
    (hst : st.Plain) (hc : Inert c) (depth : Int) (prev : Option Char) (t : List Char) :
    cutOuterFrom? (separatesAt sep) st depth prev (c :: t)
      = (cutOuterFrom? (separatesAt sep) st.settle depth (some c) t).map
          fun p => (c :: p.1, p.2) := by
  cases st with
  | code =>
    simp [cutOuterFrom?, Quoting.not_isQuote_of_inert hc, bracketValue_of_inert hc, hc.ne hsep,
      Quoting.settle]
  | literal q => rw [cutOuterFrom?, Quoting.next_of_inert hst hc]; simp
  | escape q => rw [cutOuterFrom?, Quoting.next_of_inert hst hc]; simp

/-- Behind inert characters only that they are inert is known of the one in front. -/
theorem cutOuterFrom?_append_of_inert {st : Quoting} {bs : List Char} (hsep : sep.toNat < 128)
    (hst : st.Plain) (hbs : ∀ b ∈ bs, Inert b) (hne : bs ≠ []) (depth : Int) (prev : Option Char)
    (t : List Char) :
    ∃ b, Inert b ∧ cutOuterFrom? (separatesAt sep) st depth prev (bs ++ t)
      = (cutOuterFrom? (separatesAt sep) st.settle depth (some b) t).map
          fun p => (bs ++ p.1, p.2) := by
  induction bs generalizing st prev with
  | nil => exact absurd rfl hne
  | cons b bs ih =>
    obtain ⟨hb, hbs⟩ := List.forall_mem_cons.mp hbs
    rw [List.cons_append, cutOuterFrom?_cons_of_inert hsep hst hb]
    by_cases hnil : bs = []
    · subst hnil
      exact ⟨b, hb, rfl⟩
    · obtain ⟨b', hb', heq⟩ := ih hst.settle hbs hnil (some b)
      refine ⟨b', hb', ?_⟩
      rw [heq, Option.map_map, Quoting.settle_settle]
      rfl

theorem cutOuterFrom?_utf8 {st : Quoting} {a b : Option Char} (hsep : sep.toNat < 128)
    (hst : st.Plain) (hab : Alike a b) (depth : Int) (t : List Char) :
    cutOuterFrom? (separatesAt sep) st depth a (Text.utf8 t)
      = (cutOuterFrom? (separatesAt sep) st depth b t).map (Prod.map Text.utf8 Text.utf8) := by
  induction t generalizing st depth a b with
  | nil => simp [cutOuterFrom?]
  | cons c t ih =>
    by_cases hc : Inert c
    · obtain ⟨p, hp, heq⟩ := cutOuterFrom?_append_of_inert hsep hst
        (fun b hb => Text.inert_of_mem_utf8Char hc hb) (Text.utf8Char_ne_nil c) depth a
        (Text.utf8 t)
      rw [Text.utf8_cons, heq, cutOuterFrom?_cons_of_inert hsep hst hc,
        ih hst.settle (.inr ⟨p, c, rfl, rfl, hp, hc⟩), Option.map_map, Option.map_map]
      rfl
    · have hlt := lt_of_not_inert hc
      have hcons : (Text.utf8 (c :: t)) = c :: Text.utf8 t := by
        rw [Text.utf8_cons, Text.utf8Char_of_lt hlt, List.singleton_append]
      have hpush : (fun p : List Char × List Char => (c :: p.1, p.2)) ∘ Prod.map Text.utf8 Text.utf8
          = Prod.map Text.utf8 Text.utf8 ∘ fun p => (c :: p.1, p.2) := by
        funext p
        simp [Prod.map, Text.utf8Char_of_lt hlt]
      rw [hcons]
      cases st with
      | code =>
        -- what stands in front may be another byte now, but counts the same
        have hsame : separatesAt sep a c (Text.utf8 t) = separatesAt sep b c t := by
          simp only [separatesAt, hab.standsAlone sep t]
        simp only [cutOuterFrom?, hab.bracketValue c, hsame]
        split
        · rename_i hquote
          rw [ih (Quoting.plain_literal hquote) (.inl rfl),
            Option.map_map, Option.map_map, hpush]
        · split
          · simp [Text.utf8Char_of_lt hlt]
          · rw [ih Quoting.plain_code (.inl rfl), Option.map_map, Option.map_map, hpush]
      | literal q =>
        simp only [cutOuterFrom?]
        rw [ih (hst.next c) (.inl rfl), Option.map_map, Option.map_map, hpush]
      | escape q =>
        simp only [cutOuterFrom?]
        rw [ih (hst.next c) (.inl rfl), Option.map_map, Option.map_map, hpush]

theorem cutOuterFrom?_spec {f : Option Char → Char → List Char → Bool} {st : Quoting} {depth : Int}
    {prev : Option Char} {t l r : List Char} (h : cutOuterFrom? f st depth prev t = some (l, r)) :
    t = l ++ r ∧ ∃ prev' c r', r = c :: r' ∧ f prev' c r' = true := by
  induction t generalizing st depth prev l with
  | nil => simp [cutOuterFrom?] at h
  | cons c t ih =>
    -- a character that does not cut is put in front of what is cut off behind it
    have hmap : ∀ {st' : Quoting} {depth' : Int},
        ((cutOuterFrom? f st' depth' (some c) t).map fun p => (c :: p.1, p.2)) = some (l, r) →
          c :: t = l ++ r ∧ ∃ prev' c r', r = c :: r' ∧ f prev' c r' = true := by
      intro st' depth' hmap
      obtain ⟨⟨l', r'⟩, hcut, heq⟩ := Option.map_eq_some_iff.mp hmap
      obtain ⟨rfl, rfl⟩ := Prod.mk.inj heq
      obtain ⟨happ, hsep⟩ := ih hcut
      exact ⟨by rw [happ, List.cons_append], hsep⟩
    cases st with
    | code =>
      simp only [cutOuterFrom?] at h
      split at h
      · exact hmap h
      · split at h
        · rename_i hends
          obtain ⟨rfl, rfl⟩ := Prod.mk.inj (Option.some.inj h)
          exact ⟨rfl, prev, c, t, rfl, (Bool.and_eq_true_iff.mp hends).2⟩
        · exact hmap h
    | literal q | escape q => exact hmap h

/-- An outer cut leaves out the separator and nothing else. -/
theorem append_of_cutOuter? {t l r : List Char} (h : cutOuter? sep t = some (l, r)) :
    t = l ++ sep :: r := by
  obtain ⟨⟨l', r'⟩, hcut, heq⟩ := Option.map_eq_some_iff.mp h
  obtain ⟨rfl, rfl⟩ := Prod.mk.inj heq
  obtain ⟨happ, prev, c, rest, rfl, hsep⟩ := cutOuterFrom?_spec hcut
  obtain ⟨hc, -⟩ := Bool.and_eq_true_iff.mp hsep
  rw [happ, of_decide_eq_true hc]
  rfl

/-- Cutting at an outer separator in ASCII by bytes is cutting by characters. -/
theorem cutOuter?_utf8 (hsep : sep.toNat < 128) (t : List Char) :
    cutOuter? sep (Text.utf8 t) = (cutOuter? sep t).map (Prod.map Text.utf8 Text.utf8) := by
  have heq := cutOuterFrom?_utf8 hsep Quoting.plain_code (.inl rfl : Alike none none) 0 t
  have hdrop : ∀ p, cutOuterFrom? (separatesAt sep) .code 0 none t = some p →
      (Text.utf8 p.2).drop 1 = Text.utf8 (p.2.drop 1) := by
    rintro ⟨l, r⟩ hcut
    obtain ⟨-, prev, c, rest, rfl, hsepc⟩ := cutOuterFrom?_spec hcut
    -- the separator is one byte
    have hc : c = sep := of_decide_eq_true (Bool.and_eq_true_iff.mp hsepc).1
    subst hc
    simp [Text.utf8Char_of_lt hsep]
  show (cutOuterFrom? (separatesAt sep) .code 0 none (Text.utf8 t)).map _
    = ((cutOuterFrom? (separatesAt sep) .code 0 none t).map _).map _
  rw [heq, Option.map_map, Option.map_map]
  cases hcut : cutOuterFrom? (separatesAt sep) .code 0 none t with
  | none => rfl
  | some p =>
    have := hdrop p hcut
    simp only [Option.map_some, Function.comp_apply, Prod.map, this]

end Separator

/-! ## Quotes -/

/-- A docstring is read from behind its opening quote. -/
theorem Docstring.append_of_opening? {t quote rest : List Char}
    (h : Docstring.opening? t = some (quote, rest)) : t = quote ++ rest ∧ quote.length = 3 := by
  unfold Docstring.opening? at h
  split at h
  · obtain ⟨rfl, rfl⟩ := Prod.mk.inj (Option.some.inj h)
    exact ⟨rfl, rfl⟩
  · obtain ⟨rfl, rfl⟩ := Prod.mk.inj (Option.some.inj h)
    exact ⟨rfl, rfl⟩
  · simp at h

end CodeAtlas
