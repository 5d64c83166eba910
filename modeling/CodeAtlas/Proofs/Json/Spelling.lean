/-
What a written text says, token by token.

The lexer has as many steps as the text has characters, and a written text is made of
pieces that know nothing of that number. So the first thing is that the number does not
matter once it is large enough: every token takes at least a character
(`length_lt_of_readToken`), and the tokens of a text are the first one and those of the rest
(`tokens?_of_readToken`). From there on a piece of text has its tokens whatever follows
it (`Lexes`), with one exception: a number goes on as long as it can, so what follows it
must end it (`EndsNumber`). Everything that the printer puts behind a value does.
-/
import CodeAtlas.Json.Printer
import CodeAtlas.Json.Token
import Mathlib.Data.List.Basic
import Mathlib.Data.List.Infix

set_option autoImplicit false

namespace CodeAtlas.Json

/-! ## Every token takes a character -/

theorem length_lt_of_readText {seen t rest : List Char} {s : String}
    (h : readText seen t = some (s, rest)) : rest.length < t.length := by
  fun_induction readText seen t
  case case2 =>
    -- the closing quote
    obtain ⟨-, rfl⟩ : _ ∧ _ = rest := by simpa using h
    simp
  -- what is no text is refused; otherwise at least a character stands in front of the text
  -- that is read on
  all_goals first
    | cases h
    | (rename_i ih
       have := ih h
       simp only [List.length_cons]
       omega)

theorem length_le_of_readPlaces {t rest : List Char} {places : Option (List Char)}
    (h : readPlaces t = some (places, rest)) : rest.length ≤ t.length := by
  unfold readPlaces at h
  have hdrop := fun t : List Char => (List.dropWhile_suffix (l := t) Char.isDigit).length_le
  grind

theorem length_le_of_readSign (t : List Char) : (readSign t).2.length ≤ t.length := by
  unfold readSign
  split <;> simp

theorem length_le_of_readExponent {t rest : List Char} {e : Option (Bool × List Char)}
    (h : readExponent t = some (e, rest)) : rest.length ≤ t.length := by
  unfold readExponent at h
  have hdrop := fun t : List Char => (List.dropWhile_suffix (l := t) Char.isDigit).length_le
  have hsign := length_le_of_readSign
  grind

theorem length_lt_of_readNumber {negative : Bool} {t rest : List Char} {token : Token}
    (h : readNumber negative t = some (token, rest)) : rest.length < t.length := by
  rw [readNumber] at h
  obtain ⟨_, hguard, h⟩ := Option.bind_eq_some_iff.mp h
  obtain ⟨⟨places, t₁⟩, hplaces, h⟩ := Option.bind_eq_some_iff.mp h
  obtain ⟨⟨e, t₂⟩, hexponent, h⟩ := Option.bind_eq_some_iff.mp h
  obtain ⟨token', -, h⟩ := Option.bind_eq_some_iff.mp h
  obtain ⟨-, rfl⟩ : token' = token ∧ t₂ = rest := by simpa using h
  have hwhole : t.takeWhile Char.isDigit ≠ [] := by
    -- a number without digits is refused
    intro hnil
    rw [hnil] at hguard
    cases hguard
  have hlen : (t.takeWhile Char.isDigit).length + (t.dropWhile Char.isDigit).length = t.length := by
    rw [← List.length_append, List.takeWhile_append_dropWhile]
  have := List.length_pos_iff.mpr hwhole
  have := length_le_of_readPlaces hplaces
  have := length_le_of_readExponent hexponent
  omega

theorem length_lt_of_readToken {t rest : List Char} {token : Token}
    (h : readToken t = some (token, rest)) : rest.length < t.length := by
  unfold readToken at h
  split at h
  -- a text, a number behind its sign, a number; all other tokens are words of their own
  case h_7 =>
    obtain ⟨⟨s, rest'⟩, htext, heq⟩ := Option.map_eq_some_iff.mp h
    obtain ⟨-, rfl⟩ : Token.str s = token ∧ rest' = rest := by simpa using heq
    exact Nat.lt_succ_of_lt (length_lt_of_readText htext)
  case h_11 => exact Nat.lt_succ_of_lt (length_lt_of_readNumber h)
  case h_12 => exact length_lt_of_readNumber h
  all_goals
    obtain ⟨-, rfl⟩ : _ ∧ _ = rest := by simpa using h
    simp only [List.length_cons]
    omega

/-! ## The tokens of a text -/

theorem tokensFrom_of_blank {t : List Char} (h : t.dropWhile isSpace = []) (fuel : Nat)
    (seen : List Token) : tokensFrom fuel t seen = some seen.reverse := by
  rw [tokensFrom.eq_def, h]

theorem tokensFrom_succ {t : List Char} (h : t.dropWhile isSpace ≠ []) (fuel : Nat)
    (seen : List Token) :
    tokensFrom (fuel + 1) t seen =
      (readToken (t.dropWhile isSpace)).bind fun r => tokensFrom fuel r.2 (r.1 :: seen) := by
  rw [tokensFrom.eq_def]
  cases hrest : t.dropWhile isSpace with
  | nil => exact absurd hrest h
  | cons c t => cases htoken : readToken (c :: t) <;> simp [htoken]

/-- With as many steps as the text has characters there are as many as with more of them,
and the tokens that are read already stand in front. -/
theorem tokensFrom_eq {fuel : Nat} {t : List Char} (hfuel : t.length ≤ fuel)
    (seen : List Token) : tokensFrom fuel t seen = (tokens? t).map (seen.reverse ++ ·) := by
  -- the induction is on the text, of which a token leaves less
  generalize hn : t.length = n
  induction n using Nat.strong_induction_on generalizing fuel t seen with
  | _ n ih =>
    by_cases hblank : t.dropWhile isSpace = []
    · simp [tokens?, tokensFrom_of_blank hblank]
    have hle : (t.dropWhile isSpace).length ≤ t.length :=
      (List.dropWhile_suffix isSpace).length_le
    have hpos : 0 < (t.dropWhile isSpace).length := List.length_pos_iff.mpr hblank
    obtain ⟨m, rfl⟩ : ∃ m, n = m + 1 := ⟨n - 1, by omega⟩
    obtain ⟨fuel, rfl⟩ : ∃ k, fuel = k + 1 := ⟨fuel - 1, by omega⟩
    rw [tokens?, hn, tokensFrom_succ hblank, tokensFrom_succ hblank]
    cases htoken : readToken (t.dropWhile isSpace) with
    | none => rfl
    | some r =>
      have hlt := length_lt_of_readToken htoken
      rw [Option.bind_some, Option.bind_some, ih _ (by omega) (by omega) _ rfl,
        ih _ (by omega) (by omega) _ rfl, Option.map_map]
      simp [Function.comp_def]

@[simp] theorem tokens?_nil : tokens? [] = some [] := rfl

theorem tokens?_cons_of_isSpace {c : Char} (h : isSpace c = true) (t : List Char) :
    tokens? (c :: t) = tokens? t := by
  have hdrop : (c :: t).dropWhile isSpace = t.dropWhile isSpace := by
    rw [List.dropWhile_cons, if_pos h]
  have hmore := tokensFrom_eq (Nat.le_succ t.length) []
  rw [tokens?, List.length_cons]
  by_cases hblank : t.dropWhile isSpace = []
  · rw [tokensFrom_of_blank (hdrop.trans hblank), tokens?, tokensFrom_of_blank hblank]
  · rw [tokensFrom_succ (by rwa [hdrop]), hdrop, ← tokensFrom_succ hblank, hmore]
    simp

/-- No token begins with a blank. -/
theorem dropWhile_isSpace_of_readToken {t rest : List Char} {token : Token}
    (h : readToken t = some (token, rest)) : t.dropWhile isSpace = t := by
  cases t with
  | nil => rfl
  | cons c t =>
    by_cases hc : isSpace c = true
    · have hblank : c = ' ' ∨ c = '\n' ∨ c = '\t' ∨ c = '\r' := by
        simpa [isSpace, or_assoc] using hc
      -- it would be a number without digits
      rcases hblank with rfl | rfl | rfl | rfl <;> cases h
    · rw [List.dropWhile_cons, if_neg hc]

/-- The first token of a text that begins with one, and the tokens of the rest. -/
theorem tokens?_of_readToken {t rest : List Char} {token : Token}
    (h : readToken t = some (token, rest)) : tokens? t = (tokens? rest).map (token :: ·) := by
  have hblank := dropWhile_isSpace_of_readToken h
  have hlt := length_lt_of_readToken h
  obtain ⟨n, hn⟩ : ∃ n, t.length = n + 1 := ⟨t.length - 1, by omega⟩
  have hne : t.dropWhile isSpace ≠ [] := by
    rw [hblank]
    exact List.ne_nil_of_length_eq_add_one hn
  have hrest : rest.length ≤ n := by omega
  rw [tokens?, hn, tokensFrom_succ hne, hblank, h, Option.bind_some, tokensFrom_eq hrest]
  rfl

/-! ## Texts -/

theorem hexFour?_hexDigit {n : Nat} (h : n < 0x20) :
    hexFour? '0' '0' (hexDigit (n / 16)) (hexDigit n) = some n := by
  have hall : ∀ n < 0x20, hexFour? '0' '0' (hexDigit (n / 16)) (hexDigit n) = some n := by
    decide
  exact hall n h

/-- A character that is written for itself is read as itself. -/
theorem readText_cons {c : Char} (hquote : c ≠ '"') (hback : c ≠ '\\') (hctl : ¬ c.toNat < 0x20)
    (seen t : List Char) : readText seen (c :: t) = readText (c :: seen) t := by
  rw [readText.eq_def]
  split
  case h_5 heq =>
    obtain ⟨rfl, rfl⟩ := List.cons.inj heq
    rw [if_neg hctl]
  all_goals simp_all

theorem readText_escapeChar (c : Char) (seen t : List Char) :
    readText seen (escapeChar c ++ t) = readText (c :: seen) t := by
  unfold escapeChar
  -- the seven characters with an escape of their own
  repeat (split; · subst_vars; simp [readText, shortEscape?])
  split
  case isTrue hctl =>
    have hlow : isLowHalf c.toNat = false := by simp [isLowHalf]; omega
    have hhigh : isHighHalf c.toNat = false := by simp [isHighHalf]; omega
    simp only [List.cons_append, List.nil_append]
    rw [readText, hexFour?_hexDigit hctl]
    simp [hlow, hhigh]
  case isFalse hquote hback _ _ _ _ _ hctl =>
    exact readText_cons hquote hback hctl seen t

theorem readText_quoted (cs seen t : List Char) :
    readText seen (cs.flatMap escapeChar ++ '"' :: t) =
      some (String.ofList (seen.reverse ++ cs), t) := by
  induction cs generalizing seen with
  | nil => simp [readText]
  | cons c cs ih =>
    rw [List.flatMap_cons, List.append_assoc, readText_escapeChar, ih]
    simp

/-- A text between quotes is read as the text that was written. -/
theorem readToken_quote (s : String) (t : List Char) :
    readToken ((quote s).toList ++ t) = some (.str s, t) := by
  rw [quote, String.toList_ofList, List.cons_append, List.append_assoc, List.singleton_append,
    readToken, readText_quoted]
  simp

/-! ## Integers -/

/-- Is a number that stands in front of the character longer for it? -/
def continuesNumber (c : Char) : Bool := c.isDigit || c = '.' || c = 'e' || c = 'E'

/-- A number in front of the text ends there. -/
def EndsNumber (t : List Char) : Prop := ∀ c ∈ t.head?, continuesNumber c = false

@[simp] theorem endsNumber_nil : EndsNumber [] := by simp [EndsNumber]

@[simp] theorem endsNumber_cons {c : Char} {t : List Char} :
    EndsNumber (c :: t) ↔ continuesNumber c = false := by simp [EndsNumber]

theorem le_ofDigitChars (ds : List Char) (value : Nat) : value ≤ Nat.ofDigitChars 10 ds value := by
  induction ds generalizing value with
  | nil => simp
  | cons d ds ih =>
    rw [Nat.ofDigitChars_cons]
    have := ih (10 * value + (d.toNat - '0'.toNat))
    omega

/-- Digits that write a number that fits into a word are all taken. -/
theorem takeDigits_of_le {ds : List Char} {value : Nat}
    (h : Nat.ofDigitChars 10 ds value ≤ maxWord) :
    takeDigits value ds = (Nat.ofDigitChars 10 ds value, []) := by
  induction ds generalizing value with
  | nil => simp [takeDigits]
  | cons d ds ih =>
    have hnext : value * 10 + digitValue d = 10 * value + (d.toNat - '0'.toNat) := by
      rw [digitValue, Nat.mul_comm]
    rw [Nat.ofDigitChars_cons] at h ⊢
    have hle := (le_ofDigitChars ds _).trans h
    rw [takeDigits, hnext, if_pos hle, ih h]

theorem digitChar_ne_zero {n : Nat} (hpos : 0 < n) (h : n < 10) : n.digitChar ≠ '0' := by
  have hall : ∀ n < 10, 0 < n → n.digitChar ≠ '0' := by decide
  exact hall n h hpos

/-- A number that is not zero is written without a zero in front. -/
theorem head?_toDigits_ne {n : Nat} (h : 0 < n) : (Nat.toDigits 10 n).head? ≠ some '0' := by
  induction n using Nat.strong_induction_on with
  | _ n ih =>
    by_cases hsmall : n < 10
    · rw [Nat.toDigits_of_lt_base hsmall]
      simpa using digitChar_ne_zero h hsmall
    · have hne : Nat.toDigits 10 (n / 10) ≠ [] := Nat.toDigits_ne_nil
      rw [Nat.toDigits_of_base_le (by omega) (by omega), List.head?_append_of_ne_nil _ hne]
      exact ih (n / 10) (by omega) (by omega)

theorem readPlaces_of_endsNumber {t : List Char} (h : EndsNumber t) :
    readPlaces t = some (none, t) := by
  unfold readPlaces
  split
  · simp [continuesNumber] at h
  · rfl

theorem readExponent_of_endsNumber {t : List Char} (h : EndsNumber t) :
    readExponent t = some (none, t) := by
  unfold readExponent
  split
  · simp_all [continuesNumber]
  · rfl

/-- What is read is the number that the digits write. -/
theorem readNumber_toDigits (negative : Bool) (n : Nat) {t : List Char} (hends : EndsNumber t) :
    readNumber negative (Nat.toDigits 10 n ++ t) =
      (Written.token? ⟨negative, Nat.toDigits 10 n, none, none⟩).map (·, t) := by
  have hdigit : ∀ c ∈ Nat.toDigits 10 n, c.isDigit = true :=
    fun c hc => Nat.isDigit_of_mem_toDigits (by omega) (by omega) hc
  have hrest : t.takeWhile Char.isDigit = [] ∧ t.dropWhile Char.isDigit = t := by
    cases t with
    | nil => exact ⟨rfl, rfl⟩
    | cons c t => simp_all [continuesNumber]
  have htake : (Nat.toDigits 10 n ++ t).takeWhile Char.isDigit = Nat.toDigits 10 n := by
    rw [List.takeWhile_append_of_pos hdigit, hrest.1, List.append_nil]
  have hdrop : (Nat.toDigits 10 n ++ t).dropWhile Char.isDigit = t := by
    rw [List.dropWhile_append_of_pos hdigit, hrest.2]
  have hlead : (Nat.toDigits 10 n).head? ≠ some '0' ∨ (Nat.toDigits 10 n).length = 1 := by
    -- only zero itself begins with a zero
    by_cases hzero : n = 0
    · exact .inr (by rw [hzero]; rfl)
    · exact .inl (head?_toDigits_ne (Nat.pos_of_ne_zero hzero))
  have hne : (Nat.toDigits 10 n) ≠ [] := Nat.toDigits_ne_nil
  have hguard : (guard ((!(Nat.toDigits 10 n).isEmpty && ((Nat.toDigits 10 n).head? ≠ some '0' ||
      (Nat.toDigits 10 n).length = 1)) = true) : Option Unit) = some () := by
    refine if_pos ?_
    simpa [hne] using hlead
  rw [readNumber, htake, hdrop, hguard]
  simp only [readPlaces_of_endsNumber hends, readExponent_of_endsNumber hends, Option.pure_def,
    Option.bind_eq_bind, Option.bind_some]
  cases Written.token? ⟨negative, Nat.toDigits 10 n, none, none⟩ <;> rfl

/-- The value of digits without a point and an exponent, as far as it fits into a word. -/
theorem digits_toDigits {n : Nat} (h : n ≤ maxWord) (negative : Bool) :
    Written.digits ⟨negative, Nat.toDigits 10 n, none, none⟩ = (n, 0) := by
  have hvalue : Nat.ofDigitChars 10 (Nat.toDigits 10 n) 0 = n :=
    Nat.ofDigitChars_toDigits (by omega) (by omega)
  rw [Written.digits, takeDigits_of_le (hvalue.trans_le h), hvalue]
  rfl

theorem readToken_of_isDigit {c : Char} (h : c.isDigit = true) (t : List Char) :
    readToken (c :: t) = readNumber false (c :: t) := by
  rw [readToken.eq_def]
  split <;> simp_all [Char.isDigit]

theorem readToken_toDigits {n : Nat} (h : n ≤ maxWord) {t : List Char} (hends : EndsNumber t) :
    readToken (Nat.toDigits 10 n ++ t) = some (.int n, t) := by
  have hnumber : readNumber false (Nat.toDigits 10 n ++ t) = some (.int n, t) := by
    rw [readNumber_toDigits _ _ hends, Written.token?, digits_toDigits h]
    rfl
  cases hdigits : Nat.toDigits 10 n with
  | nil => exact absurd hdigits Nat.toDigits_ne_nil
  | cons d ds =>
    have hd : d.isDigit = true :=
      Nat.isDigit_of_mem_toDigits (by omega) (by omega) (hdigits ▸ List.mem_cons_self)
    rw [hdigits] at hnumber
    rw [List.cons_append, readToken_of_isDigit hd, ← List.cons_append, hnumber]

theorem readToken_minus {n : Nat} (hpos : 0 < n) (h : n ≤ Nat.pow 2 63) {t : List Char}
    (hends : EndsNumber t) :
    readToken ('-' :: (Nat.toDigits 10 n ++ t)) = some (.int (-n), t) := by
  have hfits : n ≤ maxWord := h.trans (by decide)
  have hnegative : (0 < n && n ≤ Nat.pow 2 63) = true := by
    rw [decide_eq_true hpos, decide_eq_true h]
    rfl
  rw [readToken, readNumber_toDigits _ _ hends, Written.token?, digits_toDigits hfits]
  simp only [hnegative]
  rfl

/-- An integer that fits into sixty-four bits is read as the integer that was written. -/
theorem readToken_int {n : Int} (hlow : -(Nat.pow 2 63 : Int) ≤ n) (hhigh : n ≤ maxWord)
    {t : List Char} (hends : EndsNumber t) :
    readToken ((toString n).toList ++ t) = some (.int n, t) := by
  rw [Int.toString_eq_repr, Int.repr_eq_if]
  by_cases hpos : 0 ≤ n
  · rw [if_pos hpos, Nat.repr_eq_ofList_toDigits, String.toList_ofList,
      readToken_toDigits (by omega) hends, Int.toNat_of_nonneg hpos]
  · have hminus : readToken ('-' :: (Nat.toDigits 10 (-n).toNat ++ t)) =
        some (.int (-(-n).toNat), t) := readToken_minus (by omega) (by omega) hends
    rw [Int.toNat_of_nonneg (by omega), Int.neg_neg] at hminus
    rw [if_neg hpos, String.toList_append, Nat.repr_eq_ofList_toDigits]
    simpa using hminus

/-! ## Pieces of text -/

/-- The piece has the tokens, whatever text follows it. -/
def Lexes (w : List Char) (ts : List Token) : Prop :=
  ∀ rest, EndsNumber rest → tokens? (w ++ rest) = (tokens? rest).map (ts ++ ·)

theorem Lexes.nil : Lexes [] [] := by
  intro rest _
  simp

theorem Lexes.tokens? {w : List Char} {ts : List Token} (h : Lexes w ts) :
    Json.tokens? w = some ts := by
  simpa using h [] endsNumber_nil

/-- Two pieces behind each other; the second one must not go on a number of the first. -/
theorem Lexes.append {w w' : List Char} {ts ts' : List Token} {c : Char} (h : Lexes w ts)
    (hc : continuesNumber c = false) (h' : Lexes (c :: w') ts') :
    Lexes (w ++ c :: w') (ts ++ ts') := by
  intro rest hrest
  have hends : EndsNumber (c :: w' ++ rest) := endsNumber_cons.mpr hc
  rw [List.append_assoc, h _ hends, h' rest hrest, Option.map_map]
  simp [Function.comp_def]

/-- A bracket, a comma or a colon takes nothing of what follows it. -/
theorem Lexes.cons {w : List Char} {ts : List Token} {c : Char} {token : Token}
    (htoken : ∀ t, readToken (c :: t) = some (token, t)) (h : Lexes w ts) :
    Lexes (c :: w) (token :: ts) := by
  intro rest hrest
  rw [List.cons_append, tokens?_of_readToken (htoken _), h rest hrest, Option.map_map]
  rfl

/-- Blanks in front do not count. -/
theorem Lexes.blanks {w bs : List Char} {ts : List Token} (hbs : ∀ c ∈ bs, isSpace c = true)
    (h : Lexes w ts) : Lexes (bs ++ w) ts := by
  intro rest hrest
  induction bs with
  | nil => exact h rest hrest
  | cons b bs ih =>
    rw [List.cons_append, List.cons_append, tokens?_cons_of_isSpace (hbs b List.mem_cons_self)]
    exact ih fun c hc => hbs c (List.mem_cons_of_mem _ hc)

/-- A piece that is one token. -/
theorem lexes_of_readToken {w : List Char} {token : Token}
    (h : ∀ rest, EndsNumber rest → readToken (w ++ rest) = some (token, rest)) :
    Lexes w [token] := by
  intro rest hrest
  exact tokens?_of_readToken (h rest hrest)

theorem lexes_quote (s : String) : Lexes (quote s).toList [.str s] :=
  lexes_of_readToken fun rest _ => readToken_quote s rest

theorem lexes_int {n : Int} (hlow : -(Nat.pow 2 63 : Int) ≤ n) (hhigh : n ≤ maxWord) :
    Lexes (toString n).toList [.int n] :=
  lexes_of_readToken fun _ hrest => readToken_int hlow hhigh hrest

end CodeAtlas.Json
