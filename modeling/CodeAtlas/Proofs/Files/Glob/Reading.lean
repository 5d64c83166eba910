/-
How globs are read.

`Reads` is the reader of globs without its counts: one rule for each kind of token, and none
where a text is refused. It and the reader agree (`parse_eq_ok_iff`), so that a law about what
is read is an induction on `Reads`. The first such law is that two stars stand only where a
name begins, which is what matching relies on.
-/
import CodeAtlas.Proofs.Files.Glob.Meaning
import CodeAtlas.Proofs.Text.Bytes

set_option autoImplicit false

namespace CodeAtlas.Glob

/-! ## Reading a glob -/

/-- May two stars stand behind the character? -/
def Edge (prev : Option Char) : Prop := prev = none ∨ prev = some '/'

/-- Reading the text behind the character `prev`, with the tokens `seen` so far, backwards,
gives the tokens. -/
inductive Reads : Option Char → List GlobToken → List Char → List GlobToken → Prop where
  | done {prev : Option Char} {seen : List GlobToken} : Reads prev seen [] seen.reverse
  | anyChar {prev : Option Char} {seen ts : List GlobToken} {t : List Char} :
      Reads (some '?') (.anyChar :: seen) t ts → Reads prev seen ('?' :: t) ts
  | among {prev : Option Char} {seen ts : List GlobToken} {t rest : List Char}
      {token : GlobToken} : class? t = some (token, rest) →
      Reads (some ']') (token :: seen) rest ts → Reads prev seen ('[' :: t) ts
  | directoriesLast {prev : Option Char} {seen : List GlobToken} : Edge prev →
      Reads prev seen ['*', '*'] (pushDirectories seen).reverse
  | directories {prev : Option Char} {seen ts : List GlobToken} {t : List Char} : Edge prev →
      Reads (some '/') (pushDirectories seen) t ts → Reads prev seen ('*' :: '*' :: '/' :: t) ts
  | sequence {prev : Option Char} {seen ts : List GlobToken} {t : List Char} :
      t.head? ≠ some '*' →
      Reads (some '*') (.anySequence :: seen) t ts → Reads prev seen ('*' :: t) ts
  | char {prev : Option Char} {seen ts : List GlobToken} {c : Char} {t : List Char} :
      c ≠ '?' → c ≠ '[' → c ≠ '*' →
      Reads (some c) (.char c :: seen) t ts → Reads prev seen (c :: t) ts

theorem cut?_append {t before rest : List Char} {c : Char}
    (h : Text.cut? [c] t = some (before, rest)) (u : List Char) :
    Text.cut? [c] (t ++ u) = some (before, rest ++ u) := by
  induction t generalizing before with
  | nil => simp [Text.cut?] at h
  | cons d t ih =>
    rw [List.cons_append, Text.cut?]
    rw [Text.cut?] at h
    by_cases hd : c = d
    · subst hd
      simp only [Text.after?, if_true, Option.some.injEq, Prod.mk.injEq] at h ⊢
      obtain ⟨rfl, rfl⟩ := h
      exact ⟨rfl, rfl⟩
    · simp only [Text.after?, hd, if_false] at h ⊢
      obtain ⟨⟨before', rest'⟩, hcut, heq⟩ := Option.map_eq_some_iff.mp h
      obtain ⟨rfl, rfl⟩ := Prod.mk.inj heq
      rw [ih hcut]
      rfl

theorem classBody?_spec {t body rest : List Char} (h : classBody? t = some (body, rest)) :
    t = body ++ ']' :: rest ∧ body ≠ [] ∧
      ∀ u, classBody? (t ++ u) = some (body, rest ++ u) := by
  cases t with
  | nil => simp [classBody?] at h
  | cons c t =>
    simp only [classBody?] at h
    split at h
    · rename_i body' rest' hcut
      obtain ⟨rfl, rfl⟩ := Prod.mk.inj (Option.some.inj h)
      have ht := Text.append_of_cut? hcut
      refine ⟨by rw [ht]; simp, List.cons_ne_nil _ _, fun u => ?_⟩
      simp only [List.cons_append, classBody?, cut?_append hcut u]
    · cases h

/-- A class is read from the front of the text, whatever stands behind it, and is no star. -/
theorem class?_spec {t rest : List Char} {token : GlobToken} (h : class? t = some (token, rest)) :
    (∃ front, t = front ++ ']' :: rest) ∧ (∀ u, class? (t ++ u) = some (token, rest ++ u)) ∧
      token ≠ .anyDirectories := by
  unfold class? at h
  split at h
  · rename_i t
    obtain ⟨⟨body, rest'⟩, hbody, heq⟩ := Option.map_eq_some_iff.mp h
    obtain ⟨rfl, rfl⟩ := Prod.mk.inj heq
    obtain ⟨rfl, -, happend⟩ := classBody?_spec hbody
    refine ⟨⟨'!' :: body, rfl⟩, fun u => ?_, GlobToken.noConfusion⟩
    rw [List.cons_append, class?, happend u]
    rfl
  · rename_i hopen
    obtain ⟨⟨body, rest'⟩, hbody, heq⟩ := Option.map_eq_some_iff.mp h
    obtain ⟨rfl, rfl⟩ := Prod.mk.inj heq
    obtain ⟨ht, -, happend⟩ := classBody?_spec hbody
    refine ⟨⟨body, ht⟩, fun u => ?_, GlobToken.noConfusion⟩
    -- there is a first character, and it is no exclamation mark
    cases t with
    | nil => simp [classBody?] at hbody
    | cons c t =>
      rw [List.cons_append, class?, ← List.cons_append, happend u]
      · rfl
      · intro t' heq
        exact hopen t (by rw [(List.cons.inj heq).1])

theorem edge_iff {prev : Option Char} :
    Edge prev ↔ ¬ (prev.isSome && decide (prev ≠ some '/')) = true := by
  cases prev <;> simp [Edge]

theorem length_lt_of_class? {t rest : List Char} {token : GlobToken}
    (h : class? t = some (token, rest)) : rest.length < t.length := by
  obtain ⟨front, rfl⟩ := (class?_spec h).1
  rw [List.length_append, List.length_cons]
  omega

/-- What is read is what the reader finds; a step for each character is enough. -/
theorem reads_of_tokensFrom {fuel at_ : Nat} {prev : Option Char} {seen ts : List GlobToken}
    {t : List Char} (hfuel : t.length ≤ fuel) (h : tokensFrom fuel at_ prev seen t = .ok ts) :
    Reads prev seen t ts := by
  -- the cases that are not named answer with an error
  fun_induction tokensFrom fuel at_ prev seen t with
  | case1 =>
    obtain rfl := Except.ok.inj h
    exact .done
  | case2 at_ prev seen t hne => exact absurd (List.eq_nil_of_length_eq_zero (by omega)) hne
  | case3 at_ prev seen fuel t ih => exact .anyChar (ih (Nat.le_of_succ_le_succ hfuel) h)
  | case4 at_ prev seen fuel t token rest hclass ih =>
    have hlt := length_lt_of_class? hclass
    rw [List.length_cons] at hfuel
    exact .among hclass (ih (by omega) h)
  | case8 at_ prev seen fuel hedge =>
    obtain rfl := Except.ok.inj h
    exact .directoriesLast (edge_iff.mpr hedge)
  | case9 at_ prev seen fuel hedge t _ ih =>
    simp only [List.length_cons] at hfuel
    exact .directories (edge_iff.mpr hedge) (ih (by omega) h)
  | case11 at_ prev seen fuel t _ hone ih =>
    refine .sequence (fun hhead => ?_) (ih (Nat.le_of_succ_le_succ hfuel) h)
    obtain ⟨t', rfl⟩ := List.head?_eq_some_iff.mp hhead
    exact hone t' rfl
  | case12 at_ prev seen fuel c t hmark hclass _ _ hstar ih =>
    exact .char hmark hclass hstar (ih (Nat.le_of_succ_le_succ hfuel) h)
  | _ => cases h

theorem Reads.tokensFrom_eq {prev : Option Char} {seen ts : List GlobToken} {t : List Char}
    (h : Reads prev seen t ts) {fuel : Nat} (hfuel : t.length ≤ fuel) (at_ : Nat) :
    tokensFrom fuel at_ prev seen t = .ok ts := by
  induction h generalizing fuel at_ with
  | done => rw [tokensFrom]
  | anyChar hrest ih =>
    obtain ⟨fuel, rfl⟩ := Nat.exists_eq_add_of_le' (Nat.one_le_of_lt hfuel)
    rw [tokensFrom]
    exact ih (Nat.le_of_succ_le_succ hfuel) _
  | among hclass hrest ih =>
    obtain ⟨fuel, rfl⟩ := Nat.exists_eq_add_of_le' (Nat.one_le_of_lt hfuel)
    have hlt := length_lt_of_class? hclass
    rw [List.length_cons] at hfuel
    simp only [tokensFrom, hclass]
    exact ih (by omega) _
  | directoriesLast hedge =>
    obtain ⟨fuel, rfl⟩ := Nat.exists_eq_add_of_le' (Nat.one_le_of_lt hfuel)
    simp only [tokensFrom, if_neg (edge_iff.mp hedge)]
  | directories hedge hrest ih =>
    obtain ⟨fuel, rfl⟩ := Nat.exists_eq_add_of_le' (Nat.one_le_of_lt hfuel)
    simp only [List.length_cons] at hfuel
    simp only [tokensFrom, if_neg (edge_iff.mp hedge)]
    exact ih (by omega) _
  | @sequence prev seen ts t hone hrest ih =>
    obtain ⟨fuel, rfl⟩ := Nat.exists_eq_add_of_le' (Nat.one_le_of_lt hfuel)
    rw [tokensFrom]
    · exact ih (Nat.le_of_succ_le_succ hfuel) _
    · rintro t' rfl
      exact hone rfl
    · rintro t' rfl
      exact hone rfl
  | char hmark hclass hstar hrest ih =>
    obtain ⟨fuel, rfl⟩ := Nat.exists_eq_add_of_le' (Nat.one_le_of_lt hfuel)
    rw [tokensFrom]
    · exact ih (Nat.le_of_succ_le_succ hfuel) _
    · exact hmark
    · exact hclass
    · exact fun _ heq => absurd heq hstar
    · exact fun _ heq => absurd heq hstar
    · exact hstar

/-- A text is a glob exactly if it can be read, and then its tokens are those that are read. -/
theorem parse_eq_ok_iff {s : String} {g : Glob} :
    parse s = .ok g ↔ Reads none [] s.toList g.tokens := by
  rw [parse]
  constructor
  · intro h
    cases hread : tokensFrom s.length 0 none [] s.toList with
    | error e =>
      rw [hread] at h
      cases h
    | ok ts =>
      rw [hread] at h
      obtain rfl := Except.ok.inj h
      exact reads_of_tokensFrom (Nat.le_of_eq String.length_toList) hread
  · intro h
    rw [h.tokensFrom_eq (Nat.le_of_eq String.length_toList) 0]
    rfl

/-! ## Where stars stand -/

/-- May two stars stand behind the tokens, which stand backwards? -/
def EdgeBehind (seen : List GlobToken) : Prop := ∀ token ∈ seen.head?, beginsName token = true

theorem parted_concat {edge : Bool} {ts : List GlobToken} {token : GlobToken}
    (h : Parted edge ts)
    (hplace : token = .anyDirectories → (ts.getLast?.map beginsName).getD edge = true) :
    Parted edge (ts ++ [token]) := by
  induction ts generalizing edge with
  | nil => exact ⟨hplace, trivial⟩
  | cons t ts ih =>
    obtain ⟨hedge, hrest⟩ := h
    refine ⟨hedge, ih hrest fun htoken => ?_⟩
    have hlast := hplace htoken
    rw [List.getLast?_cons] at hlast
    cases hts : ts.getLast? with
    | none => rwa [hts] at hlast
    | some u => rwa [hts] at hlast

theorem parted_cons {seen : List GlobToken} {token : GlobToken} (h : Parted true seen.reverse)
    (hplace : token = .anyDirectories → EdgeBehind seen) : Parted true (token :: seen).reverse := by
  rw [List.reverse_cons]
  refine parted_concat h fun htoken => ?_
  have hedge := hplace htoken
  rw [List.getLast?_reverse]
  cases hhead : seen.head? with
  | none => rfl
  | some u => exact hedge u hhead

theorem parted_pushDirectories {seen : List GlobToken} (h : Parted true seen.reverse)
    (hplace : EdgeBehind seen) : Parted true (pushDirectories seen).reverse := by
  unfold pushDirectories
  split
  · exact h
  · exact parted_cons h fun _ => hplace

theorem head?_pushDirectories (seen : List GlobToken) :
    (pushDirectories seen).head? = some .anyDirectories := by
  unfold pushDirectories
  split <;> rfl

theorem Reads.parted {prev : Option Char} {seen ts : List GlobToken} {t : List Char}
    (h : Reads prev seen t ts) (hseen : Parted true seen.reverse)
    (hedge : Edge prev → EdgeBehind seen) : Parted true ts := by
  induction h with
  | done => exact hseen
  | anyChar _ ih | sequence _ _ ih =>
    refine ih (parted_cons hseen GlobToken.noConfusion) fun hprev => ?_
    simp [Edge] at hprev
  | among hclass _ ih =>
    refine ih (parted_cons hseen fun heq => absurd heq (class?_spec hclass).2.2) fun hprev => ?_
    simp [Edge] at hprev
  | directoriesLast hprev => exact parted_pushDirectories hseen (hedge hprev)
  | @directories _ seen _ _ hprev _ ih =>
    refine ih (parted_pushDirectories hseen (hedge hprev)) fun _ token htoken => ?_
    rw [head?_pushDirectories] at htoken
    rw [← Option.mem_some.mp htoken]
    rfl
  | @char _ _ _ c _ _ _ _ _ ih =>
    refine ih (parted_cons hseen GlobToken.noConfusion) fun hprev token htoken => ?_
    have hslash : c = '/' := by simpa [Edge] using hprev
    rw [← Option.mem_some.mp htoken, hslash]
    rfl

/-- In a glob that can be read, the stars stand where they may. -/
theorem parted_of_parse {s : String} {g : Glob} (h : parse s = .ok g) : Parted true g.tokens :=
  (parse_eq_ok_iff.mp h).parted trivial fun _ token htoken => by simp at htoken

/-- A glob that can be read fits exactly the paths that its tokens stand for. -/
theorem accepts_iff_of_parse {s : String} {g : Glob} (h : parse s = .ok g) (path : List Char) :
    g.accepts path = true ↔ Covers g.tokens path :=
  accepts_iff_covers (parted_of_parse h) path

end CodeAtlas.Glob
