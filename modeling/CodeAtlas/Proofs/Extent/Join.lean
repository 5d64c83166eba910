/-
Lines that are joined to a header.

Whether a line is joined depends on the text joined so far and not on what follows. So if all the
lines up to one are joined, the text with which the next ones go on is known, and what is put
behind that line is put behind this text (`joinSignature_append`).
-/
import CodeAtlas.Proofs.Header.Name
import CodeAtlas.Proofs.Text.Trim

set_option autoImplicit false

namespace CodeAtlas

variable {text e : List Char} {n : Nat} {front after ls : List Line} {l l' : Line}

theorem joinOpen_cons_of_pos {text : List Char} (h : 0 < parenBalance text) {further : Nat}
    (hfit : further < maxLookahead) (l : Line) (ls : List Line) :
    joinOpen text further (l :: ls) =
      joinOpen (text ++ (if text.getLast? = some '(' ∨ (Text.trim l).head? = some ')' then []
        else [' ']) ++ Text.trim l) (further + 1) ls := by
  simp only [joinOpen, h, hfit, decide_true, Bool.and_self, if_true, Bool.or_eq_true,
    decide_eq_true_eq]

/-- A line is joined to an open text, and the text stays as it is if none is joined. -/
theorem joinOpen_cons_cases (text : List Char) (n : Nat) (l : Line) (ls : List Line) :
    (0 < parenBalance text ∧ n < maxLookahead) ∨ joinOpen text n (l :: ls) = ⟨text, n⟩ := by
  by_cases hopen : 0 < parenBalance text ∧ n < maxLookahead
  · exact .inl hopen
  · refine .inr ?_
    simp only [joinOpen, Bool.and_eq_true, decide_eq_true_eq, if_neg hopen]

/-- More lines are joined only to an open text. -/
theorem open_of_further_ne (h : (joinOpen text n (l :: ls)).further ≠ n) :
    0 < parenBalance text ∧ n < maxLookahead := by
  refine (joinOpen_cons_cases text n l ls).resolve_right fun hstays => ?_
  rw [hstays] at h
  exact h rfl

theorem joinOpen_of_further (h : (joinOpen text n ls).further = n) :
    joinOpen text n ls = ⟨text, n⟩ := by
  cases ls with
  | nil => rfl
  | cons l ls =>
    rcases joinOpen_cons_cases text n l ls with ⟨hpos, hfit⟩ | hstays
    · rw [joinOpen_cons_of_pos hpos hfit] at h
      have hmore := (joinOpen_further (text ++ (if text.getLast? = some '(' ∨
        (Text.trim l).head? = some ')' then [] else [' ']) ++ Text.trim l) (n + 1) ls).1
      omega
    · exact hstays

/-- What is put behind the last of the lines is put behind the joined text. -/
theorem joinOpen_append (hall : (joinOpen text n (ls ++ [l])).further = n + (ls.length + 1))
    (htrim : Text.trim l' = Text.trim l ++ e)
    (hhead : (Text.trim l').head? = some ')' ↔ (Text.trim l).head? = some ')')
    (after : List Line) :
    joinOpen text n (ls ++ l' :: after) =
      joinOpen ((joinOpen text n (ls ++ [l])).text ++ e) (n + (ls.length + 1)) after := by
  -- all the lines are joined, so on each of them the text in front is still open
  induction ls generalizing text n with
  | nil =>
    have hmore : (joinOpen text n [l]).further ≠ n := fun h => by
      rw [List.nil_append, h] at hall
      omega
    obtain ⟨hpos, hfit⟩ := open_of_further_ne hmore
    rw [List.nil_append, List.nil_append, joinOpen_cons_of_pos hpos hfit,
      joinOpen_cons_of_pos hpos hfit, htrim]
    rw [htrim] at hhead
    simp only [joinOpen, hhead, List.append_assoc]
    rfl
  | cons k ls ih =>
    have hcount : n + ((k :: ls).length + 1) = n + 1 + (ls.length + 1) := by
      rw [List.length_cons]
      omega
    rw [hcount] at hall ⊢
    have hmore : (joinOpen text n (k :: (ls ++ [l]))).further ≠ n := fun h => by
      rw [List.cons_append, h] at hall
      omega
    obtain ⟨hpos, hfit⟩ := open_of_further_ne hmore
    rw [List.cons_append] at hall ⊢
    rw [List.cons_append, joinOpen_cons_of_pos hpos hfit, joinOpen_cons_of_pos hpos hfit]
    rw [joinOpen_cons_of_pos hpos hfit] at hall
    exact ih hall

/-- What is put behind the last line of a header is put behind its joined text. -/
theorem joinSignature_append (hall : (joinSignature (front ++ [l])).further = front.length)
    (htrim : Text.trim l' = Text.trim l ++ e)
    (hhead : (Text.trim l').head? = some ')' ↔ (Text.trim l).head? = some ')')
    (after : List Line) :
    joinSignature (front ++ l' :: after) =
      joinOpen ((joinSignature (front ++ [l])).text ++ e) front.length after := by
  cases front with
  | nil =>
    show joinOpen (Text.trim l') 0 after = joinOpen (Text.trim l ++ e) 0 after
    rw [htrim]
  | cons f front =>
    have hjoined : (joinOpen (Text.trim f) 0 (front ++ [l])).further = 0 + (front.length + 1) := by
      rw [Nat.zero_add]
      exact hall
    have hmore := joinOpen_append hjoined htrim hhead after
    rw [Nat.zero_add] at hmore
    exact hmore

/-- Joining adds blanks and no line breaks. -/
theorem newline_notMem_joinOpen (htext : '\n' ∉ text) (hls : ∀ l ∈ ls, '\n' ∉ l) (n : Nat) :
    '\n' ∉ (joinOpen text n ls).text := by
  induction ls generalizing text n with
  | nil => exact htext
  | cons l ls ih =>
    obtain ⟨hl, hls⟩ := List.forall_mem_cons.mp hls
    rcases joinOpen_cons_cases text n l ls with ⟨hpos, hfit⟩ | hstays
    · rw [joinOpen_cons_of_pos hpos hfit]
      refine ih ?_ hls (n + 1)
      intro hmem
      rcases List.mem_append.mp hmem with hmem | hmem
      · rcases List.mem_append.mp hmem with hmem | hmem
        · exact htext hmem
        · split at hmem
          · cases hmem
          · exact absurd (List.mem_singleton.mp hmem) (by decide)
      · exact hl (Text.mem_of_mem_trim hmem)
    · rw [hstays]
      exact htext

end CodeAtlas
