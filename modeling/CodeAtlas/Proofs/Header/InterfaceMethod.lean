/-
Methods of interfaces.

A method is read on one line, with the parameters of its list and the return type behind it
(`MethodText.IsWritten.memberMethod?_text`). A line that ends inside the parameter list is no member
of either kind: nothing closes the list, and the name is not that of a property
(`MethodText.IsWritten.noMember`).
-/
import CodeAtlas.Proofs.Header.InterfaceProperty
import CodeAtlas.Proofs.Nesting.Group

set_option autoImplicit false

namespace CodeAtlas.Brace

open Pattern

variable {t x : List Char} {m : Spot}

/-! ## Methods -/

/-- A text that may be a parameter: its brackets are balanced, and it has none that are curly, and
neither quotes nor slashes. -/
structure IsParam (t : List Char) : Prop extends IsPiece t where
  closesRound : closesRound 0 t = true
  isNeutral : ∀ c ∈ t, IsNeutral c

/-- A list of balanced texts is balanced. -/
theorem closesRound_of_isListOf {ts : List (List Char)} (h : IsListOf ',' ts t)
    (hts : ∀ u ∈ ts, closesRound 0 u = true) : closesRound 0 t = true := by
  obtain ⟨pieces, -, rfl, hpieces⟩ := h
  have hblank : ∀ {g : List Char}, Text.isBlank g = true → closesRound 0 g = true := fun hg =>
    closesRound_of_forall fun c hc => by
      constructor <;> rintro rfl <;> exact Text.notMem_of_isBlank hg (by decide) hc
  have hpiece : ∀ piece ∈ pieces, closesRound 0 piece = true := by
    intro piece hmem
    obtain ⟨g, g', hg, hg', hsplit⟩ := Text.exists_trim piece
    have hinner : closesRound 0 (Text.trim piece) = true := by
      rcases trim_mem_of_listed hpieces hmem with hmem | hnil
      · exact hts _ hmem
      · rw [hnil]
        rfl
    rw [hsplit]
    exact closesRound_append (hblank hg) (closesRound_append hinner (hblank hg'))
  clear hpieces
  -- blanks and commas close nothing, so the pieces can be put together
  induction pieces with
  | nil => rfl
  | cons piece pieces ih =>
    obtain ⟨hfirst, hmore⟩ := List.forall_mem_cons.mp hpiece
    by_cases hnil : pieces = []
    · rw [hnil, List.intercalate_singleton]
      exact hfirst
    · rw [List.intercalate_cons_of_ne_nil hnil]
      exact closesRound_append (closesRound_append hfirst rfl) (ih hmore)

/-- The parts of a method; its parameters may be written in many ways, so that they are no text
yet. -/
structure MethodText where
  name : List Char
  marked : Bool
  generics : List Char
  params : List (List Char)
  back : List Char

namespace MethodText

variable (f : MethodText)

/-- What stands in front of the parameter list. -/
def lead : List Char := f.name ++ (markIf f.marked ++ f.generics)

/-- The method with the parameter list. -/
def text (t : List Char) : List Char := f.lead ++ '(' :: (t ++ ')' :: f.back)

/-- What is read behind the parameter list. -/
def tail? : Option Tail := Brace.tail? (Text.dropEndWhile (fun c => c = ';' || c = ',') f.back)

/-- What the method says, without the line that it stands on. -/
def record : FunctionRecord where
  name := textOf f.name
  kind := .method
  params := f.params.filterMap param?
  returnType := f.tail?.bind Tail.returnType
  complexity := 1
  lineCount := 1

/-- The type parameters have angle brackets around them and no round ones inside; behind the
parameter list is a return type or nothing. -/
structure IsWritten : Prop where
  isName : IsNameOf Text.isNameStart Text.isNameChar f.name
  isGenerics : f.generics = [] ∨ ∃ u, '(' ∉ u ∧ f.generics = '<' :: (u ++ ['>'])
  isParam : ∀ p ∈ f.params, IsParam p
  isTail : f.tail?.isSome = true
  isNeutral : ∀ c ∈ f.generics ++ f.back, IsNeutral c

end MethodText

theorem names_interfaceMethod : Names interfaceMethod (opt (word "readonly"))
    (opt (keep .mark (lit "?")) ++ blanks ++ typeParams ++ blanks ++ lit "(")
    Text.isNameStart Text.isNameChar where
  run := run_of_split rfl _
  onlyName := by decide
  leaves := by
    have hblanks := neverFirst_blanks fun _ => Text.isBlankChar_of_isNameChar
    have hparams : NeverFirst Text.isNameChar typeParams :=
      NeverFirst.opt (((neverFirst_lit (by decide)).before rfl _).before rfl _)
    have hnothing : NeverFirst Text.isNameChar (mark .mark) := fun _ _ => rfl
    have hmark : NeverFirst Text.isNameChar (opt (keep .mark (lit "?"))) :=
      ((hnothing.append (neverFirst_lit (by decide))).append hnothing).opt
    exact ((((hmark.append hblanks).append hparams).append hblanks).append
      (neverFirst_lit (by decide))).leaves rfl _

/-- A method is read up to the first round bracket. -/
theorem rest_of_interfaceMethod {u v : List Char} {r : Match}
    (h : interfaceMethod.match? (u ++ '(' :: v) = some r) (hu : '(' ∉ u) : r.rest = v := by
  have hsplit : interfaceMethod = opt (word "readonly") ++ keep .name name ++
      opt (keep .mark (lit "?")) ++ blanks ++ typeParams ++ blanks ++ lit "(" := rfl
  rw [hsplit] at h
  obtain ⟨m, _, _, hfront, hopen, -⟩ := matches_append_iff.mp (matches_of_match? h)
  obtain ⟨w, hw, -, hnone⟩ := hfront.avoids (avoids_of_takes (d := '(') (by decide))
  have hw : u ++ '(' :: v = w ++ '(' :: r.stop.rest := by
    rw [← show m.rest = '(' :: r.stop.rest from hopen.rest_of_lit]
    exact hw
  have hfree : '(' ∉ w := fun hmem => of_decide_eq_false (hnone '(' hmem) rfl
  have hstop : ∀ {a b : List Char}, '(' ∉ a → (a ++ '(' :: b).dropWhile (· ≠ '(') = '(' :: b := by
    intro a b ha
    refine dropWhile_append_of_ends (fun c hc => decide_eq_true ?_) (by simp)
    rintro rfl
    exact ha hc
  have hsame := congrArg (List.dropWhile (· ≠ '(')) hw
  rw [hstop hu, hstop hfree] at hsame
  exact (List.cons.inj hsame).2.symm

namespace MethodText

variable {f : MethodText}

theorem IsWritten.notMem_lead (h : f.IsWritten) : '(' ∉ f.lead := by
  have hgenerics : '(' ∉ f.generics := by
    rcases h.isGenerics with hnil | ⟨u, hu, hsome⟩
    · rw [hnil]
      exact List.not_mem_nil
    · rw [hsome]
      simpa using hu
  have hmark : '(' ∉ markIf f.marked := by
    rcases markIf_cases f.marked with hm | hm <;> rw [hm] <;> decide
  simp only [lead, List.mem_append, not_or]
  exact ⟨Text.not_mem_of_isName h.isName (by decide), hmark, hgenerics⟩

theorem IsWritten.head?_generics (h : f.IsWritten) (x : List Char) :
    (f.generics ++ '(' :: x).head? = some '<' ∨ (f.generics ++ '(' :: x).head? = some '(' := by
  rcases h.isGenerics with hnil | ⟨u, -, hsome⟩
  · rw [hnil]
    exact .inr rfl
  · rw [hsome]
    exact .inl rfl

theorem IsWritten.leads (h : f.IsWritten) (x : List Char) :
    Leads (f.lead ++ '(' :: x) (f.generics ++ '(' :: x) :=
  ⟨[], f.name, markIf f.marked, [], .inl rfl, h.isName, markIf_cases _, List.forall_mem_nil _,
    by simp [lead]⟩

theorem IsWritten.matches_generics (h : f.IsWritten) (hm : m.rest = f.generics ++ '(' :: x) :
    Matches typeParams m (m.behind f.generics ('(' :: x)) [] := by
  rcases h.isGenerics with hnil | ⟨u, hu, hsome⟩
  · rw [hnil] at hm ⊢
    have hstay := m.behind_nil
    rw [show m.rest = '(' :: x from hm] at hstay
    rw [hstay]
    exact matches_opt_nothing _ m
  · have hclass : ∀ c ∈ u, noneOf "(" c = true := by
      intro c hc
      have hne : c ≠ '(' := fun heq => hu (heq ▸ hc)
      simpa [noneOf] using hne
    let m₁ := m.behind ['<'] (u ++ '>' :: '(' :: x)
    let m₂ := m₁.behind u ('>' :: '(' :: x)
    have hopen : Matches (lit "<") m m₁ [] := .exactly (by simp [hm, hsome])
    have hinner : Matches (many (noneOf "(")) m₁ m₂ [] := .many hclass rfl
    have hclose : Matches (lit ">") m₂ (m₂.behind ['>'] ('(' :: x)) [] := .exactly rfl
    have hstop : m₂.behind ['>'] ('(' :: x) = m.behind f.generics ('(' :: x) := by
      rw [hsome]
      simp only [m₂, m₁, Spot.behind_behind]
      rfl
    rw [← hstop]
    exact .left ((hopen.append hinner).append hclose)

theorem IsWritten.exists_match (h : f.IsWritten) (x : List Char) :
    ∃ r, interfaceMethod.match? (f.lead ++ '(' :: x) = some r := by
  let m₀ := Spot.start (f.lead ++ '(' :: x)
  let m₁ := m₀.behind f.name (markIf f.marked ++ (f.generics ++ '(' :: x))
  let m₂ := m₁.behind (markIf f.marked) (f.generics ++ '(' :: x)
  let m₃ := m₂.behind f.generics ('(' :: x)
  have hstops := stops_of_method (h.head?_generics x)
  have hblanks : ∀ m, Matches blanks m m [] := matches_many_nothing Text.isBlankChar
  have hname : Matches Pattern.name m₀ m₁ [] := by
    refine (finds_name h.isName (m := m₀) ?_ ?_).matches
    · simp [m₀, Spot.start, lead]
    · exact hstops.noName (markIf_cases f.marked) (List.forall_mem_nil _)
  have hmark : Finds (opt (keep .mark (lit "?"))) m₁ m₂
      (wordMarks .mark m₁ (markIf f.marked) (f.generics ++ '(' :: x)) :=
    finds_mark rfl (hstops.head?_ne_mark (List.forall_mem_nil _))
  have hgenerics : Matches typeParams m₂ m₃ [] := h.matches_generics rfl
  have hopen : Matches (lit "(") m₃ (m₃.behind ['('] x) [] := .exactly rfl
  have hall := (matches_opt_nothing (word "readonly") m₀).append
    ((hname.keep .name).append (hmark.matches.append ((hblanks m₂).append
      (hgenerics.append ((hblanks m₃).append hopen)))))
  rw [← interfaceMethod_eq] at hall
  rw [match?_eq_run]
  exact Option.isSome_iff_exists.mp (hall.isSome_run rfl)

/-- The name of a method is read as it is written. -/
theorem IsWritten.part_name (h : f.IsWritten) {r : Match}
    (hr : interfaceMethod.match? (f.lead ++ '(' :: x) = some r) : r.part .name = f.name := by
  obtain ⟨m, ms, rest, hword, hname, hm, hends, -⟩ := names_interfaceMethod.exists_name hr
  obtain ⟨y, hy, htext, -⟩ := hword.of_opt_word
  have hstops := stops_of_method (h.head?_generics x)
  have htext : f.name ++ (markIf f.marked ++ ([] ++ (f.generics ++ '(' :: x))) =
      y ++ (r.part .name ++ rest) := by
    rw [← hm, ← htext]
    simp [lead, Spot.start]
  have hnone := hstops.noName (markIf_cases f.marked) (List.forall_mem_nil _)
  rcases hy with rfl | hy
  · have hfront := congrArg (List.takeWhile Text.isNameChar) htext
    rw [takeWhile_append_of_ends (fun c => Text.isNameChar_of_mem h.isName) hnone, List.nil_append,
      takeWhile_append_of_ends (fun c => Text.isNameChar_of_mem hname) hends] at hfront
    exact hfront.symm
  · exact absurd htext (hstops.not_word h.isName (markIf_cases _) (List.forall_mem_nil _) hy
      (isBlankChar_head?_of_isName hname) (hstops.ne_name hname _))

theorem IsWritten.isRound (h : f.IsWritten) {t : List Char} (ht : IsListOf ',' f.params t) :
    IsRound t where
  noQuote := ht.forall_mem rfl (fun _ hc => (neutral_of_isBlankChar hc).1)
    fun u hu c hc => (h.isParam u hu).noQuote c hc
  closes := closesRound_of_isListOf ht fun u hu => (h.isParam u hu).closesRound

/-- A method on one line is read as it is written. -/
theorem IsWritten.memberMethod?_text (h : f.IsWritten) {t : List Char}
    (ht : IsListOf ',' f.params t) (line : Nat) :
    memberMethod? line (f.text t) = some { f.record with line } := by
  obtain ⟨r, hr⟩ := h.exists_match (t ++ ')' :: f.back)
  have hmatch : interfaceMethod.match? (f.text t) = some r := hr
  have hgroup := takeGroup?_of_isRound (h.isRound ht) f.back
  have hparams : Brace.params t = f.params.filterMap param? := by
    rw [Brace.params, ht.splitOuter_eq isSeparator_comma fun u hu =>
      ⟨(h.isParam u hu).ne_nil, (h.isParam u hu).fills⟩]
  obtain ⟨tail, htail⟩ := Option.isSome_iff_exists.mp h.isTail
  have htail' : Brace.tail? (Text.dropEndWhile (fun c => c = ';' || c = ',') f.back) = some tail :=
    htail
  simp only [memberMethod?, hmatch, rest_of_interfaceMethod hr h.notMem_lead, hgroup, htail',
    h.part_name hr, hparams, Option.bind_eq_bind, Option.bind_some, record, htail]
  rfl

/-- A line that leaves the parameter list open is no member. -/
theorem IsWritten.noMember (h : f.IsWritten) (hx : closeGroup? .code 0 x = none) (line : Nat) :
    memberMethod? line (f.lead ++ '(' :: x) = none ∧
      memberProperty? (f.lead ++ '(' :: x) = none := by
  refine ⟨?_, memberProperty?_of_leads (h.leads x) (h.head?_generics x)⟩
  obtain ⟨r, hr⟩ := h.exists_match x
  have hopen : takeGroup? ('(' :: x) = none := hx
  simp only [memberMethod?, hr, rest_of_interfaceMethod hr h.notMem_lead, hopen,
    Option.bind_eq_bind, Option.bind_some, Option.bind_none]

end MethodText

end CodeAtlas.Brace
