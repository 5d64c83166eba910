/-
Headers declare their names.

The headers of functions and methods are built alike: words in front, the name, and behind it what
cannot go on with a name (`DeclaringHeader`). Nothing in front of the name can take a bracket or an
equals sign, so the line on which the header begins declares the name (`Declaring`), also where the
header goes on over several lines. And the words in front end in blanks, apart from the keyword
`function`, behind which the name may stand at once.
-/
import CodeAtlas.Proofs.Analysis.Declaring
import CodeAtlas.Proofs.Header.Name

set_option autoImplicit false

namespace CodeAtlas

open Analysis Pattern

/-- A header that keeps the name of a callable between what is in front of it and what is behind. -/
structure DeclaringHeader (header front inner back : Pattern) : Prop where
  split : header = front ++ keep .name inner ++ back
  onlyName : Slot.name ∉ slots front ∧ Slot.name ∉ slots inner
  noSign : front.takes '(' = false ∧ front.takes '=' = false
  isName : ∀ m m' ms, Matches inner m m' ms →
    ∃ u, IsNameOf isCallableStart Text.isNameChar u ∧ m.rest = u ++ m'.rest
  setOff : ∀ m m' ms, Matches front m m' ms →
    ∃ a, m.rest = a ++ m'.rest ∧ (SetOff a ∨ ∃ a', a = a' ++ "function".toList ∧ SetOff a')
  neverFirst : NeverFirst Text.isNameChar back
  goesOn : back.mayBeEmpty = false

variable {header front inner back : Pattern} {ls : List Line} {r : Match} {t : List Char} {c : Char}

/-- A match is what stands in front, the name, and what stands behind. -/
theorem DeclaringHeader.exists_matches (hp : DeclaringHeader header front inner back)
    (h : header.match? t = some r) : ∃ m₁ m₂ m₃ ms ms', Matches front (.start t) m₁ ms ∧
      IsNameOf isCallableStart Text.isNameChar (r.part .name) ∧
      m₁.rest = r.part .name ++ m₂.rest ∧ Matches back m₂ m₃ ms' := by
  have hmatch := matches_of_match? h
  rw [hp.split] at hmatch
  have hstart : (Spot.start t).Exact := rfl
  obtain ⟨m₂, ms, behind, hleft, hback, hmarks⟩ := matches_append_iff.mp hmatch
  obtain ⟨m₁, w, ⟨ms', hfront⟩, hkept⟩ :=
    exists_kept_last hp.onlyName.1 hp.onlyName.2 hstart hleft hmarks
  obtain ⟨ms'', hinner⟩ := hkept.inner
  obtain ⟨u, hu, hw⟩ := hp.isName _ _ _ hinner
  obtain rfl : w = u := List.append_cancel_right (hkept.rest.symm.trans hw)
  have hpart : r.part .name = w := by
    rw [Match.part, hkept.part?, Option.getD_some]
  rw [hpart]
  exact ⟨m₁, m₂, r.stop, ms', behind, hfront, hu, hw, hback⟩

/-- The first line of the header declares the name. -/
theorem DeclaringHeader.exists_declaring (hp : DeclaringHeader header front inner back)
    (h : header.match? (joinSignature ls).text = some r) :
    ∃ a b, Declaring (firstTrimmed ls) (r.part .name) a b := by
  obtain ⟨m₁, m₂, m₃, ms, ms', hfront, hname, hrest, hback⟩ := hp.exists_matches h
  obtain ⟨a, ha, hoff⟩ := hp.setOff _ _ _ hfront
  have hopen : '(' ∉ a := hfront.not_mem_of_takes hp.noSign.1 ha
  have hequals : '=' ∉ a := hfront.not_mem_of_takes hp.noSign.2 ha
  have hnone : '(' ∉ a ++ r.part .name := by
    rw [List.mem_append, not_or]
    exact ⟨hopen, not_mem_of_isCallable (.inl rfl) hname⟩
  have htext : (joinSignature ls).text = a ++ r.part .name ++ m₂.rest := by
    rw [List.append_assoc, ← hrest]
    exact ha
  -- the name stands on the first line, and so does what is left of that line behind it
  obtain ⟨b, hb⟩ := prefix_firstTrimmed ⟨m₂.rest, htext.symm⟩ hnone
  have hbehind : b <+: m₂.rest := by
    have hjoined : firstTrimmed ls <+: (joinSignature ls).text := prefix_joinOpen _ _ _
    rw [htext, ← hb] at hjoined
    exact (List.prefix_append_right_inj _).mp hjoined
  have hends : b.head?.any Text.isNameChar = false := by
    have hhead := hp.neverFirst.head? hp.goesOn hback
    obtain ⟨more, hmore⟩ := hbehind
    cases b with
    | nil => rfl
    | cons c b =>
      rw [← hmore] at hhead
      exact hhead
  refine ⟨a, b, ?_, hname, hopen, hequals, hoff, hends⟩
  rw [← hb, List.append_assoc]

/-- A header begins with the begin of a word, or with a name. -/
theorem DeclaringHeader.begins (hp : DeclaringHeader header front inner back)
    (h : header.match? (joinSignature ls).text = some r) (hc : (firstTrimmed ls).head? = some c) :
    front.firsts c = true ∨ front.mayBeEmpty = true ∧ isCallableStart c = true := by
  have hjoined : (joinSignature ls).text.head? = some c := by
    obtain ⟨more, hmore⟩ := prefix_joinOpen (firstTrimmed ls) 0 (ls.drop 1)
    show (joinOpen (firstTrimmed ls) 0 (ls.drop 1)).text.head? = some c
    rw [← hmore, List.head?_append, hc, Option.some_or]
  obtain ⟨m₁, m₂, m₃, ms, ms', hfront, ⟨d, n, hname, hd, -⟩, hrest, -⟩ := hp.exists_matches h
  rcases hfront.begins with ⟨hsame, hempty⟩ | ⟨e, he, hfirst⟩
  · refine .inr ⟨hempty, ?_⟩
    have hhead : (r.part .name ++ m₂.rest).head? = some c := by
      rw [← hrest, ← hsame]
      exact hjoined
    rw [hname, List.cons_append, List.head?_cons, Option.some_inj] at hhead
    rwa [← hhead]
  · have hsame : some c = some e := hjoined.symm.trans he
    rw [Option.some_inj.mp hsame]
    exact .inl hfirst

theorem setOff_of_neverLast (hfront : NeverLast Text.isNameChar front) {m m' : Spot}
    {ms : List (Slot × Spot)} (h : Matches front m m' ms) : ∃ a, m.rest = a ++ m'.rest ∧
      (SetOff a ∨ ∃ a', a = a' ++ "function".toList ∧ SetOff a') := by
  obtain ⟨a, ha, hlast⟩ := hfront.getLast? h
  exact ⟨a, ha, .inl hlast⟩

/-- Where nothing stands behind the keyword, the name is not set off from it. -/
theorem setOff_behind_function {words sign : Pattern} (hwords : NeverLast Text.isNameChar words)
    (hsign : NeverLast Text.isNameChar sign) {m m' : Spot} {ms : List (Slot × Spot)}
    (h : Matches (words ++ lit "function" ++ sign) m m' ms) : ∃ a, m.rest = a ++ m'.rest ∧
      (SetOff a ∨ ∃ a', a = a' ++ "function".toList ∧ SetOff a') := by
  obtain ⟨m₂, _, _, hfront, hbehind, -⟩ := matches_append_iff.mp h
  obtain ⟨m₁, _, _, hlead, hkeyword, -⟩ := matches_append_iff.mp hfront
  obtain ⟨x, hx, hlast⟩ := hwords.getLast? hlead
  obtain ⟨y, hy, hlast'⟩ := hsign.getLast? hbehind
  have hrest : m.rest = x ++ ("function".toList ++ (y ++ m'.rest)) := by
    rw [hx, hkeyword.rest_of_lit, hy]
  cases y with
  | nil =>
    refine ⟨x ++ "function".toList, ?_, .inr ⟨x, rfl, hlast⟩⟩
    rw [hrest, List.nil_append, List.append_assoc]
  | cons c y =>
    refine ⟨x ++ ("function".toList ++ c :: y), ?_, .inl ?_⟩
    · rw [hrest, List.append_assoc, List.append_assoc]
    · rw [SetOff, List.getLast?_append_of_ne_nil _ (by simp),
        List.getLast?_append_of_ne_nil _ (by simp)]
      exact hlast'

/-- In front of a parameter list there may be type parameters. -/
theorem neverFirst_paramsBehind {params : Pattern} (hparams : NeverFirst Text.isNameChar params) :
    NeverFirst Text.isNameChar (blanks ++ opt params ++ blanks ++ lit "(") := by
  have hblanks := neverFirst_blanks fun _ => Text.isBlankChar_of_isNameChar
  exact ((hblanks.append hparams.opt).append hblanks).append (neverFirst_lit (by decide))

/-- The line declares the name, and at most a star at its begin makes it a comment. -/
def DeclaresName (family : Family) (t : List Char) (name : String) : Prop :=
  (∃ a b, Declaring t name.toList a b) ∧ (isComment family t = true → t.head? = some '*')

/-- What begins with a slash is no header. -/
theorem DeclaringHeader.declaresName_brace (hp : DeclaringHeader header front inner back)
    (hslash : front.firsts '/' = false) (h : header.match? (joinSignature ls).text = some r) :
    DeclaresName .brace (firstTrimmed ls) (textOf (r.part .name)) := by
  refine ⟨?_, fun hcomment => ?_⟩
  · rw [textOf, String.toList_ofList]
    exact hp.exists_declaring h
  · have hno : (firstTrimmed ls).head? ≠ some '/' := by
      intro hhead
      rcases hp.begins h hhead with hfirst | ⟨-, hstart⟩
      · rw [hslash] at hfirst
        cases hfirst
      · revert hstart
        decide
    rw [isComment, Bool.or_eq_true, Bool.or_eq_true] at hcomment
    rcases hcomment with (hline | hblock) | hstar
    · exact absurd (Text.head?_of_starts hline rfl) hno
    · exact absurd (Text.head?_of_starts hblock rfl) hno
    · exact Text.head?_of_starts hstar rfl

/-- What begins with a hash is none in the other family, where a word stands in front. -/
theorem DeclaringHeader.declaresName_indent (hp : DeclaringHeader header front inner back)
    (hhash : front.firsts '#' = false) (hword : front.mayBeEmpty = false)
    (h : header.match? (joinSignature ls).text = some r) :
    DeclaresName .indent (firstTrimmed ls) (textOf (r.part .name)) := by
  refine ⟨?_, fun hcomment => ?_⟩
  · rw [textOf, String.toList_ofList]
    exact hp.exists_declaring h
  · have hhead : (firstTrimmed ls).head? = some '#' := Text.head?_of_starts hcomment rfl
    rcases hp.begins h hhead with hfirst | ⟨hempty, -⟩
    · rw [hhash] at hfirst
      cases hfirst
    · rw [hword] at hempty
      cases hempty

/-! ## The brace family -/

namespace Brace

theorem isNameOf_callable {u : List Char} (hu : IsNameOf Text.isNameStart Text.isNameChar u) :
    IsNameOf isCallableStart Text.isNameChar u := by
  obtain ⟨c, u, rfl, hc, hu⟩ := hu
  exact ⟨c, u, rfl, Bool.or_eq_true_iff.mpr (.inl hc), hu⟩

theorem declaringHeader_function : DeclaringHeader functionHeader
    (flag .exported "export" ++ flag .byDefault "default" ++ opt (word "declare") ++
      flag .asynchronous "async" ++ lit "function" ++ (blanks ++
      opt (keep .generator (lit "*")) ++ blanks)) name
    (blanks ++ typeParams ++ blanks ++ lit "(") where
  split := rfl
  onlyName := by decide
  noSign := by decide
  isName := fun m m' ms h => by
    obtain ⟨u, hu, hrest, -⟩ := h.of_name
    exact ⟨u, isNameOf_callable hu, hrest⟩
  setOff := fun m m' ms h => by
    have hblanks := neverLast_blanks fun _ => Text.isBlankChar_of_isNameChar
    have hflag := neverLast_flag fun _ => Text.isBlankChar_of_isNameChar
    have hword := (neverLast_word (fun _ => Text.isBlankChar_of_isNameChar) "declare").opt
    have hwords := (((hflag .exported "export").append (hflag .byDefault "default")).append
      hword).append (hflag .asynchronous "async")
    have hstar : NeverLast Text.isNameChar (opt (keep .generator (lit "*"))) :=
      ((neverLast_lit (by decide)).keep _).opt
    exact setOff_behind_function hwords ((hblanks.append hstar).append hblanks) h
  neverFirst := neverFirst_paramsBehind (((neverFirst_lit (by decide)).before rfl _).before rfl _)
  goesOn := rfl

theorem declaringHeader_arrow : DeclaringHeader arrowHeader
    (flag .exported "export" ++ oneOf ["const", "let", "var"] ++ gap) name
    (blanks ++ opt (lit ":" ++ blanks ++ few1 (noneOf "=")) ++ blanks ++ lit "=" ++ (blanks ++
      flag .asynchronous "async" ++ opt (lit "<" ++ many (noneOf ">(") ++ lit ">" ++ blanks) ++
      (keep .function (lit "function" ++ edge ++ blanks ++ opt (lit "*") ++ blanks ++
          many Text.isNameChar ++ blanks ++ lit "(") <|>
        keep .group (lit "(") <|>
        (keep .bare name ++ blanks ++ lit "=>")))) where
  split := rfl
  onlyName := by decide
  noSign := by decide
  isName := fun m m' ms h => by
    obtain ⟨u, hu, hrest, -⟩ := h.of_name
    exact ⟨u, isNameOf_callable hu, hrest⟩
  setOff := fun m m' ms h => setOff_of_neverLast
    ((neverLast_gap fun _ => Text.isBlankChar_of_isNameChar).behind rfl _) h
  neverFirst := by
    have hblanks := neverFirst_blanks fun _ => Text.isBlankChar_of_isNameChar
    -- what follows the name begins with a blank or a sign, whichever parts are there
    have htype : NeverFirst Text.isNameChar (lit ":" ++ blanks ++ few1 (noneOf "=")) :=
      ((neverFirst_lit (by decide)).before rfl _).before rfl _
    have hequals : NeverFirst Text.isNameChar (blanks ++
        opt (lit ":" ++ blanks ++ few1 (noneOf "=")) ++ blanks ++ lit "=") :=
      ((hblanks.append htype.opt).append hblanks).append (neverFirst_lit (by decide))
    exact hequals.before rfl _
  goesOn := rfl

theorem declaringHeader_method : DeclaringHeader methodHeader
    (visibilityWord ++ flag .static "static" ++ opt (word "override") ++
      flag .abstracted "abstract" ++ opt (word "override") ++ flag .asynchronous "async" ++
      opt (oneOf ["get", "set"] ++ gap) ++ opt (lit "*" ++ blanks)) memberName
    (blanks ++ typeParams ++ blanks ++ lit "(") where
  split := rfl
  onlyName := by decide
  noSign := by decide
  isName := fun m m' ms h => by
    obtain ⟨u, hu, hrest, -⟩ := h.of_name
    exact ⟨u, hu, hrest⟩
  setOff := fun m m' ms h => by
    refine setOff_of_neverLast ?_ h
    have hchar : ∀ c, Text.isNameChar c = true → Text.isBlankChar c = false :=
      fun _ => Text.isBlankChar_of_isNameChar
    -- each word in front of the name ends in a blank, if it is there
    have hgap : NeverLast Text.isNameChar gap := neverLast_gap hchar
    have hvisibility : NeverLast Text.isNameChar visibilityWord := (hgap.behind rfl _).opt
    have haccess : NeverLast Text.isNameChar (opt (oneOf ["get", "set"] ++ gap)) :=
      (hgap.behind rfl _).opt
    have hstar : NeverLast Text.isNameChar (opt (lit "*" ++ blanks)) :=
      ((neverLast_lit (by decide)).append (neverLast_blanks hchar)).opt
    have hflag := neverLast_flag hchar
    have hword := fun w => (neverLast_word hchar w).opt
    exact (((((((hvisibility.append (hflag _ _)).append (hword _)).append (hflag _ _)).append
      (hword _)).append (hflag _ _)).append haccess).append hstar)
  neverFirst := neverFirst_paramsBehind (((neverFirst_lit (by decide)).before rfl _).before rfl _)
  goesOn := rfl

section

variable {c : Construct} {head : FunctionHead}

theorem declaresName_of_functionDeclaration? (h : functionDeclaration? ls = some c)
    (hhead : c.head? = some head) : DeclaresName .brace (firstTrimmed ls) head.name := by
  simp only [functionDeclaration?, Option.bind_eq_bind, Option.bind_eq_some_iff] at h
  obtain ⟨-, -, m, hm, ⟨params, tail⟩, -, h⟩ := h
  cases h
  cases hhead
  exact declaringHeader_function.declaresName_brace (by decide) hm

theorem declaresName_of_arrowDeclaration? (h : arrowDeclaration? ls = some c)
    (hhead : c.head? = some head) : DeclaresName .brace (firstTrimmed ls) head.name := by
  simp only [arrowDeclaration?, Option.bind_eq_bind, Option.bind_eq_some_iff] at h
  obtain ⟨-, -, m, hm, ⟨kind, params, returnType, body⟩, -, h⟩ := h
  cases h
  cases hhead
  exact declaringHeader_arrow.declaresName_brace (by decide) hm

theorem declaresName_of_methodDeclaration? (h : methodDeclaration? ls = some c)
    (hhead : c.head? = some head) : DeclaresName .brace (firstTrimmed ls) head.name := by
  simp only [methodDeclaration?, Option.bind_eq_bind, Option.bind_eq_some_iff] at h
  obtain ⟨m, hm, -, -, ⟨params, tail⟩, -, h⟩ := h
  cases h
  cases hhead
  exact declaringHeader_method.declaresName_brace (by decide) hm

end

end Brace

/-! ## The indentation family -/

namespace Indent

theorem declaringHeader_def : DeclaringHeader defHeader (flag .asynchronous "async" ++ word "def")
    name (blanks ++ typeParams ++ blanks ++ lit "(") where
  split := rfl
  onlyName := by decide
  noSign := by decide
  isName := fun m m' ms h => by
    obtain ⟨u, ⟨c, u, rfl, hc, hu⟩, hrest, -⟩ := h.of_name
    refine ⟨c :: u, ⟨c, u, rfl, ?_, fun d hd => ?_⟩, hrest⟩
    · have hstart : (c.isAlpha || c = '_') = true := hc
      rw [isCallableStart, Text.isNameStart, hstart]
      rfl
    · rw [Text.isNameChar, hu d hd]
      rfl
  setOff := fun m m' ms h => setOff_of_neverLast
    ((neverLast_word (fun _ => Text.isBlankChar_of_isNameChar) "def").behind rfl _) h
  neverFirst := neverFirst_paramsBehind (((neverFirst_lit (by decide)).before rfl _).before rfl _)
  goesOn := rfl

theorem declaresName_of_defDeclaration? {c : Construct} {head : FunctionHead}
    (h : defDeclaration? ls = some c) (hhead : c.head? = some head) :
    DeclaresName .indent (firstTrimmed ls) head.name := by
  simp only [defDeclaration?, Option.bind_eq_bind, Option.bind_eq_some_iff] at h
  obtain ⟨-, -, m, hm, ⟨inner, rest⟩, -, tail, -, h⟩ := h
  cases h
  cases hhead
  exact declaringHeader_def.declaresName_indent (by decide) (by decide) hm

end Indent

end CodeAtlas
