/-
What headers and exports say of one line.

Each header of a declaration is inverted: from a match that has `export` in front it follows
that the line exports the name of the match, as the default export if the match says so. So
whatever a row of the table declares as exported is what the line exports
(`exportsAgree_of_outside`), apart from the lines that `oddType` and `gluedFunction` describe.
-/
import CodeAtlas.Proofs.Header.Export

set_option autoImplicit false

namespace CodeAtlas.Brace

open Pattern

section

variable {t : List Char} {r : Match}

/-! ## Headers of one line -/

theorem names_classHeader : Names classHeader
    (flag .exported "export" ++ flag .byDefault "default" ++ opt (word "declare") ++
      flag .abstracted "abstract" ++ word "class")
    (typeArguments ++ opt (gap ++ word "extends" ++
        keep .base (one Text.isNameStart ++ many fun c => Text.isNameChar c || c = '.') ++
        typeArguments) ++
      opt (gap ++ word "implements" ++ keep .bases (some1 (noneOf "\x7b"))))
    Text.isNameStart Text.isNameChar where
  run := run_of_split rfl _
  onlyName := by decide
  leaves := .inl (((total_opt _).append (total_opt _)).append (total_opt _) fun _ => rfl)

theorem lineExports_class (h : classHeader.match? t = some r) (hexported : r.has .exported = true) :
    LineExports t (r.part .name) (r.has .byDefault) := by
  obtain ⟨m, ms, rest, hfront, hname, hm, hrest, hhas⟩ := names_classHeader.exists_name h
  obtain ⟨m₄, w, h₄, hw, hm₄⟩ := hfront.snoc_word
  obtain ⟨m₃, ms₃, a, h₃, ha, hm₃, hmsa⟩ := h₄.snoc_flag
  obtain ⟨m₂, c, h₂, hc, hm₂⟩ := h₃.snoc_opt_word
  obtain ⟨m₁, ms₁, d, h₁, hd, hm₁, hmsd⟩ := h₂.snoc_flag
  obtain ⟨e, he, ht, hmse⟩ := h₁.of_flag
  rw [hhas .exported (by decide) (by decide), hmsa, hmsd, hmse] at hexported
  have hdefault : r.has .byDefault = !d.isEmpty := by
    rw [hhas .byDefault (by decide) (by decide), hmsa, hmsd, hmse]
    simp
  have htext : t = e ++ (d ++ (c ++ (a ++ (w ++ (r.part .name ++ rest))))) := by
    rw [← hm, ← hm₄, ← hm₃, ← hm₂, ← hm₁, ← ht]
    rfl
  rw [htext, hdefault]
  exact lineExports_of_words (by decide) (he.isWord (by simpa using hexported)) hd hc ha hw hname
    hrest

theorem names_interfaceHeader : Names interfaceHeader
    (flag .exported "export" ++ opt (word "default") ++ opt (word "declare") ++ word "interface")
    (blanks ++ opt (lit "<" ++ keep .params (few (noneOf "\x7b")) ++ lit ">") ++
      opt (gap ++ word "extends" ++ keep .bases (some1 (noneOf "\x7b"))))
    Text.isNameStart Text.isNameChar where
  run := run_of_split rfl _
  onlyName := by decide
  leaves := .inl (((total_many _).append (total_opt _)).append (total_opt _) fun _ => rfl)

theorem lineExports_interface (h : interfaceHeader.match? t = some r)
    (hexported : r.has .exported = true) : ∃ isDefault, LineExports t (r.part .name) isDefault := by
  obtain ⟨m, ms, rest, hfront, hname, hm, hrest, hhas⟩ := names_interfaceHeader.exists_name h
  obtain ⟨m₃, w, h₃, hw, hm₃⟩ := hfront.snoc_word
  obtain ⟨m₂, c, h₂, hc, hm₂⟩ := h₃.snoc_opt_word
  obtain ⟨m₁, d, h₁, hd, hm₁⟩ := h₂.snoc_opt_word
  obtain ⟨e, he, ht, hmse⟩ := h₁.of_flag
  rw [hhas .exported (by decide) (by decide), hmse] at hexported
  have htext : t = e ++ (d ++ (c ++ (w ++ (r.part .name ++ rest)))) := by
    rw [← hm, ← hm₃, ← hm₂, ← hm₁, ← ht]
    rfl
  rw [htext]
  exact ⟨_, lineExports_of_words (by decide) (he.isWord (by simpa using hexported)) hd hc (.inl rfl)
    hw hname hrest⟩

theorem names_aliasHeader : Names aliasHeader
    (flag .exported "export" ++ opt (word "declare") ++ word "type")
    (blanks ++ opt (lit "<" ++ many (noneOf "=") ++ lit ">") ++ blanks ++ lit "=" ++ blanks ++
      keep .value (many inLine) ++ last)
    Text.isNameStart Text.isNameChar where
  run := run_of_split rfl _
  onlyName := by decide
  leaves := by
    have hblanks := neverFirst_blanks fun _ => Text.isBlankChar_of_isNameChar
    have hargs : NeverFirst Text.isNameChar (lit "<" ++ many (noneOf "=") ++ lit ">") :=
      (((neverFirst_lit (by decide)).before rfl _).before rfl _)
    have hhead := ((hblanks.append hargs.opt).append hblanks).append
      (neverFirst_lit (v := "=") (by decide))
    exact (((hhead.before rfl _).before rfl _).before rfl _).leaves rfl _

theorem lineExports_alias (h : aliasHeader.match? t = some r) (hexported : r.has .exported = true) :
    LineExports t (r.part .name) false := by
  obtain ⟨m, ms, rest, hfront, hname, hm, hrest, hhas⟩ := names_aliasHeader.exists_name h
  obtain ⟨m₂, w, h₂, hw, hm₂⟩ := hfront.snoc_word
  obtain ⟨m₁, c, h₁, hc, hm₁⟩ := h₂.snoc_opt_word
  obtain ⟨e, he, ht, hmse⟩ := h₁.of_flag
  rw [hhas .exported (by decide) (by decide), hmse] at hexported
  have htext : t = e ++ (c ++ (w ++ (r.part .name ++ rest))) := by
    rw [← hm, ← hm₂, ← hm₁, ← ht]
    rfl
  rw [htext]
  exact lineExports_of_words (by decide) (he.isWord (by simpa using hexported)) (.inl rfl) hc
    (.inl rfl) hw hname hrest

theorem names_enumHeader : Names enumHeader
    (flag .exported "export" ++ opt (word "declare") ++ opt (word "const") ++ word "enum")
    (lit "") Text.isNameStart Text.isNameChar where
  run m := by
    rw [show (lit "").run (fun m => some (.done m)) = fun m => some (.done m) from
      funext fun _ => run_nothing]
    rfl
  onlyName := by decide
  leaves := .inl fun m => by rw [run_nothing]; rfl

theorem lineExports_enum (h : enumHeader.match? t = some r) (hexported : r.has .exported = true)
    (hodd : oddType t = false) : LineExports t (r.part .name) false := by
  obtain ⟨m, ms, rest, hfront, hname, hm, hrest, hhas⟩ := names_enumHeader.exists_name h
  obtain ⟨m₃, w, h₃, hw, hm₃⟩ := hfront.snoc_word
  obtain ⟨m₂, k, h₂, hk, hm₂⟩ := h₃.snoc_opt_word
  obtain ⟨m₁, c, h₁, hc, hm₁⟩ := h₂.snoc_opt_word
  obtain ⟨e, he, ht, hmse⟩ := h₁.of_flag
  rw [hhas .exported (by decide) (by decide), hmse] at hexported
  have hlead : IsWord "export" e := he.isWord (by simpa using hexported)
  have htext : t = e ++ (c ++ (k ++ (w ++ (r.part .name ++ rest)))) := by
    rw [← hm, ← hm₃, ← hm₂, ← hm₁, ← ht]
    rfl
  rw [htext] at hodd ⊢
  rcases hk with rfl | hk
  · exact lineExports_of_words (by decide) hlead (.inl rfl) hc (.inl rfl) hw hname hrest
  · rw [oddType, fits_constEnum hlead hc hk hw (isBlankChar_head?_of_isName hname)] at hodd
    cases hodd

theorem names_constantHeader : Names constantHeader
    (flag .exported "export" ++ flag .byDefault "default" ++ word "const")
    (blanks ++ opt (lit ":" ++ blanks ++ keep .kind (few1 (noneOf "="))) ++ blanks ++ lit "=" ++
      blanks ++ keep .value (few1 inLine) ++ blanks ++ opt (lit ";") ++ blanks ++ last)
    Text.isNameStart Text.isNameChar where
  run := run_of_split rfl _
  onlyName := by decide
  leaves := by
    have hblanks := neverFirst_blanks fun _ => Text.isBlankChar_of_isNameChar
    have htype : NeverFirst Text.isNameChar
        (lit ":" ++ blanks ++ keep .kind (few1 (noneOf "="))) :=
      (((neverFirst_lit (by decide)).before rfl _).before rfl _)
    have hhead := ((hblanks.append htype.opt).append hblanks).append
      (neverFirst_lit (v := "=") (by decide))
    exact ((((((hhead.before rfl _).before rfl _).before rfl _).before rfl _).before rfl _).before
      rfl _).leaves rfl _

theorem lineExports_constant (h : constantHeader.match? t = some r)
    (hexported : r.has .exported = true) : LineExports t (r.part .name) (r.has .byDefault) := by
  obtain ⟨m, ms, rest, hfront, hname, hm, hrest, hhas⟩ := names_constantHeader.exists_name h
  obtain ⟨m₂, w, h₂, hw, hm₂⟩ := hfront.snoc_word
  obtain ⟨m₁, ms₁, d, h₁, hd, hm₁, hmsd⟩ := h₂.snoc_flag
  obtain ⟨e, he, ht, hmse⟩ := h₁.of_flag
  rw [hhas .exported (by decide) (by decide), hmsd, hmse] at hexported
  have hdefault : r.has .byDefault = !d.isEmpty := by
    rw [hhas .byDefault (by decide) (by decide), hmsd, hmse]
    simp
  have htext : t = e ++ (d ++ (w ++ (r.part .name ++ rest))) := by
    rw [← hm, ← hm₂, ← hm₁, ← ht]
    rfl
  rw [htext, hdefault]
  exact lineExports_of_words (by decide) (he.isWord (by simpa using hexported)) hd (.inl rfl)
    (.inl rfl) hw hname hrest

/-! ### Namespaces -/

/-- The characters of a name with parts. -/
def isPathChar (c : Char) : Bool := Text.isNameChar c || c = '.'

theorem isBlankChar_of_isPathChar {c : Char} (h : isPathChar c = true) :
    Text.isBlankChar c = false := by
  rcases Bool.or_eq_true_iff.mp h with hname | hdot
  · exact Text.isBlankChar_of_isNameChar hname
  · rw [of_decide_eq_true hdot]
    decide

theorem names_namespaceHeader : Names namespaceHeader
    (flag .exported "export" ++ opt (word "declare") ++ oneOf ["namespace", "module"] ++ gap)
    (blanks ++ lit "\x7b") Text.isNameStart isPathChar where
  run := run_of_split rfl _
  onlyName := by decide
  leaves := ((neverFirst_blanks fun _ => isBlankChar_of_isPathChar).append
    (neverFirst_lit (by decide))).leaves rfl _

/-- The first part of a name with parts is a name, and no name goes on behind it. -/
theorem exists_firstPart {u rest : List Char} (hname : IsNameOf Text.isNameStart isPathChar u)
    (hrest : rest.head?.any isPathChar = false) :
    IsNameOf Text.isNameStart Text.isNameChar (u.takeWhile (· ≠ '.')) ∧
      (u.dropWhile (· ≠ '.') ++ rest).head?.any Text.isNameChar = false := by
  obtain ⟨c, v, rfl, hc, hv⟩ := hname
  have hdot : c ≠ '.' := by
    rintro rfl
    revert hc
    decide
  constructor
  · rw [List.takeWhile_cons_of_pos (by simpa using hdot)]
    refine ⟨c, _, rfl, hc, ?_⟩
    intro d hd
    have hpath := hv d ((List.takeWhile_sublist _).subset hd)
    have hne : (d ≠ '.') := by simpa using List.all_eq_true.mp List.all_takeWhile d hd
    rcases Bool.or_eq_true_iff.mp hpath with hname | heq
    · exact hname
    · exact absurd (of_decide_eq_true heq) hne
  -- behind the first part there is a dot or the end of the whole name
  · have hhead := List.head?_dropWhile_not (fun d => decide (d ≠ '.')) (c :: v)
    cases hdrop : (c :: v).dropWhile (· ≠ '.') with
    | nil =>
      rw [List.nil_append]
      cases rest with
      | nil => rfl
      | cons d rest => exact (Bool.or_eq_false_iff.mp hrest).1
    | cons d w =>
      rw [hdrop] at hhead
      have heq : d = '.' := by simpa using hhead
      rw [heq]
      show Text.isNameChar '.' = false
      decide

theorem lineExports_namespace (h : namespaceHeader.match? t = some r)
    (hexported : r.has .exported = true) (hodd : oddType t = false) :
    LineExports t ((r.part .name).takeWhile (· ≠ '.')) false := by
  obtain ⟨m, ms, rest, hfront, hname, hm, hrest, hhas⟩ := names_namespaceHeader.exists_name h
  obtain ⟨m₃, ms₃, msg, h₃, hgap, rfl⟩ := matches_append_iff.mp hfront
  obtain ⟨m₂, ms₂, msw, h₂, hword, rfl⟩ := matches_append_iff.mp h₃
  obtain ⟨g, hne, hg, hm₃, rfl⟩ := hgap.of_gap
  obtain ⟨w, hw, hm₂, rfl⟩ := hword.of_oneOf
  obtain ⟨m₁, c, h₁, hc, hm₁⟩ := h₂.snoc_opt_word
  obtain ⟨e, he, ht, hmse⟩ := h₁.of_flag
  rw [hhas .exported (by decide) (by decide), List.append_nil, List.append_nil, hmse] at hexported
  have hlead : IsWord "export" e := he.isWord (by simpa using hexported)
  obtain ⟨hfirst, hends⟩ := exists_firstPart hname hrest
  have htext : t = e ++ (c ++ (w.toList ++ g ++ ((r.part .name).takeWhile (· ≠ '.') ++
      ((r.part .name).dropWhile (· ≠ '.') ++ rest)))) := by
    rw [← List.append_assoc (List.takeWhile _ _), List.takeWhile_append_dropWhile, ← hm,
      List.append_assoc, ← hm₃, ← hm₂, ← hm₁, ← ht]
    rfl
  rw [htext] at hodd ⊢
  -- the keyword is `namespace`; with `module` the line would be an odd one
  rcases List.mem_pair.mp hw with rfl | rfl
  · exact lineExports_of_words (v := "namespace") (by decide) hlead (.inl rfl) hc (.inl rfl)
      ⟨g, hne, hg, rfl⟩ hfirst hends
  · rw [oddType, fits_moduleHeader hlead hc ⟨g, hne, hg, rfl⟩ (isBlankChar_head?_of_isName hfirst),
      Bool.or_true] at hodd
    cases hodd

/-! ## Headers that may be joined from several lines -/

/-- A star that may stand there, kept or not. -/
theorem of_opt_star {s : Slot} {m m' : Spot} {ms : List (Slot × Spot)}
    (h : Matches (opt (keep s (lit "*"))) m m' ms) :
    ∃ star, (star = [] ∨ star = ['*']) ∧ m.rest = star ++ m'.rest ∧
      ∀ s' ≠ s, ms.any (·.1 = s') = false := by
  rcases h.of_opt with h | ⟨hrest, rfl⟩
  · obtain ⟨ms, hstar, rfl⟩ := h.exists_of_keep
    have hrest := hstar.rest_of_lit
    cases hstar
    refine ⟨['*'], .inr rfl, hrest, ?_⟩
    intro s' hs'
    simp [Ne.symm hs']
  · exact ⟨[], .inl rfl, hrest, fun s' _ => rfl⟩

theorem names_functionHeader : Names functionHeader
    (flag .exported "export" ++ flag .byDefault "default" ++ opt (word "declare") ++
      flag .asynchronous "async" ++ lit "function" ++ blanks ++
      opt (keep .generator (lit "*")) ++ blanks)
    (blanks ++ typeParams ++ blanks ++ lit "(") Text.isNameStart Text.isNameChar where
  run := run_of_split rfl _
  onlyName := by decide
  leaves := by
    have hblanks := neverFirst_blanks fun _ => Text.isBlankChar_of_isNameChar
    have hparams : NeverFirst Text.isNameChar typeParams :=
      NeverFirst.opt (((neverFirst_lit (by decide)).before rfl _).before rfl _)
    exact (((hblanks.append hparams).append hblanks).append (neverFirst_lit (by decide))).leaves
      rfl _

theorem lineExports_function {ls : List Line}
    (h : functionHeader.match? (joinSignature ls).text = some r)
    (hexported : r.has .exported = true) (hglued : gluedFunction.fits (firstTrimmed ls) = false) :
    LineExports (firstTrimmed ls) (r.part .name) (r.has .byDefault) := by
  obtain ⟨m, ms, rest, hfront, hname, hm, hrest, hhas⟩ := names_functionHeader.exists_name h
  -- the parts in front of the name, from the last one to the first
  obtain ⟨m₇, ms₇, msb, h₇, hblanks', rfl⟩ := matches_append_iff.mp hfront
  obtain ⟨m₆, ms₆, mss, h₆, hstar, rfl⟩ := matches_append_iff.mp h₇
  obtain ⟨m₅, ms₅, msg, h₅, hblanks, rfl⟩ := matches_append_iff.mp h₆
  obtain ⟨m₄, ms₄, msw, h₄, hword, rfl⟩ := matches_append_iff.mp h₅
  obtain ⟨g', hg', hm₇, rfl⟩ := hblanks'.of_blanks
  obtain ⟨star, hstars, hm₆, hmss⟩ := of_opt_star hstar
  obtain ⟨g, hg, hm₅, rfl⟩ := hblanks.of_blanks
  have hm₄ := hword.rest_of_lit
  cases hword
  obtain ⟨m₃, ms₃, a, h₃, ha, hm₃, hmsa⟩ := h₄.snoc_flag
  obtain ⟨m₂, c, h₂, hc, hm₂⟩ := h₃.snoc_opt_word
  obtain ⟨m₁, ms₁, d, h₁, hd, hm₁, hmsd⟩ := h₂.snoc_flag
  obtain ⟨e, he, ht, hmse⟩ := h₁.of_flag
  have hmarks : ∀ s ≠ .generator, (ms₄ ++ [] ++ [] ++ mss ++ []).any (·.1 = s) =
      (decide (.exported = s) && !e.isEmpty || decide (.byDefault = s) && !d.isEmpty ||
        decide (.asynchronous = s) && !a.isEmpty) := by
    intro s hs
    simp only [List.append_nil, List.any_append, hmss s hs, Bool.or_false]
    rw [hmsa, hmsd, hmse]
  rw [hhas .exported (by decide) (by decide), hmarks .exported (by decide)] at hexported
  rw [hhas .byDefault (by decide) (by decide), hmarks .byDefault (by decide)]
  let x : Exporting :=
    { lead := e, byDefault := d, declared := c, abstracted := [], asynchronous := a,
      keyword := "function", sign := g ++ (star ++ g'), name := r.part .name, rest := rest,
      isWord_lead := he.isWord (by simpa using hexported), mayBe_byDefault := hd,
      mayBe_declared := hc, mayBe_abstracted := .inl rfl, mayBe_asynchronous := ha,
      mem_keyword := by decide, isSign_sign := ⟨g, star, g', hg, hstars, hg', rfl⟩,
      isName_name := hname, ends_name := hrest }
  have hx : x.text = (joinSignature ls).text := by
    show _ = (Spot.start (joinSignature ls).text).rest
    rw [ht, hm₁, hm₂, hm₃, hm₄, hm₅, hm₆, hm₇, hm]
    simp only [x, Exporting.text_eq, List.nil_append, List.append_assoc]
  obtain ⟨more, hmore, hfirst⟩ := x.exists_firstTrimmed hx
  refine ⟨x.withRest more hmore, hfirst, ?_, rfl,
    by simp [x, Exporting.withRest, Exporting.isDefault]⟩
  exact (x.withRest more hmore).isApart_of_not_glued rfl rfl (by rw [hfirst]; exact hglued)

theorem names_arrowHeader : Names arrowHeader
    (flag .exported "export" ++ oneOf ["const", "let", "var"] ++ gap)
    (blanks ++ opt (lit ":" ++ blanks ++ few1 (noneOf "=")) ++ blanks ++ lit "=" ++ blanks ++
      flag .asynchronous "async" ++ opt (lit "<" ++ many (noneOf ">(") ++ lit ">" ++ blanks) ++
      (keep .function (lit "function" ++ edge ++ blanks ++ opt (lit "*") ++ blanks ++
          many Text.isNameChar ++ blanks ++ lit "(") <|>
        keep .group (lit "(") <|>
        (keep .bare name ++ blanks ++ lit "=>")))
    Text.isNameStart Text.isNameChar where
  run := run_of_split rfl _
  onlyName := by decide
  leaves := by
    have hblanks := neverFirst_blanks fun _ => Text.isBlankChar_of_isNameChar
    have htype : NeverFirst Text.isNameChar (lit ":" ++ blanks ++ few1 (noneOf "=")) :=
      ((neverFirst_lit (by decide)).before rfl _).before rfl _
    have hhead := ((hblanks.append htype.opt).append hblanks).append
      (neverFirst_lit (v := "=") (by decide))
    exact ((((hhead.before rfl _).before rfl _).before rfl _).before rfl _).leaves rfl _

theorem lineExports_arrow {ls : List Line}
    (h : arrowHeader.match? (joinSignature ls).text = some r)
    (hexported : r.has .exported = true) : LineExports (firstTrimmed ls) (r.part .name) false := by
  obtain ⟨m, ms, rest, hfront, hname, hm, hrest, hhas⟩ := names_arrowHeader.exists_name h
  obtain ⟨m₂, ms₂, msg, h₂, hgap, rfl⟩ := matches_append_iff.mp hfront
  obtain ⟨m₁, ms₁, msw, h₁, hword, rfl⟩ := matches_append_iff.mp h₂
  obtain ⟨g, hne, hg, hm₂, rfl⟩ := hgap.of_gap
  obtain ⟨w, hw, hm₁, rfl⟩ := hword.of_oneOf
  obtain ⟨e, he, ht, hmse⟩ := h₁.of_flag
  rw [hhas .exported (by decide) (by decide), List.append_nil, List.append_nil, hmse] at hexported
  have hwords : ∀ w ∈ ["const", "let", "var"], w ∈ exportedWords := by decide
  have htext : (joinSignature ls).text = e ++ (w.toList ++ g ++ (r.part .name ++ rest)) := by
    rw [← hm, List.append_assoc, ← hm₂, ← hm₁, ← ht]
    rfl
  apply LineExports.firstTrimmed
  rw [htext]
  exact lineExports_of_words (hwords w hw) (he.isWord (by simpa using hexported)) (.inl rfl)
    (.inl rfl) (.inl rfl) ⟨g, hne, hg, rfl⟩ hname hrest

/-! ## Rows of the table -/

/-- The name under which a type can leave its file: of a namespace the first part. -/
def outerName (r : TypeRecord) : List Char :=
  if r.kind = .namespace then r.name.toList.takeWhile (· ≠ '.') else r.name.toList

/-- The line of a header that declares an export exports its name. -/
def ExportsAgree (t : List Char) : Construct → Prop
  | .function head => head.exported = true → gluedFunction.fits t = false →
      LineExports t head.name.toList head.defaultExport
  | .classHead head => head.exported = true → LineExports t head.name.toList head.defaultExport
  | .interface r => r.exported = true → ∃ isDefault, LineExports t r.name.toList isDefault
  | .type r => r.exported = true → oddType t = false →
      LineExports t (outerName r) false
  | .constant r => r.exported = true → LineExports t r.name.toList r.defaultExport
  | .imports _ | .method _ | .property _ | .decorator _ => True

theorem exported_addMembers (record : InterfaceRecord) (depth : Int) (line : Nat)
    (ls : List Line) : (addMembers record depth line ls).exported = record.exported := by
  obtain ⟨properties, methods, hmembers⟩ := exists_addMembers record depth line ls
  rw [hmembers]

variable {ls : List Line} {c : Construct}

theorem exportsAgree_of_classDeclaration? (h : classDeclaration? ls = some c) :
    ExportsAgree (firstTrimmed ls) c := by
  simp only [classDeclaration?, Option.bind_eq_bind, Option.bind_eq_some_iff] at h
  obtain ⟨m, hm, h⟩ := h
  cases h
  intro hexported
  rw [textOf, String.toList_ofList]
  exact lineExports_class hm hexported

theorem exportsAgree_of_interfaceDeclaration? (h : interfaceDeclaration? ls = some c) :
    ExportsAgree (firstTrimmed ls) c := by
  simp only [interfaceDeclaration?, Option.bind_eq_bind, Option.bind_eq_some_iff] at h
  obtain ⟨m, hm, h⟩ := h
  cases h
  intro hexported
  rw [exported_addMembers] at hexported
  rw [name_addMembers, textOf, String.toList_ofList]
  exact lineExports_interface hm hexported

theorem exportsAgree_of_aliasDeclaration? (h : aliasDeclaration? ls = some c) :
    ExportsAgree (firstTrimmed ls) c := by
  simp only [aliasDeclaration?, Option.bind_eq_bind, Option.bind_eq_some_iff] at h
  obtain ⟨m, hm, h⟩ := h
  cases h
  intro hexported _
  rw [outerName, if_neg (by simp), textOf, String.toList_ofList]
  exact lineExports_alias hm hexported

theorem exportsAgree_of_enumDeclaration? (h : enumDeclaration? ls = some c) :
    ExportsAgree (firstTrimmed ls) c := by
  simp only [enumDeclaration?, Option.bind_eq_bind, Option.bind_eq_some_iff] at h
  obtain ⟨m, hm, h⟩ := h
  cases h
  intro hexported hodd
  rw [outerName, if_neg (by simp), textOf, String.toList_ofList]
  exact lineExports_enum hm hexported hodd

theorem exportsAgree_of_namespaceDeclaration? (h : namespaceDeclaration? ls = some c) :
    ExportsAgree (firstTrimmed ls) c := by
  simp only [namespaceDeclaration?, Option.bind_eq_bind, Option.bind_eq_some_iff] at h
  obtain ⟨m, hm, h⟩ := h
  cases h
  intro hexported hodd
  rw [outerName, if_pos rfl, textOf, String.toList_ofList]
  exact lineExports_namespace hm hexported hodd

theorem exportsAgree_of_functionDeclaration? (h : functionDeclaration? ls = some c) :
    ExportsAgree (firstTrimmed ls) c := by
  simp only [functionDeclaration?, Option.bind_eq_bind, Option.bind_eq_some_iff] at h
  obtain ⟨-, -, m, hm, ⟨params, tail⟩, -, h⟩ := h
  cases h
  intro hexported hglued
  rw [textOf, String.toList_ofList]
  exact lineExports_function hm hexported hglued

theorem exportsAgree_of_arrowDeclaration? (h : arrowDeclaration? ls = some c) :
    ExportsAgree (firstTrimmed ls) c := by
  simp only [arrowDeclaration?, Option.bind_eq_bind, Option.bind_eq_some_iff] at h
  obtain ⟨-, -, m, hm, ⟨kind, params, returnType, body⟩, -, h⟩ := h
  cases h
  intro hexported _
  rw [textOf, String.toList_ofList]
  exact lineExports_arrow hm hexported

theorem exportsAgree_of_constantDeclaration? (h : constantDeclaration? ls = some c) :
    ExportsAgree (firstTrimmed ls) c := by
  simp only [constantDeclaration?, Option.bind_eq_bind, Option.bind_eq_some_iff] at h
  obtain ⟨m, hm, h⟩ := h
  cases h
  intro hexported
  rw [textOf, String.toList_ofList]
  exact lineExports_constant hm hexported

theorem exportsAgree_of_importStatement? (h : importStatement? ls = some c) :
    ExportsAgree (firstTrimmed ls) c := by
  simp only [importStatement?, Option.bind_eq_bind] at h
  split at h
  · cases h
    trivial
  · simp only [Option.bind_eq_some_iff] at h
    obtain ⟨-, -, h⟩ := h
    split at h
    · cases h
      trivial
    · simp only [Option.bind_eq_some_iff] at h
      obtain ⟨m, -, h⟩ := h
      cases h
      trivial

/-- What a header outside classes declares as exported is what its line exports. -/
theorem exportsAgree_of_outside {name : String} (h : firstHit outside ls = some (name, c)) :
    ExportsAgree (firstTrimmed ls) c := by
  obtain ⟨recognise, hmem, hrow⟩ := exists_row_of_firstHit h
  simp only [outside, List.mem_cons, List.not_mem_nil, or_false, Prod.mk.injEq] at hmem
  rcases hmem with ⟨-, rfl⟩ | ⟨-, rfl⟩ | ⟨-, rfl⟩ | ⟨-, rfl⟩ | ⟨-, rfl⟩ | ⟨-, rfl⟩ |
    ⟨-, rfl⟩ | ⟨-, rfl⟩ | ⟨-, rfl⟩
  · exact exportsAgree_of_importStatement? hrow
  · exact exportsAgree_of_classDeclaration? hrow
  · exact exportsAgree_of_interfaceDeclaration? hrow
  · exact exportsAgree_of_aliasDeclaration? hrow
  · exact exportsAgree_of_enumDeclaration? hrow
  · exact exportsAgree_of_namespaceDeclaration? hrow
  · exact exportsAgree_of_functionDeclaration? hrow
  · exact exportsAgree_of_arrowDeclaration? hrow
  · exact exportsAgree_of_constantDeclaration? hrow

end

end CodeAtlas.Brace
