/-
Comments in headers over several lines.

The lines of a header are joined before it is read, and no line knows then where it ended. A
comment behind the last line is behind all that is read: the list is closed, what is read of the
header is settled (`Settled`), and the comment goes to what opens the body, or is allowed there.
So the answer stays, except that a bracket in the comment may have further lines joined
(`SignatureReader.Lawful.goesOn`). A comment on a line that leaves the list open is taken into the
list with the lines that follow, and into the parameters with it.
-/
import CodeAtlas.Proofs.Header.Settled
import CodeAtlas.Proofs.Header.Signature
import CodeAtlas.Proofs.Header.Tail
import CodeAtlas.Proofs.Nesting.Group

set_option autoImplicit false

namespace CodeAtlas

open Pattern

/-- A reader of headers that may take several lines: what it reads up to the parameter list, the
sign of a comment in its language and how it reads the list. It has a list behind some matches,
and behind some the header is such that a comment may follow it. -/
structure SignatureReader where
  read : Recogniser
  header : Pattern
  sign : List Char
  params : List Char → List Parameter
  HasList : Match → Prop
  AllowsComment : Match → Prop

/-- The list behind the match is followed by what opens a body. -/
def Brace.HasOpener (m : Match) : Prop :=
  ∃ params tail o, paramsAndTail? m = some (params, tail) ∧ tail.opener = some o

def Brace.functionReader : SignatureReader where
  read := functionDeclaration?
  header := functionHeader
  sign := ['/', '/']
  params := params
  HasList _ := True
  AllowsComment := HasOpener

/-- A bound function with its keyword is read up to what opens its body; behind an arrow no more
is read of it than the first character. -/
def Brace.arrowReader : SignatureReader where
  read := arrowDeclaration?
  header := arrowHeader
  sign := ['/', '/']
  params := params
  HasList m := m.has .function = true ∨ m.has .group = true
  AllowsComment m := m.has .function = true → HasOpener m

def Brace.methodReader : SignatureReader where
  read := methodDeclaration?
  header := methodHeader
  sign := ['/', '/']
  params := params
  HasList _ := True
  AllowsComment := HasOpener

/-- The type behind the list of a definition is not blank. -/
def Indent.defReader : SignatureReader where
  read := defDeclaration?
  header := defHeader
  sign := ['#']
  params := params
  HasList _ := True
  AllowsComment m := ∀ inner rest tail k, takeGroup? ('(' :: m.rest) = some (inner, rest) →
    defTail.match? rest = some tail → tail.part? .kind = some k → Text.trim k ≠ []

def commentedReaders : List SignatureReader :=
  [Brace.functionReader, Brace.arrowReader, Brace.methodReader, Indent.defReader]

/-- A sign of comments: there is no blank in it, and no bracket that closes a list. -/
structure IsSign (sign : List Char) : Prop where
  ne_nil : sign ≠ []
  black : ∀ c ∈ sign, Text.isBlankChar c = false
  noBracket : ')' ∉ sign

/-- What a reader does when more is joined to a header, and when a list is read. -/
structure SignatureReader.Lawful (R : SignatureReader) : Prop where
  settled : Settled R.header
  sign : IsSign R.sign
  goesOn : ∀ {ls ls' : List Line} {c : Construct} {m : Match} {e : List Char},
    R.read ls = some c → R.header.match? (joinSignature ls).text = some m → R.AllowsComment m →
    (joinSignature ls').text = (joinSignature ls).text ++ e → IsComment R.sign e →
    '\n' ∉ (joinSignature ls').text → R.read ls' = some (c.over (joinSignature ls').further)
  hasList : ∀ {m : Match} (e : List Char), R.HasList m → R.HasList (m.map (Spot.extend e))
  list : ∀ {ls : List Line} {c : Construct} {m : Match},
    R.read ls = some c → R.header.match? (joinSignature ls).text = some m → R.HasList m →
    ∃ head inner rest, c.head? = some head ∧ head.name = textOf (m.part .name) ∧
      head.params = R.params inner ∧ takeGroup? ('(' :: m.rest) = some (inner, rest)

theorem isSign_slashes : IsSign ['/', '/'] where
  ne_nil := List.cons_ne_nil _ _
  black c hc := by
    obtain rfl : c = '/' := by simpa using hc
    rfl
  noBracket := by simp

theorem isSign_hash : IsSign ['#'] where
  ne_nil := List.cons_ne_nil _ _
  black c hc := by
    obtain rfl : c = '#' := by simpa using hc
    rfl
  noBracket := by simp

variable {e g l t x sign : List Char} {m : Match}

/-! ## Parts of a header that goes on -/

theorem part_extend {p : Pattern} (h : p.match? t = some m) (e : List Char) (s : Slot) :
    (m.map (Spot.extend e)).part s = m.part s := by
  rw [Match.part, part?_extend h, Match.part]

/-- What follows the list behind a match is at the end of the text. -/
theorem suffix_of_takeGroup? {p : Pattern} {inner rest : List Char} (hm : p.match? t = some m)
    (h : takeGroup? ('(' :: m.rest) = some (inner, rest)) : rest <:+ t := by
  obtain ⟨u, hu, -⟩ := (matches_of_match? hm).exists_behind
  have hsplit : m.rest = inner ++ ')' :: rest := append_of_closeGroup? h
  have htext : t = u ++ m.rest := hu
  refine ⟨u ++ (inner ++ [')']), ?_⟩
  rw [htext, hsplit]
  simp only [List.append_assoc, List.singleton_append]

namespace Brace

/-- The list stays what it is, and the opener of the body takes what is put behind it. -/
theorem paramsAndTail?_extend {p : Pattern} {list : List Parameter} {tail : Tail} {o : List Char}
    (hm : p.match? t = some m) (h : paramsAndTail? m = some (list, tail))
    (ho : tail.opener = some o) (hline : '\n' ∉ t ++ e) :
    paramsAndTail? (m.map (Spot.extend e)) =
      some (list, { tail with opener := some (o ++ e) }) := by
  simp only [paramsAndTail?, Option.bind_eq_bind, Option.bind_eq_some_iff] at h ⊢
  obtain ⟨⟨inner, rest⟩, hgroup, tail', htail, heq⟩ := h
  obtain ⟨rfl, rfl⟩ := Prod.mk.inj (Option.some.inj heq)
  obtain ⟨returnType, opener⟩ := tail'
  obtain rfl : opener = some o := ho
  have hrest : '\n' ∉ rest := fun hmem =>
    hline (List.mem_append_left e ((suffix_of_takeGroup? hm hgroup).subset hmem))
  have he : '\n' ∉ e := fun hmem => hline (List.mem_append_right t hmem)
  exact ⟨(inner, rest ++ e), closeGroup?_append hgroup e, _, tail?_append htail hrest he, rfl⟩

theorem exists_list_of_paramsAndTail? {list : List Parameter} {tail : Tail}
    (h : paramsAndTail? m = some (list, tail)) :
    ∃ inner rest, list = params inner ∧ takeGroup? ('(' :: m.rest) = some (inner, rest) := by
  simp only [paramsAndTail?, Option.bind_eq_bind, Option.bind_eq_some_iff] at h
  obtain ⟨⟨inner, rest⟩, hgroup, tail', -, heq⟩ := h
  exact ⟨inner, rest, (Prod.mk.inj (Option.some.inj heq)).1.symm, hgroup⟩

theorem bodyAfterArrow_append (he : IsComment ['/', '/'] e) (t : List Char) :
    bodyAfterArrow (t ++ e) = bodyAfterArrow t := by
  obtain ⟨g, y, hg, rfl⟩ := he
  have hblank : Text.isBlank g = true := List.all_eq_true.mpr hg
  by_cases hnil : Text.trim t = []
  · -- nothing but the comment follows the arrow, and a comment opens no block
    have hcode := Text.isBlank_of_trim_eq_nil hnil
    rw [bodyAfterArrow, bodyAfterArrow, Text.trimStart_append_of_isBlank hcode,
      Text.trimStart_append_of_isBlank hblank, Text.trimStart_eq_nil_iff.mpr hcode]
    rfl
  · obtain ⟨u, c, v, hu, hc, rfl, -⟩ := Text.exists_cons_of_trim_ne_nil hnil
    have hstart : ∀ w, (Text.trimStart (u ++ c :: w)).head? = some c := by
      intro w
      rw [Text.trimStart_append_cons hc, Text.trimStart_eq_nil_iff.mpr hu]
      rfl
    rw [bodyAfterArrow, bodyAfterArrow, List.append_assoc, List.cons_append, hstart, hstart]

/-- What a variable is bound to stays what it is. -/
theorem boundFunction?_extend {bound : FunctionKind × List Parameter × Option String × BodyShape}
    (hm : arrowHeader.match? t = some m) (h : boundFunction? m = some bound)
    (hopener : m.has .function = true → HasOpener m) (he : IsComment ['/', '/'] e)
    (hline : '\n' ∉ t ++ e) : boundFunction? (m.map (Spot.extend e)) = some bound := by
  simp only [boundFunction?, Match.has_map, part_extend hm, Option.bind_eq_bind] at h ⊢
  -- a function and a list have an opener behind them, which takes the comment
  by_cases hfunction : m.has .function = true
  · obtain ⟨list, tail, o, hlist, ho⟩ := hopener hfunction
    rw [if_pos hfunction, hlist] at h
    rw [if_pos hfunction, paramsAndTail?_extend hm hlist ho hline]
    exact h
  · rw [if_neg hfunction] at h ⊢
    by_cases hgroup : m.has .group = true
    · rw [if_pos hgroup, Option.bind_eq_some_iff] at h
      obtain ⟨⟨list, tail⟩, hlist, h⟩ := h
      obtain ⟨o, ho, h⟩ := Option.bind_eq_some_iff.mp h
      obtain ⟨body, hbody, h⟩ := Option.bind_eq_some_iff.mp h
      have hmore : Text.after? ['=', '>'] (o ++ e) = some (body ++ e) := by
        rw [Text.after?_eq_some_iff.mp hbody, List.append_assoc]
        exact Text.after?_eq_some_iff.mpr rfl
      rw [if_pos hgroup, paramsAndTail?_extend hm hlist ho hline]
      simp only [Option.bind_some, hmore, bodyAfterArrow_append he]
      exact h
    · -- a bare parameter stands in front of its arrow, and the match ends behind it
      rw [if_neg hgroup] at h ⊢
      have hrest : (m.map (Spot.extend e)).rest = m.rest ++ e := rfl
      rw [hrest, bodyAfterArrow_append he]
      exact h

theorem exists_list_of_boundFunction?
    {bound : FunctionKind × List Parameter × Option String × BodyShape}
    (h : boundFunction? m = some bound) (hlist : m.has .function = true ∨ m.has .group = true) :
    ∃ inner rest, bound.2.1 = params inner ∧ takeGroup? ('(' :: m.rest) = some (inner, rest) := by
  simp only [boundFunction?, Option.bind_eq_bind] at h
  by_cases hfunction : m.has .function = true
  · rw [if_pos hfunction, Option.bind_eq_some_iff] at h
    obtain ⟨⟨list, tail⟩, hparams, h⟩ := h
    cases h
    exact exists_list_of_paramsAndTail? hparams
  · rw [if_neg hfunction, if_pos (hlist.resolve_left hfunction), Option.bind_eq_some_iff] at h
    obtain ⟨⟨list, tail⟩, hparams, h⟩ := h
    obtain ⟨o, -, h⟩ := Option.bind_eq_some_iff.mp h
    obtain ⟨body, -, h⟩ := Option.bind_eq_some_iff.mp h
    cases h
    exact exists_list_of_paramsAndTail? hparams

/-! ## The readers -/

theorem lawful_functionReader : functionReader.Lawful where
  settled := settled_functionHeader
  sign := isSign_slashes
  goesOn := by
    rintro ls ls' c m e h hm ⟨list, tail, o, hlist, ho⟩ htext - hline
    simp only [functionReader, functionDeclaration?, Option.bind_eq_bind, Option.bind_eq_some_iff,
      Option.guard_eq_some'] at h hm ⊢
    obtain ⟨-, -, m', hm', ⟨list', tail'⟩, hlist', h⟩ := h
    obtain rfl : m' = m := Option.some.inj (hm'.symm.trans hm)
    obtain ⟨rfl, rfl⟩ := Prod.mk.inj (Option.some.inj (hlist'.symm.trans hlist))
    cases h
    have hmore := settled_functionHeader hm e
    rw [← htext] at hmore
    -- the keyword is asked for on the first line, and the match says that it stands there
    have hbehind := paramsAndTail?_extend hm hlist ho (htext ▸ hline)
    refine ⟨(), has_function_of_match? hmore, _, hmore, _, hbehind, ?_⟩
    simp only [Match.has_map, part_extend hm]
    rfl
  hasList _ _ := trivial
  list := by
    intro ls c m h hm _
    simp only [functionReader, functionDeclaration?, Option.bind_eq_bind, Option.bind_eq_some_iff,
      Option.guard_eq_some'] at h hm ⊢
    obtain ⟨-, -, m', hm', ⟨list, tail⟩, hlist, h⟩ := h
    obtain rfl : m' = m := Option.some.inj (hm'.symm.trans hm)
    cases h
    obtain ⟨inner, rest, hparams, hgroup⟩ := exists_list_of_paramsAndTail? hlist
    exact ⟨_, inner, rest, rfl, rfl, hparams, hgroup⟩

theorem lawful_arrowReader : arrowReader.Lawful where
  settled := settled_arrowHeader
  sign := isSign_slashes
  goesOn := by
    intro ls ls' c m e h hm hopener htext he hline
    simp only [arrowReader, arrowDeclaration?, Option.bind_eq_bind, Option.bind_eq_some_iff,
      Option.guard_eq_some'] at h hm ⊢
    obtain ⟨-, hguard, m', hm', ⟨kind, list, returnType, body⟩, hbound, h⟩ := h
    obtain rfl : m' = m := Option.some.inj (hm'.symm.trans hm)
    cases h
    have hmore := settled_arrowHeader hm e
    rw [← htext] at hmore
    have hword := any_starts_of_joined ⟨e, htext.symm⟩ (by decide) hguard
    have hbehind := boundFunction?_extend hm hbound hopener he (htext ▸ hline)
    refine ⟨(), hword, _, hmore, _, hbehind, ?_⟩
    simp only [Match.has_map, part_extend hm]
    rfl
  hasList e h := h.imp (fun hhas => (Match.has_map _ _).trans hhas) fun hhas =>
    (Match.has_map _ _).trans hhas
  list := by
    intro ls c m h hm hhas
    simp only [arrowReader, arrowDeclaration?, Option.bind_eq_bind, Option.bind_eq_some_iff,
      Option.guard_eq_some'] at h hm ⊢
    obtain ⟨-, -, m', hm', ⟨kind, list, returnType, body⟩, hbound, h⟩ := h
    obtain rfl : m' = m := Option.some.inj (hm'.symm.trans hm)
    cases h
    obtain ⟨inner, rest, hparams, hgroup⟩ := exists_list_of_boundFunction? hbound hhas
    exact ⟨_, inner, rest, rfl, rfl, hparams, hgroup⟩

theorem lawful_methodReader : methodReader.Lawful where
  settled := settled_methodHeader
  sign := isSign_slashes
  goesOn := by
    rintro ls ls' c m e h hm ⟨list, tail, o, hlist, ho⟩ htext - hline
    simp only [methodReader, methodDeclaration?, Option.bind_eq_bind, Option.bind_eq_some_iff,
      Option.guard_eq_some'] at h hm ⊢
    obtain ⟨m', hm', -, hname, ⟨list', tail'⟩, hlist', h⟩ := h
    obtain rfl : m' = m := Option.some.inj (hm'.symm.trans hm)
    obtain ⟨rfl, rfl⟩ := Prod.mk.inj (Option.some.inj (hlist'.symm.trans hlist))
    cases h
    have hmore := settled_methodHeader hm e
    rw [← htext] at hmore
    have hbehind := paramsAndTail?_extend hm hlist ho (htext ▸ hline)
    refine ⟨_, hmore, (), ?_, _, hbehind, ?_⟩
    · rwa [part_extend hm]
    · simp only [Match.has_map, part_extend hm, part?_extend hm]
      rfl
  hasList _ _ := trivial
  list := by
    intro ls c m h hm _
    simp only [methodReader, methodDeclaration?, Option.bind_eq_bind, Option.bind_eq_some_iff,
      Option.guard_eq_some'] at h hm ⊢
    obtain ⟨m', hm', -, -, ⟨list, tail⟩, hlist, h⟩ := h
    obtain rfl : m' = m := Option.some.inj (hm'.symm.trans hm)
    cases h
    obtain ⟨inner, rest, hparams, hgroup⟩ := exists_list_of_paramsAndTail? hlist
    exact ⟨_, inner, rest, rfl, rfl, hparams, hgroup⟩

end Brace

theorem Indent.lawful_defReader : defReader.Lawful where
  settled := settled_defHeader
  sign := isSign_hash
  goesOn := by
    intro ls ls' c m e h hm hallows htext he hline
    simp only [defReader, defDeclaration?, Option.bind_eq_bind, Option.bind_eq_some_iff,
      Option.guard_eq_some'] at h hm ⊢
    obtain ⟨-, hguard, m', hm', ⟨inner, rest⟩, hgroup, tail, htail, h⟩ := h
    obtain rfl : m' = m := Option.some.inj (hm'.symm.trans hm)
    cases h
    have hmore := settled_defHeader hm e
    rw [← htext] at hmore
    have hword := starts_def_of_joined ⟨e, htext.symm⟩ hguard
    -- the tail is on one line, also with the comment
    have hrest : '\n' ∉ rest ++ e := by
      intro hmem
      rw [htext] at hline
      rcases List.mem_append.mp hmem with hmem | hmem
      · exact hline (List.mem_append_left e ((suffix_of_takeGroup? hm hgroup).subset hmem))
      · exact hline (List.mem_append_right _ hmem)
    obtain ⟨tail', htail', hkind⟩ :=
      defTail_append htail (fun k => hallows inner rest tail k hgroup htail) hrest he
    refine ⟨(), hword, _, hmore, _, closeGroup?_append hgroup e, tail', htail', ?_⟩
    simp only [Match.has_map, part_extend hm, hkind]
    rfl
  hasList _ _ := trivial
  list := by
    intro ls c m h hm _
    simp only [defReader, defDeclaration?, Option.bind_eq_bind, Option.bind_eq_some_iff,
      Option.guard_eq_some'] at h hm ⊢
    obtain ⟨-, -, m', hm', ⟨inner, rest⟩, hgroup, tail, -, h⟩ := h
    obtain rfl : m' = m := Option.some.inj (hm'.symm.trans hm)
    cases h
    exact ⟨_, inner, rest, rfl, rfl, rfl, hgroup⟩

theorem lawful_of_mem {R : SignatureReader} (hR : R ∈ commentedReaders) : R.Lawful := by
  simp only [commentedReaders, List.mem_cons, List.not_mem_nil, or_false] at hR
  rcases hR with rfl | rfl | rfl | rfl
  · exact Brace.lawful_functionReader
  · exact Brace.lawful_arrowReader
  · exact Brace.lawful_methodReader
  · exact Indent.lawful_defReader

/-! ## A comment behind a line -/

/-- Trimming a line takes nothing of a comment but the blanks at its end. -/
theorem exists_comment_of_trim (hsign : IsSign sign) (hx : IsComment sign x) (l : List Char) :
    ∃ e, IsComment sign e ∧ Text.trim (l ++ x) = Text.trim l ++ e := by
  obtain ⟨g, y, hg, rfl⟩ := hx
  have hblank : Text.isBlank g = true := List.all_eq_true.mpr hg
  -- the last character of the sign keeps all in front of it
  have hend : ∀ u, Text.trimEnd (u ++ (sign ++ y)) = u ++ (sign ++ Text.trimEnd y) := by
    intro u
    obtain ⟨s, d, rfl⟩ := (List.eq_nil_or_concat' sign).resolve_left hsign.ne_nil
    have hd : Text.isBlankChar d = false :=
      hsign.black d (List.mem_append_right s (List.mem_singleton_self d))
    have hsplit : ∀ v, u ++ (s ++ [d] ++ v) = (u ++ s) ++ d :: v := fun v => by
      simp only [List.append_assoc, List.singleton_append]
    rw [hsplit, hsplit, Text.trimEnd_append_cons hd]
  by_cases hnil : Text.trim l = []
  · have hcode := Text.isBlank_of_trim_eq_nil hnil
    have hstart : Text.trimStart (l ++ (g ++ (sign ++ y))) = sign ++ y := by
      obtain ⟨c, s, rfl⟩ := List.exists_cons_of_ne_nil hsign.ne_nil
      rw [Text.trimStart_append_of_isBlank hcode, Text.trimStart_append_of_isBlank hblank]
      exact Text.trimStart_append_cons (hsign.black c List.mem_cons_self) [] _
    refine ⟨sign ++ Text.trimEnd y, ⟨[], _, List.forall_mem_nil _, rfl⟩, ?_⟩
    rw [Text.trim, hstart, hnil]
    exact hend []
  · -- the blanks at the end of the code stay, in front of the comment
    obtain ⟨u, c, v, hu, hc, rfl, htrim⟩ := Text.exists_cons_of_trim_ne_nil hnil
    obtain ⟨w, hw, hv⟩ := Text.exists_trimEnd v
    refine ⟨w ++ g ++ (sign ++ Text.trimEnd y), ⟨w ++ g, _, ?_, rfl⟩, ?_⟩
    · exact List.all_eq_true.mp (Text.isBlank_append.trans (by rw [hw, hblank]; rfl))
    · have hstart : Text.trimStart (u ++ c :: v ++ (g ++ (sign ++ y))) =
          c :: (v ++ g) ++ (sign ++ y) := by
        rw [List.append_assoc, List.cons_append, Text.trimStart_append_cons hc,
          Text.trimStart_eq_nil_iff.mpr hu]
        simp only [List.nil_append, List.cons_append, List.append_assoc]
      rw [Text.trim, hstart, hend, htrim]
      conv_lhs => rw [hv]
      simp only [List.cons_append, List.append_assoc]

/-- What begins with a comment does not begin with the bracket that closes a list. -/
theorem head?_comment_append (hsign : IsSign sign) (he : IsComment sign e) (t : List Char) :
    (t ++ e).head? = some ')' ↔ t.head? = some ')' := by
  cases t with
  | cons c t => rfl
  | nil =>
    obtain ⟨g, y, hg, rfl⟩ := he
    refine iff_of_false (fun hhead => ?_) nofun
    have hmem : ')' ∈ g ++ sign := by
      rw [List.nil_append, ← List.append_assoc, List.head?_append_of_ne_nil] at hhead
      · exact List.mem_of_head? hhead
      · exact List.append_ne_nil_of_right_ne_nil g hsign.ne_nil
    rcases List.mem_append.mp hmem with hmem | hmem
    · cases hg _ hmem
    · exact hsign.noBracket hmem

/-- A comment behind the last of the joined lines is behind the joined text, and the next lines
are joined to both. -/
theorem exists_joined_comment {front : List Line} (hsign : IsSign sign)
    (hall : (joinSignature (front ++ [l])).further = front.length) (hx : IsComment sign x) :
    ∃ e, IsComment sign e ∧ ∀ after, joinSignature (front ++ (l ++ x) :: after) =
      joinOpen ((joinSignature (front ++ [l])).text ++ e) front.length after := by
  obtain ⟨e, he, htrim⟩ := exists_comment_of_trim hsign hx l
  refine ⟨e, he, joinSignature_append hall htrim ?_⟩
  rw [htrim]
  exact head?_comment_append hsign he _

/-- What is joined behind a comment is a comment with it. -/
theorem exists_joined_behind {text : List Char} (he : IsComment sign e) (n : Nat)
    (after : List Line) :
    ∃ e', IsComment sign e' ∧ (joinOpen (text ++ e) n after).text = text ++ e' := by
  obtain ⟨g, y, hg, rfl⟩ := he
  obtain ⟨z, hz⟩ := prefix_joinOpen (text ++ (g ++ (sign ++ y))) n after
  refine ⟨g ++ (sign ++ (y ++ z)), ⟨g, _, hg, rfl⟩, ?_⟩
  rw [← hz]
  simp only [List.append_assoc]

/-- The lines that are joined are the first ones, and the rest does not matter. -/
theorem joinSignature_eq_of_further {front after : List Line}
    (hall : (joinSignature (front ++ [l])).further = front.length)
    (hlast : (joinSignature (front ++ l :: after)).further = front.length) :
    joinSignature (front ++ l :: after) = joinSignature (front ++ [l]) := by
  have hmore := joinSignature_append (e := []) hall (List.append_nil _).symm Iff.rfl after
  rw [List.append_nil] at hmore
  rw [hmore] at hlast
  rw [hmore, joinOpen_of_further hlast, ← hall]

section

variable {R : SignatureReader} {front after : List Line}

theorem read_mem_signatureReaders (hR : R ∈ commentedReaders) : R.read ∈ signatureReaders := by
  have hread : commentedReaders.map (·.read) = signatureReaders := rfl
  exact hread ▸ List.mem_map_of_mem hR

/-- A comment behind the last line of a header goes with what opens the body. -/
theorem read_comment_behind (hR : R ∈ commentedReaders) {c : Construct}
    (hall : (joinSignature (front ++ [l])).further = front.length)
    (hm : R.header.match? (joinSignature (front ++ [l])).text = some m)
    (h : R.read (front ++ l :: after) = some c)
    (hlast : (joinSignature (front ++ l :: after)).further = front.length)
    (hallows : R.AllowsComment m) (hx : IsComment R.sign x)
    (hline : ∀ k ∈ front ++ (l ++ x) :: after, '\n' ∉ k) :
    R.read (front ++ (l ++ x) :: after) =
      some (c.over (joinSignature (front ++ (l ++ x) :: after)).further) := by
  have hlaw := lawful_of_mem hR
  obtain ⟨e, he, hjoined⟩ := exists_joined_comment hlaw.sign hall hx
  obtain ⟨e', he', htext⟩ := exists_joined_behind he front.length after
  rw [← hjoined, ← joinSignature_eq_of_further hall hlast] at htext
  rw [← joinSignature_eq_of_further hall hlast] at hm
  refine hlaw.goesOn h hm hallows htext he' ?_
  -- the joined text has no line break, since the lines have none
  refine newline_notMem_joinOpen ?_ (fun k hk => hline k (List.mem_of_mem_drop hk)) 0
  intro hmem
  cases front with
  | nil => exact hline _ List.mem_cons_self (Text.mem_of_mem_trim hmem)
  | cons k front => exact hline k List.mem_cons_self (Text.mem_of_mem_trim hmem)

/-- A comment that leaves no bracket open has no further line joined. -/
theorem further_comment (hsign : IsSign sign)
    (hall : (joinSignature (front ++ [l])).further = front.length) (hx : IsComment sign x)
    (hclosed : parenBalance (joinSignature (front ++ [l ++ x])).text ≤ 0) (after : List Line) :
    (joinSignature (front ++ (l ++ x) :: after)).further = front.length := by
  obtain ⟨e, -, hjoined⟩ := exists_joined_comment hsign hall hx
  rw [hjoined []] at hclosed
  rw [hjoined after]
  exact congrArg Signature.further (joinOpen_of_nonpos hclosed _ _)

/-- A comment on a line that leaves the list open is in the list. -/
theorem params_comment (hR : R ∈ commentedReaders) {c : Construct}
    (hall : (joinSignature (front ++ [l])).further = front.length)
    (hm : R.header.match? (joinSignature (front ++ [l])).text = some m) (hlist : R.HasList m)
    (hopen : takeGroup? ('(' :: m.rest) = none) (hx : IsComment R.sign x)
    (h : R.read (front ++ (l ++ x) :: after) = some c) :
    ∃ head inner g, c.head? = some head ∧ head.name = textOf (m.part .name) ∧
      head.params = R.params inner ∧ Text.isBlank g = true ∧ m.rest ++ (g ++ R.sign) <+: inner := by
  have hlaw := lawful_of_mem hR
  obtain ⟨e, he, hjoined⟩ := exists_joined_comment hlaw.sign hall hx
  obtain ⟨e', ⟨g, y, hg, rfl⟩, htext⟩ := exists_joined_behind he front.length after
  rw [← hjoined] at htext
  have hmore := hlaw.settled hm (g ++ (R.sign ++ y))
  rw [← htext] at hmore
  obtain ⟨head, inner, rest, hhead, hname, hparams, hgroup⟩ :=
    hlaw.list h hmore (hlaw.hasList _ hlist)
  refine ⟨head, inner, g, hhead, ?_, hparams, List.all_eq_true.mpr hg, ?_⟩
  · rw [hname, part_extend hm]
  · -- the bracket that closes the list stands behind the sign of the comment
    have hrest : closeGroup? .code 0 (m.rest ++ (g ++ (R.sign ++ y))) = some (inner, rest) := hgroup
    obtain ⟨q, depth, more, rfl, hmore⟩ := exists_of_closeGroup?_append hopen hrest
    have hnone : ')' ∉ g ++ R.sign := by
      intro hmem
      rcases List.mem_append.mp hmem with hmem | hmem
      · cases hg _ hmem
      · exact hlaw.sign.noBracket hmem
    rw [← List.append_assoc] at hmore
    obtain ⟨-, -, z, rfl, -⟩ := exists_of_closeGroup?_append (closeGroup?_of_notMem hnone) hmore
    exact ⟨z, List.append_assoc _ _ _⟩

/-- A comment behind the last line of a header changes nothing but how many lines are joined, if
the header allows a comment there, and not even that if it leaves no bracket open. A comment on a
line that leaves the parameter list open is in the list from which the parameters are read. -/
theorem comment_in_signature (hR : R ∈ commentedReaders)
    (hall : (joinSignature (front ++ [l])).further = front.length)
    (hm : R.header.match? (joinSignature (front ++ [l])).text = some m)
    (hx : IsComment R.sign x) (after : List Line) :
    (∀ c, R.read (front ++ l :: after) = some c →
      (joinSignature (front ++ l :: after)).further = front.length → R.AllowsComment m →
      (∀ k ∈ front ++ (l ++ x) :: after, '\n' ∉ k) →
        R.read (front ++ (l ++ x) :: after) =
            some (c.over (joinSignature (front ++ (l ++ x) :: after)).further) ∧
          (parenBalance (joinSignature (front ++ [l ++ x])).text ≤ 0 →
            R.read (front ++ (l ++ x) :: after) = some c)) ∧
      (R.HasList m → takeGroup? ('(' :: m.rest) = none →
        ∀ c, R.read (front ++ (l ++ x) :: after) = some c →
          ∃ head inner g, c.head? = some head ∧ head.name = textOf (m.part .name) ∧
            head.params = R.params inner ∧ Text.isBlank g = true ∧
            m.rest ++ (g ++ R.sign) <+: inner) := by
  have hlaw := lawful_of_mem hR
  refine ⟨?_, fun hlist hopen c h => params_comment hR hall hm hlist hopen hx h⟩
  intro c h hlast hallows hline
  have hread := read_comment_behind hR hall hm h hlast hallows hx hline
  refine ⟨hread, fun hclosed => ?_⟩
  -- an answer counts the lines that are joined, so it is the one over so many lines
  have hsame : R.read (front ++ l :: after) = some (c.over front.length) := by
    have hover := readsJoined (read_mem_signatureReaders hR) rfl h
    rwa [hlast] at hover
  rw [hread, further_comment hlaw.sign hall hx hclosed, ← hsame, h]

end

/-- A comment with an apostrophe and a bracket behind a function, and a comment behind the first
of two parameters. -/
theorem comment_in_signature_function :
    Brace.functionDeclaration? ["function f(".toList, "  a: string,".toList,
          "): void \x7b  // don't (yet".toList, "  g()".toList] =
        some (.function
          { name := "f", kind := .function, params := [{ name := "a", typeText := some "string" }],
            returnType := some "void", further := 2 }) ∧
      ∃ inner g, [{ name := "a" }, { name := "// first b" }] = Brace.params inner ∧
        Text.isBlank g = true ∧ "a,".toList ++ (g ++ ['/', '/']) <+: inner := by
  have hR : Brace.functionReader ∈ commentedReaders := List.mem_cons_self
  refine ⟨?_, ?_⟩
  · have hall : (joinSignature (["function f(".toList, "  a: string,".toList] ++
        ["): void \x7b".toList])).further = 2 := by decide +kernel
    obtain ⟨m, hm⟩ := Option.isSome_iff_exists.mp (show (Brace.functionHeader.match?
      "function f(a: string,): void \x7b".toList).isSome = true by decide +kernel)
    have hopener : Brace.HasOpener m := by
      have htail : (Brace.functionHeader.match? "function f(a: string,): void \x7b".toList).bind
          Brace.paramsAndTail? = some ([{ name := "a", typeText := some "string" }],
            { returnType := some "void", opener := some ['\x7b'] }) := by decide +kernel
      rw [hm] at htail
      exact ⟨_, _, _, htail, rfl⟩
    have hx : IsComment ['/', '/'] "  // don't (yet".toList :=
      ⟨"  ".toList, " don't (yet".toList, List.all_eq_true.mp rfl, rfl⟩
    exact ((comment_in_signature hR hall hm hx ["  g()".toList]).1 _ (by decide +kernel)
      (by decide +kernel) hopener (by decide)).2 (by decide +kernel)
  · have hall : (joinSignature (["function f(".toList] ++ ["  a,".toList])).further = 1 := by
      decide +kernel
    obtain ⟨m, hm⟩ := Option.isSome_iff_exists.mp (show (Brace.functionHeader.match?
      "function f(a,".toList).isSome = true by decide +kernel)
    have hrest : m.rest = "a,".toList := by
      have hlist : (Brace.functionHeader.match? "function f(a,".toList).map Match.rest =
          some "a,".toList := by decide +kernel
      rw [hm] at hlist
      exact Option.some.inj hlist
    have hx : IsComment ['/', '/'] "  // first".toList :=
      ⟨"  ".toList, " first".toList, List.all_eq_true.mp rfl, rfl⟩
    have hread : Brace.functionDeclaration? ["function f(".toList, "  a,  // first".toList,
        "  b) \x7b".toList] =
          some (.function
            { name := "f", kind := .function,
              params := [{ name := "a" }, { name := "// first b" }], further := 2 }) := by
      decide +kernel
    obtain ⟨head, inner, g, hhead, -, hparams, hg, hinner⟩ :=
      (comment_in_signature hR hall hm hx ["  b) \x7b".toList]).2 trivial (by rw [hrest]; rfl) _
        hread
    cases hhead
    rw [hrest] at hinner
    exact ⟨inner, g, hparams, hg, hinner⟩

/-- The parameters of a function and of a definition, with a comment behind the first one. -/
theorem name_of_commented_parameter :
    Brace.functionDeclaration? ["function f(".toList, "    a,".toList, "    b,".toList,
          ") \x7b".toList] =
        some (.function
          { name := "f", kind := .function, params := [{ name := "a" }, { name := "b" }],
            further := 3 }) ∧
      Brace.functionDeclaration? ["function f(".toList, "    a, // first".toList,
          "    b,".toList, ") \x7b".toList] =
        some (.function
          { name := "f", kind := .function, params := [{ name := "a" }, { name := "// first b" }],
            further := 3 }) ∧
      Indent.defDeclaration? ["def f(".toList, "    a,".toList, "    b,".toList, "):".toList] =
        some (.function
          { name := "f", kind := .function, params := [{ name := "a" }, { name := "b" }],
            exported := true, visibility := some .everyone, further := 3 }) ∧
      Indent.defDeclaration? ["def f(".toList, "    a,  # first".toList, "    b,".toList,
          "):".toList] =
        some (.function
          { name := "f", kind := .function, params := [{ name := "a" }, { name := "# first b" }],
            exported := true, visibility := some .everyone, further := 3 }) := by
  decide +kernel

end CodeAtlas
