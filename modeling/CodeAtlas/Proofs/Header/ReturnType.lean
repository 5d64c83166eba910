/-
Headers that end behind their return type.

The return type of a header takes as few characters as it can. Where nothing opens a body, that is
all of them: a text that is trimmed at its end and holds no opener is read as the type, without the
blanks around it (`tail?_returnType`).
-/
import CodeAtlas.Proofs.Header.Signature
import CodeAtlas.Proofs.Header.Tail

set_option autoImplicit false

namespace CodeAtlas.Brace

open Pattern

/-- A text on one line that no body begins in. -/
structure IsReturnType (t : List Char) : Prop where
  ne_nil : t ≠ []
  trimmed : Text.trim t = t
  inLine : '\n' ∉ t
  noBody : Text.hasAny ["\x7b", "=>", ";"] t = false

variable {c : Char} {g g' t u w : List Char} {m : Spot}

/-- A text without blanks does not reach into blanks. -/
theorem infix_of_infix_append {s : List Char} (hs : ∀ c ∈ s, Text.isBlankChar c = false)
    (hg : Text.isBlank g = true) (h : s <:+: t ++ g) : s <:+: t := by
  obtain ⟨a, b, hsplit⟩ := h
  rcases List.append_eq_append_iff.mp hsplit with ⟨z, ht, -⟩ | ⟨z, hz, hrest⟩
  · exact ⟨a, z, ht.symm⟩
  · -- what is left of the text would be blank
    have hblank : ∀ c ∈ z, Text.isBlankChar c = true := fun c hc =>
      Text.isBlankChar_of_mem hg (hrest ▸ List.mem_append_left b hc)
    rcases List.append_eq_append_iff.mp hz with ⟨v, ht, hv⟩ | ⟨v, ha, hv⟩
    · have hnil : z = [] := by
        refine List.eq_nil_iff_forall_not_mem.mpr fun c hc => ?_
        have hblack := hs c (hv ▸ List.mem_append_right v hc)
        rw [hblank c hc] at hblack
        cases hblack
      rw [hnil, List.append_nil] at hv
      exact ⟨a, [], by rw [hv, List.append_nil, ht]⟩
    · have hnil : s = [] := by
        refine List.eq_nil_iff_forall_not_mem.mpr fun c hc => ?_
        have hblack := hs c hc
        rw [hblank c (hv ▸ List.mem_append_right v hc)] at hblack
        cases hblack
      rw [hnil]
      exact List.nil_infix

theorem IsReturnType.not_beginsBody (ht : IsReturnType t) (hg : Text.isBlank g = true)
    (hu : u <:+ t ++ g) : ¬ BeginsBody u := by
  have hnone : ∀ s ∈ ["\x7b", "=>", ";"], ∀ v, u ≠ s.toList ++ v := by
    intro s hs v hv
    have hblack : ∀ s ∈ ["\x7b", "=>", ";"], ∀ c ∈ s.toList, Text.isBlankChar c = false := by
      decide
    have hinfix : s.toList <:+: t ++ g := List.IsInfix.trans ⟨[], v, hv.symm⟩ hu.isInfix
    exact List.any_eq_false.mp ht.noBody s hs
      (Text.has_of_infix (infix_of_infix_append (hblack s hs) hg hinfix))
  rintro ⟨v, hv | hv | hv⟩
  · exact hnone "\x7b" (by decide) v hv
  · exact hnone "=>" (by decide) v hv
  · exact hnone ";" (by decide) v hv

/-- Where no body begins, the header is closed at the end of the text only. -/
theorem rest_of_run_close {r : Match} (hm : ∀ u, u <:+ m.rest → ¬ BeginsBody u)
    (h : (blanks ++ close).run done m = some r) : Text.isBlank m.rest = true := by
  obtain ⟨a, ms, ms', hblanks, hclose, -⟩ := matches_append_iff.mp (matches_of_run h)
  obtain ⟨b, ms₁, ms₂, hopt, hlast, -⟩ := matches_append_iff.mp hclose
  obtain ⟨e, he, hrest, -⟩ := hblanks.of_blanks
  rcases hopt.of_opt with hkeep | ⟨hsame, -⟩
  · obtain ⟨ms₃, hbody, -⟩ := hkeep.exists_of_keep
    exact absurd (beginsBody_of_matches hbody) (hm _ ⟨e, hrest.symm⟩)
  · cases hlast with
    | last hend =>
      rw [hsame, hend, List.append_nil] at hrest
      rw [hrest]
      exact List.all_eq_true.mpr he

/-- Where only blanks are left, the header is closed without a body. -/
theorem finds_close (hm : Text.isBlank m.rest = true) :
    Finds (blanks ++ close) m (m.behind m.rest []) [] := by
  have hblanks : Finds blanks m (m.behind m.rest []) [] :=
    finds_many (List.append_nil m.rest).symm (List.all_eq_true.mp hm) rfl
  refine hblanks.append (Finds.append (finds_opt_of_not fun m' ms h => ?_) (finds_last rfl))
  obtain ⟨ms', hbody, -⟩ := h.exists_of_keep
  obtain ⟨v, hv | hv | hv⟩ := beginsBody_of_matches hbody <;> cases hv

/-- The type ends where the text does, but for blanks. -/
theorem run_typedClose (ht : IsReturnType (c :: w)) (hg : Text.isBlank g = true)
    (hm : m.rest = c :: (w ++ g)) : (typedClose close).run done m =
      some ⟨m.behind (c :: w ++ g) [], [(.kind, m), (.kind, m.behind (c :: w) g)]⟩ := by
  have hline : ∀ d ∈ c :: w, inLine d = true := fun d hd => inLine_of_mem ht.inLine hd
  have hclosed : (blanks ++ close).run done (m.behind (c :: w) g) =
      some (.done (m.behind (c :: w ++ g) [])) := by
    rw [finds_close hg (k := done) rfl, ← Spot.behind_behind]
    rfl
  -- the last character of the type is no blank
  have hopen : ∀ u d v, w = u ++ d :: v →
      (blanks ++ close).run done (m.behind (c :: u) (d :: v ++ g)) = none := by
    intro u d v hsplit
    refine Option.eq_none_iff_forall_ne_some.mpr fun r hr => ?_
    have hsuffix : d :: v ++ g <:+ c :: w ++ g := ⟨c :: u, by rw [hsplit]; simp⟩
    have hblank : Text.isBlank (d :: v ++ g) = true :=
      rest_of_run_close (fun x hx => ht.not_beginsBody hg (hx.trans hsuffix)) hr
    rw [Text.isBlank_append, Bool.and_eq_true] at hblank
    have htrimmed : Text.trimEnd (c :: u ++ d :: v) = c :: u ++ d :: v := by
      have htrim := ht.trimmed
      rw [hsplit] at htrim
      rw [List.cons_append, ← htrim, Text.trimEnd_trim]
    exact List.cons_ne_nil d v (Text.eq_nil_of_trimEnd_append htrimmed hblank.1)
  rw [typedClose, run_append, run_keep_few1 .kind hm hline hopen hclosed]
  rfl

/-- Without a type, only blanks stand behind the parameters. -/
theorem tail?_blank (hg : Text.isBlank g = true) : tail? g = some ⟨none, none⟩ := by
  have hfirst : Finds blanks (.start g) ((Spot.start g).behind g []) [] :=
    finds_many (List.append_nil g).symm (List.all_eq_true.mp hg) rfl
  have hnone : Finds (opt (lit ":" ++ blanks ++ keep .kind (few1 inLine)))
      ((Spot.start g).behind g []) ((Spot.start g).behind g []) [] := by
    refine finds_opt_nothing fun k => ?_
    rw [run_append]
    exact run_append_of_lit rfl
  have hall := (hfirst.append (hnone.append (finds_close rfl))).match?
  have hsplit : headerTail = blanks ++ (opt (lit ":" ++ blanks ++ keep .kind (few1 inLine)) ++
      (blanks ++ close)) := rfl
  rw [tail?, hsplit, hall]
  rfl

/-- A type that no body follows is read as it stands behind the colon, without the blanks around
it. -/
theorem tail?_returnType (ht : IsReturnType t) {g'' : List Char} (hg : Text.isBlank g = true)
    (hg' : Text.isBlank g' = true) (hg'' : Text.isBlank g'' = true) :
    tail? (g ++ ':' :: (g' ++ (t ++ g''))) = some ⟨some (textOf t), none⟩ := by
  obtain ⟨c, w, rfl⟩ := List.exists_cons_of_ne_nil ht.ne_nil
  have hc : Text.isBlankChar c = false := by
    have hhead := Text.head?_trimStart_any (c :: w)
    rwa [← Text.head?_trim, ht.trimmed] at hhead
  have hstart : (Spot.start (g ++ ':' :: (g' ++ (c :: w ++ g'')))).rest =
      g ++ (":".toList ++ (g' ++ c :: (w ++ g''))) := rfl
  have hexact : (Spot.start (g ++ ':' :: (g' ++ (c :: w ++ g'')))).Exact := rfl
  have hwhole : (Spot.start (g ++ ':' :: (g' ++ (c :: w ++ g'')))).rest =
      (g ++ (":".toList ++ g')) ++ c :: (w ++ g'') := by
    rw [hstart]
    simp only [List.append_assoc]
  have hrun := run_tailOf (List.all_eq_true.mp hg) (by decide) (List.all_eq_true.mp hg') hc hstart
    (run_typedClose ht hg'' rfl)
  rw [tail?, headerTail_eq, match?_eq, hrun, Option.map_some,
    part?_of_marks (b := []) (List.prefix_refl _) List.not_mem_nil (hexact.behind hwhole) rfl,
    part?_eq_none_of_marks (s := .tail) (by simp)]
  simp [nonempty?, ht.trimmed]

end CodeAtlas.Brace
