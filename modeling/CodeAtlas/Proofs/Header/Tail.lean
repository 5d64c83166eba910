/-
What follows a parameter list, in a text that goes on.

Behind its parameter list a header has a return type, if there is a sign for it, and then what
closes the header (`tailOf`). The type is the shortest text behind which the header can be closed,
so it ends in front of the first place where that is possible, and what is put behind the text
changes nothing if it changes nothing about how the header is closed there (`ClosesAt`). What
closes the header takes the text to its end, whatever it is, and so the spots at the end of the
text are moved to the end of the longer one (`Spot.moved`).
-/
import CodeAtlas.Proofs.Pattern.Extend
import CodeAtlas.Proofs.Pattern.Word
import CodeAtlas.Header.Brace.Function
import CodeAtlas.Header.Indent.Function
import CodeAtlas.Proofs.Text.Trim

set_option autoImplicit false

namespace CodeAtlas

open Pattern

/-- The spot in the longer text; the end of the text becomes the end of the longer one. -/
def Spot.moved (e : List Char) (m : Spot) : Spot :=
  if m.rest = [] then (m.extend e).behind e [] else m.extend e

/-- A comment behind any blanks. -/
def IsComment (sign e : List Char) : Prop :=
  ∃ g y, (∀ b ∈ g, Text.isBlankChar b = true) ∧ e = g ++ (sign ++ y)

variable {e o t u w y : List Char} {m : Spot} {c d : Char} {s : String} {K : Pattern}

theorem Spot.moved_of_ne (h : m.rest ≠ []) : m.moved e = m.extend e := if_neg h

theorem Spot.rest_moved (h : m.rest = []) : (m.moved e).rest = [] := by
  rw [Spot.moved, if_pos h]
  rfl

theorem Spot.Exact.moved_end (h : m.Exact) :
    (m.behind m.rest []).moved e = (m.extend e).behind (m.rest ++ e) [] := by
  have hend := h.extend_behind (e := e) (List.append_nil m.rest).symm
  rw [Spot.moved, if_pos (show (m.behind m.rest []).rest = [] from rfl), ← hend,
    Spot.behind_behind]

namespace Pattern

/-- A repetition that goes to the end of the text goes to the end of the longer one. -/
theorem persists_toEnd {p : Char → Bool} {k : Spot → Option Match} (hm : m.Exact)
    (hp : ∀ c ∈ m.rest, p c = true) (he : ∀ c ∈ e, p c = true)
    (hk : ∀ z : Spot, z.rest = [] →
      ∃ r, k z = some r ∧ k (z.moved e) = some (r.map (Spot.moved e))) :
    Persists e (Spot.moved e) ((many p).run k) ((many p).run k) m := by
  obtain ⟨r, hr, hr'⟩ := hk (m.behind m.rest []) rfl
  have hshort : (many p).run k m = some r := run_many (List.append_nil m.rest).symm hp rfl hr
  have hlong : (many p).run k (m.extend e) = some (r.map (Spot.moved e)) := by
    rw [hm.moved_end] at hr'
    refine run_many (List.append_nil _).symm ?_ rfl hr'
    exact fun c hc => (List.mem_append.mp hc).elim (hp c) (he c)
  rw [Persists, hshort, hlong]
  rfl

theorem run_last (h : m.rest = []) : last.run done m = some (.done m) := by
  rw [run, h]
  rfl

theorem run_markedEnd (s : Slot) (h : m.rest = []) :
    (mark s).run (last.run done) m = some ((Match.done m).mark s m) := by
  rw [run, run_last h]
  rfl

theorem persists_last (hne : m.rest ≠ []) :
    Persists e (Spot.moved e) (last.run done) (last.run done) m := by
  obtain ⟨c, rest, hrest⟩ := List.exists_cons_of_ne_nil hne
  rw [Persists, run, run, Spot.extend, hrest]
  rfl

/-! ## The type and what closes the header -/

/-- What follows a parameter list: a type behind its sign, and what closes the header. -/
def tailOf (s : String) (K : Pattern) : Pattern :=
  blanks ++ (opt (lit s ++ blanks ++ keep .kind (few1 inLine)) ++ (blanks ++ K))

/-- A type, and what closes the header. -/
def typedClose (K : Pattern) : Pattern := keep .kind (few1 inLine) ++ (blanks ++ K)

/-- A header can be closed at the end `o` of the text, and in front of it and there it is closed
in the longer text as before. -/
structure ClosesAt (K : Pattern) (e o : List Char) : Prop where
  black : ∃ d v, o = d :: v ∧ Text.isBlankChar d = false
  closes : ∀ m : Spot, m.rest = o → (K.run done m).isSome = true
  persists : ∀ m : Spot, m.Exact → o <:+ m.rest → '\n' ∉ m.rest →
    Persists e (Spot.moved e) (K.run done) (K.run done) m

theorem inLine_of_mem (h : '\n' ∉ t) (hc : c ∈ t) : inLine c = true := by
  refine decide_eq_true ?_
  rintro rfl
  exact h hc

theorem ClosesAt.ne_nil (h : ClosesAt K e o) : o ≠ [] := by
  obtain ⟨d, v, rfl, -⟩ := h.black
  exact List.cons_ne_nil d v

theorem ClosesAt.persists_blanks (h : ClosesAt K e o) (hm : m.InFront u o)
    (hline : '\n' ∉ u ++ o) :
    Persists e (Spot.moved e) ((blanks ++ K).run done) ((blanks ++ K).run done) m := by
  obtain ⟨d, v, ho, hblack⟩ := h.black
  rw [ho] at hm
  refine persists_append (persists_run ?_ (fun _ => Spot.moved_of_ne) hblack hm)
  intro m hm
  obtain ⟨x, -, hrest⟩ := hm.rest
  rw [← ho] at hrest
  refine h.persists m hm.exact ⟨x, hrest.symm⟩ fun hmem => hline ?_
  rw [ho]
  exact hm.rest_suffix.subset hmem

/-- The type ends where it did. -/
theorem ClosesAt.persists_typedClose (h : ClosesAt K e o) (hline : '\n' ∉ c :: (w ++ o))
    (hm : m.Exact) (hrest : m.rest = c :: (w ++ o)) :
    Persists e (Spot.moved e) ((typedClose K).run done) ((typedClose K).run done) m := by
  have hne : ∀ {m : Spot}, m.InFront w o → m.rest ≠ [] := by
    intro m hm
    obtain ⟨x, -, hx⟩ := hm.rest
    rw [hx]
    exact List.append_ne_nil_of_right_ne_nil x h.ne_nil
  have hclose : ∀ m : Spot, m.InFront w o → Persists e (Spot.moved e)
      ((mark .kind).run ((blanks ++ K).run done)) ((mark .kind).run ((blanks ++ K).run done)) m :=
    fun m hm => persists_mark .kind (Spot.moved_of_ne (hne hm))
      (h.persists_blanks hm (fun hmem => hline (List.mem_cons_of_mem c hmem)))
  have hsome : ∀ m : Spot, m.Exact → m.rest = o →
      ((mark .kind).run ((blanks ++ K).run done) m).isSome = true := by
    intro m _ hm
    rw [run, Option.isSome_map, run_append]
    exact (matches_many_nothing _ m).isSome_run (h.closes m hm)
  have hc : inLine c = true := inLine_of_mem hline List.mem_cons_self
  have hbehind : (m.behind [c] (w ++ o)).InFront w o := (hm.behind hrest).inFront rfl
  have hkind := persists_one hm hrest hc (persists_few hclose hsome hbehind (p := inLine))
  exact persists_append (persists_keep .kind (Spot.moved_of_ne (hrest ▸ List.cons_ne_nil _ _))
    (persists_append hkind))

/-- The type begins behind the blanks that follow its sign. -/
theorem run_tailOf {g g' : List Char} {r : Match} (hg : ∀ b ∈ g, Text.isBlankChar b = true)
    (hs : BeginsBlack s) (hg' : ∀ b ∈ g', Text.isBlankChar b = true)
    (hc : Text.isBlankChar c = false) (hm : m.rest = g ++ (s.toList ++ (g' ++ c :: y)))
    (h : (typedClose K).run done (m.behind (g ++ (s.toList ++ g')) (c :: y)) = some r) :
    (tailOf s K).run done m = some r := by
  rw [tailOf, run_append]
  refine run_many hm hg ?_ ?_
  · have hbegins : Begins [s] (s.toList ++ (g' ++ c :: y)) :=
      ⟨s, List.mem_singleton.mpr rfl, List.prefix_append _ _⟩
    exact hbegins.head? (by simpa using hs)
  rw [run_append]
  show ((lit s ++ blanks ++ keep .kind (few1 inLine)).run _ _).or _ = some r
  rw [run_append, run_append, run_lit rfl]
  have htype : blanks.run ((typedClose K).run done) ((m.behind g
      (s.toList ++ (g' ++ c :: y))).behind s.toList (g' ++ c :: y)) = some r := by
    refine run_many rfl hg' hc ?_
    rw [Spot.behind_behind, Spot.behind_behind]
    exact h
  have hcont : (keep .kind (few1 inLine)).run ((blanks ++ K).run done) = (typedClose K).run done :=
    funext fun m => (run_append _ _ _ m).symm
  rw [hcont, htype]
  rfl

/-- What stands in place of a text with another first character is not that text. -/
theorem run_lit_of_head? {k : Spot → Option Match} {b : Char} (hs : s.toList.head? = some d)
    (hm : m.rest.head? = some b) (hne : d ≠ b) : (lit s).run k m = none := by
  refine run_lit_of_none (Option.eq_none_iff_forall_ne_some.mpr ?_)
  intro rest hrest
  rw [Text.after?_eq_some_iff.mp hrest, List.head?_append, hs] at hm
  exact hne (Option.some.inj hm)

/-- A header without a type is closed as before. -/
theorem ClosesAt.match?_untyped (h : ClosesAt K e o) {g : List Char}
    (hg : ∀ b ∈ g, Text.isBlankChar b = true) (hs : s.toList.head? = some d)
    (hd : Text.isBlankChar d = false) (hne : o.head? ≠ some d) (hline : '\n' ∉ g ++ o) :
    (tailOf s K).match? (g ++ o ++ e) =
      ((tailOf s K).match? (g ++ o)).map (Match.map (Spot.moved e)) := by
  obtain ⟨b, v, ho, hblack⟩ := h.black
  have hstart : (Spot.start (g ++ o)).InFront g (b :: v) := by
    rw [ho]
    exact Spot.inFront_start g _
  refine match?_extend (persists_append (persists_run ?_ (fun _ => Spot.moved_of_ne) hblack hstart))
  intro m hm
  -- the sign of a type would be a blank or the begin of what closes the header
  have hnone : ∀ k : Spot → Option Match, (lit s).run k m = none ∧
      (lit s).run k (m.extend e) = none := by
    intro k
    obtain ⟨a, rest, hrest⟩ := List.exists_cons_of_ne_nil (List.ne_nil_of_mem hm.mem)
    have hda : d ≠ a := by
      rintro rfl
      rcases hm.next hrest with hmem | rfl
      · rw [hg d hmem] at hd
        cases hd
      · exact hne (by rw [ho]; rfl)
    have hhead : (m.extend e).rest.head? = some a := by
      rw [Spot.extend, hrest]
      rfl
    exact ⟨run_lit_of_head? hs (by rw [hrest]; rfl) hda, run_lit_of_head? hs hhead hda⟩
  refine persists_append (persists_opt ?_ (h.persists_blanks (ho ▸ hm) hline))
  refine persists_append (persists_append ?_)
  rw [Persists, (hnone _).1, (hnone _).2]
  rfl

/-- A header with a type is closed behind the same type as before. -/
theorem ClosesAt.match?_typed (h : ClosesAt K e o) {g g' : List Char}
    (hg : ∀ b ∈ g, Text.isBlankChar b = true) (hs : BeginsBlack s)
    (hg' : ∀ b ∈ g', Text.isBlankChar b = true) (hc : Text.isBlankChar c = false)
    (hline : '\n' ∉ t) (ht : t = g ++ (s.toList ++ (g' ++ c :: (w ++ o)))) :
    (tailOf s K).match? (t ++ e) = ((tailOf s K).match? t).map (Match.map (Spot.moved e)) := by
  have hwhole : t = (g ++ (s.toList ++ g')) ++ c :: (w ++ o) := by
    rw [ht]
    simp only [List.append_assoc]
  have hline : '\n' ∉ c :: (w ++ o) := fun hmem => hline <| by
    rw [hwhole]
    exact List.mem_append_right _ hmem
  have hstart : (Spot.start t).Exact := rfl
  have hexact := hstart.behind hwhole
  let m := (Spot.start t).behind (g ++ (s.toList ++ g')) (c :: (w ++ o))
  -- the type can be closed where it is closed now, so some run succeeds
  have hsome : ((typedClose K).run done m).isSome = true := by
    have hall : ∀ b ∈ w, inLine b = true := fun b hb =>
      inLine_of_mem hline (List.mem_cons_of_mem c (List.mem_append_left o hb))
    have hkind : Matches (few1 inLine) m ((m.behind [c] (w ++ o)).behind w o) [] :=
      matches_append_iff.mpr ⟨_, [], [], .one (inLine_of_mem hline List.mem_cons_self) rfl,
        .few hall rfl, rfl⟩
    rw [typedClose, run_append]
    refine (hkind.keep .kind).isSome_run ?_
    rw [run_append]
    exact (matches_many_nothing _ _).isSome_run (h.closes _ rfl)
  obtain ⟨r, hr⟩ := Option.isSome_iff_exists.mp hsome
  have hshort : (tailOf s K).match? t = some r :=
    (match?_eq _ _).trans (run_tailOf hg hs hg' hc ht hr)
  have hlong : (tailOf s K).match? (t ++ e) = some (r.map (Spot.moved e)) := by
    have hmore := h.persists_typedClose hline hexact rfl
    rw [Persists, hr, ← hstart.extend_behind hwhole] at hmore
    rw [match?_eq, ← Spot.start_extend]
    have htext : t ++ e = g ++ (s.toList ++ (g' ++ c :: (w ++ o ++ e))) := by
      rw [ht]
      simp only [List.append_assoc, List.cons_append]
    exact run_tailOf hg hs hg' hc htext hmore
  rw [hshort, hlong]
  rfl

theorem matches_of_run {p : Pattern} {r : Match} (h : p.run done m = some r) :
    Matches p m r.stop r.marks := by
  obtain ⟨m', ms, r', hmatch, hdone, rfl⟩ := exists_matches_of_run h
  obtain rfl : Match.done m' = r' := Option.some.inj hdone
  show Matches p m m' (ms ++ [])
  rwa [List.append_nil]

/-- The spots that are marked in front of a spot that is not at the end. -/
theorem moved_of_mark {front : Pattern} {a : Spot} {r : Match} {slot : Slot}
    {ms more : List (Slot × Spot)} (hfront : Matches front m a ms) (hm : m.Exact)
    (hne : a.rest ≠ []) (hmarks : r.marks = ms ++ more) (hmore : slot ∉ more.map (·.1)) :
    ∀ b, (slot, b) ∈ r.marks → b.Exact ∧ b.moved e = b.extend e := by
  intro b hb
  have hnot : (slot, b) ∉ more := fun hmem => hmore (List.mem_map_of_mem hmem)
  rw [hmarks] at hb
  have hbefore := (List.mem_append.mp hb).resolve_right hnot
  have hsuffix := hfront.suffix_stop_of_mem hbefore
  exact ⟨hfront.exact_of_mem hm hbefore,
    Spot.moved_of_ne fun hnil => hne (List.suffix_nil.mp (hnil ▸ hsuffix))⟩

/-- The type takes one character, and then what stands in front of the end of the header. -/
theorem exists_of_type {m' : Spot} {ms : List (Slot × Spot)}
    (h : Matches (keep .kind (few1 inLine) ++ blanks) m m' ms) (hm : m.rest = c :: y) :
    ∃ w, y = w ++ m'.rest := by
  obtain ⟨m₁, ms₁, ms₂, hkeep, hblanks, -⟩ := matches_append_iff.mp h
  obtain ⟨ms₃, hkind, -⟩ := hkeep.exists_of_keep
  obtain ⟨m₂, ms₄, ms₅, hone, hfew, -⟩ := matches_append_iff.mp hkind
  obtain ⟨v, hv, -⟩ := hfew.exists_behind
  obtain ⟨g, hg, -⟩ := hblanks.exists_behind
  cases hone with
  | one _ hrest =>
    refine ⟨v ++ g, ?_⟩
    rw [List.append_assoc, ← hg, ← hv]
    exact (List.cons.inj (hm.symm.trans hrest)).2

end Pattern

/-! ## Headers with curly brackets -/

namespace Brace

/-- What closes a header: what opens the body, or the end of the text. -/
def close : Pattern :=
  opt (keep .tail (lit "\x7b" ++ many inLine <|> lit "=>" ++ many inLine <|>
    lit ";" ++ many inLine)) ++ last

theorem headerTail_eq : headerTail = tailOf ":" close := rfl

/-- The text begins with what opens a body. -/
def BeginsBody (o : List Char) : Prop :=
  ∃ v : List Char, o = '\x7b' :: v ∨ o = '=' :: '>' :: v ∨ o = ';' :: v

theorem BeginsBody.black (h : BeginsBody o) : ∃ d v, o = d :: v ∧ Text.isBlankChar d = false := by
  obtain ⟨v, rfl | rfl | rfl⟩ := h
  · exact ⟨_, _, rfl, rfl⟩
  · exact ⟨_, _, rfl, rfl⟩
  · exact ⟨_, _, rfl, rfl⟩

/-- The begin of a body is there or not, as long as the text does not end in front of it. -/
theorem persists_close (he : '\n' ∉ e) (hm : m.Exact) (hd : d ∈ m.rest) (hne : d ≠ '=')
    (hline : '\n' ∉ m.rest) : Persists e (Spot.moved e) (close.run done) (close.run done) m := by
  have hrest : m.rest ≠ [] := List.ne_nil_of_mem hd
  have hopen : ∀ s : String, d ∉ s.toList.dropLast → Persists e (Spot.moved e)
      ((lit s ++ many inLine).run ((mark .tail).run (last.run done)))
      ((lit s ++ many inLine).run ((mark .tail).run (last.run done))) m := by
    intro s hs
    refine persists_append (persists_runText hm hd hs ?_)
    intro rest hsplit
    refine persists_toEnd (hm.behind hsplit) ?_ (fun c hc => inLine_of_mem he hc) ?_
    · intro c hc
      refine inLine_of_mem hline ?_
      rw [hsplit]
      exact List.mem_append_right _ hc
    · exact fun z hz => ⟨_, run_markedEnd .tail hz, run_markedEnd .tail (Spot.rest_moved hz)⟩
  refine persists_append (persists_opt (persists_keep .tail (Spot.moved_of_ne hrest) ?_)
    (persists_last hrest))
  refine persists_or (hopen "\x7b" ?_) (persists_or (hopen "=>" ?_) (hopen ";" ?_))
  · exact List.not_mem_nil
  · exact fun hmem => hne (List.mem_singleton.mp hmem)
  · exact List.not_mem_nil

theorem closesAt (ho : BeginsBody o) (hline : '\n' ∉ o) (he : '\n' ∉ e) : ClosesAt close e o where
  black := ho.black
  closes := by
    intro m hm
    have hopen : ∀ {s : String} {v : List Char}, o = s.toList ++ v →
        ∃ z, z.rest = [] ∧ Matches (lit s ++ many inLine) m z [] := by
      intro s v hv
      have hrest : m.rest = s.toList ++ v := hm.trans hv
      have hall : ∀ c ∈ v, inLine c = true := by
        intro c hc
        refine inLine_of_mem hline ?_
        rw [hv]
        exact List.mem_append_right _ hc
      exact ⟨_, rfl, matches_append_iff.mpr
        ⟨_, [], [], .exactly hrest, .many hall (List.append_nil v).symm, rfl⟩⟩
    have hbody : ∃ z, z.rest = [] ∧ Matches (lit "\x7b" ++ many inLine <|>
        lit "=>" ++ many inLine <|> lit ";" ++ many inLine) m z [] := by
      obtain ⟨v, hv | hv | hv⟩ := ho
      · obtain ⟨z, hz, hmatch⟩ := hopen (s := "\x7b") hv
        exact ⟨z, hz, .left hmatch⟩
      · obtain ⟨z, hz, hmatch⟩ := hopen (s := "=>") hv
        exact ⟨z, hz, .right (.left hmatch)⟩
      · obtain ⟨z, hz, hmatch⟩ := hopen (s := ";") hv
        exact ⟨z, hz, .right (.right hmatch)⟩
    obtain ⟨z, hz, hmatch⟩ := hbody
    rw [close, run_append]
    refine Matches.isSome_run (.left (hmatch.keep .tail)) ?_
    rw [run_last hz]
    rfl
  persists := by
    intro m hexact hsuffix hline
    -- the opener has a character that cannot be taken for the sign in front of it
    have hsign : ∃ d ∈ o, d ≠ '=' := by
      obtain ⟨v, rfl | rfl | rfl⟩ := ho
      · exact ⟨_, List.mem_cons_self, by decide⟩
      · exact ⟨'>', List.mem_cons_of_mem _ List.mem_cons_self, by decide⟩
      · exact ⟨_, List.mem_cons_self, by decide⟩
    obtain ⟨d, hd, hne⟩ := hsign
    exact persists_close he hexact (hsuffix.subset hd) hne hline

/-- What opens a body is matched where one begins. -/
theorem beginsBody_of_matches {m' : Spot} {ms : List (Slot × Spot)}
    (h : Matches (lit "\x7b" ++ many inLine <|> lit "=>" ++ many inLine <|>
      lit ";" ++ many inLine) m m' ms) : BeginsBody m.rest := by
  have hsign : ∀ {s : String}, Matches (lit s ++ many inLine) m m' ms →
      ∃ v, m.rest = s.toList ++ v := by
    intro s hsign
    obtain ⟨z, ms₁, ms₂, hlit, -, -⟩ := matches_append_iff.mp hsign
    exact ⟨_, hlit.rest_of_lit⟩
  cases h with
  | left hbrace =>
    obtain ⟨v, hv⟩ := hsign hbrace
    exact ⟨v, .inl hv⟩
  | right hbody =>
    cases hbody with
    | left harrow =>
      obtain ⟨v, hv⟩ := hsign harrow
      exact ⟨v, .inr (.inl hv)⟩
    | right hsemicolon =>
      obtain ⟨v, hv⟩ := hsign hsemicolon
      exact ⟨v, .inr (.inr hv)⟩

/-- A match with an opener keeps it as its last part, up to the end of the text. -/
theorem exists_opener {front : Pattern} {r : Match} (hm : m.Exact) (hfront : .tail ∉ slots front)
    (h : Matches (front ++ close) m r.stop r.marks) (ho : r.part? .tail = some o) :
    BeginsBody o ∧ ∃ a ms, Matches front m a ms ∧ a.rest = o ∧
      r.marks = ms ++ [(.tail, a), (.tail, a.behind o [])] := by
  obtain ⟨a, ms, ms', hbefore, hclose, hmarks⟩ := matches_append_iff.mp h
  obtain ⟨z, ms₁, ms₂, hopt, hlast, rfl⟩ := matches_append_iff.mp hclose
  have hnone : Slot.tail ∉ ms.map (·.1) := mt hbefore.mem_slots hfront
  cases hlast with
  | last hend =>
    -- the part is there because the opener was kept
    rcases hopt.of_opt with hkeep | ⟨-, rfl⟩
    · obtain ⟨ms₃, hbody, rfl⟩ := hkeep.exists_of_keep
      obtain rfl : ms₃ = [] := by
        refine List.eq_nil_iff_forall_not_mem.mpr fun mark hmark => ?_
        exact List.not_mem_nil (hbody.mem_slots (List.mem_map_of_mem hmark))
      obtain ⟨u, hu, hstop⟩ := hbody.exists_behind
      rw [hend] at hu hstop
      have hexact : a.Exact := hbefore.exact hm
      have hmarks : r.marks = ms ++ [(.tail, a), (.tail, a.behind u [])] := by
        rw [hmarks, hstop, List.append_nil]
        rfl
      have hpart : r.part? .tail = some u :=
        part?_of_marks ⟨[], by rw [hmarks, List.append_nil]⟩ hnone hexact hu
      obtain rfl : u = o := Option.some.inj (hpart.symm.trans ho)
      rw [List.append_nil] at hu
      exact ⟨hu ▸ beginsBody_of_matches hbody, a, ms, hbefore, hu, hmarks⟩
    · have habsent : r.part? .tail = none := part?_eq_none_of_marks (by
        rw [hmarks, List.append_nil, List.append_nil]
        exact hnone)
      rw [habsent] at ho
      cases ho

/-- A type can be followed to the end of the text. -/
theorem isSome_typedClose (hline : '\n' ∉ m.rest) (hne : m.rest ≠ []) :
    ((typedClose close).run done m).isSome = true := by
  obtain ⟨c, y, hrest⟩ := List.exists_cons_of_ne_nil hne
  rw [hrest] at hline
  have hall : ∀ b ∈ y, inLine b = true := fun b hb =>
    inLine_of_mem hline (List.mem_cons_of_mem c hb)
  have hkind : Matches (few1 inLine) m ((m.behind [c] y).behind y []) [] :=
    matches_append_iff.mpr ⟨_, [], [], .one (inLine_of_mem hline List.mem_cons_self) hrest,
      .few hall (List.append_nil y).symm, rfl⟩
  rw [typedClose, run_append]
  refine (hkind.keep .kind).isSome_run ?_
  rw [run_append]
  refine (matches_many_nothing _ _).isSome_run ?_
  rw [close, run_append]
  exact (matches_opt_nothing _ _).isSome_run (Option.isSome_iff_exists.mpr ⟨_, run_last rfl⟩)

/-- Behind the sign of a type, the first character that is no blank belongs to the type and not to
the opener of the body, since the run that begins the type there succeeds. -/
theorem exists_type_of_match? {g s : List Char} {r : Match} (h : headerTail.match? t = some r)
    (ho : r.part? .tail = some o) (ht : '\n' ∉ t)
    (hg : ∀ b ∈ g, Text.isBlankChar b = true) (hs : Text.trim s ≠ [])
    (hsign : t = g ++ (":".toList ++ s)) :
    ∃ g' c w, (∀ b ∈ g', Text.isBlankChar b = true) ∧ Text.isBlankChar c = false ∧
      t = g ++ (":".toList ++ (g' ++ c :: (w ++ o))) := by
  obtain ⟨g', c, y, hg', hc, rfl, -⟩ := Text.exists_cons_of_trim_ne_nil hs
  have hblank : ∀ b ∈ g', Text.isBlankChar b = true := fun b => Text.isBlankChar_of_mem hg'
  have hwhole : t = (g ++ (":".toList ++ g')) ++ c :: y := by
    rw [hsign, List.append_assoc, List.append_assoc]
  have hstart : (Spot.start t).Exact := rfl
  have hsome : ((typedClose close).run done
      ((Spot.start t).behind (g ++ (":".toList ++ g')) (c :: y))).isSome = true := by
    refine isSome_typedClose (fun hmem => ht ?_) (List.cons_ne_nil c y)
    rw [hwhole]
    exact List.mem_append_right _ hmem
  obtain ⟨r', hr'⟩ := Option.isSome_iff_exists.mp hsome
  have hfound : headerTail.match? t = some r' :=
    (match?_eq _ _).trans (run_tailOf hg (by decide) hblank hc hsign hr')
  -- a run from here succeeds, and a pattern has one match
  obtain rfl : r' = r := Option.some.inj (hfound.symm.trans h)
  have htyped : typedClose close = keep .kind (few1 inLine) ++ blanks ++ close := rfl
  obtain ⟨-, a, ms, htype, ha, -⟩ :=
    exists_opener (hstart.behind hwhole) (by decide) (htyped ▸ matches_of_run hr') ho
  obtain ⟨w, hw⟩ := exists_of_type htype rfl
  rw [ha] at hw
  exact ⟨g', c, w, hblank, hc, hw ▸ hsign⟩

theorem match?_headerTail_append {r : Match} (h : headerTail.match? t = some r)
    (ho : r.part? .tail = some o) (ht : '\n' ∉ t) (he : '\n' ∉ e) :
    headerTail.match? (t ++ e) = some (r.map (Spot.moved e)) := by
  have hsplit : headerTail = blanks ++ opt (lit ":" ++ blanks ++ keep .kind (few1 inLine)) ++
      blanks ++ close := rfl
  have hstart : (Spot.start t).Exact := rfl
  obtain ⟨hbody, a, ms, hfront, ha, -⟩ :=
    exists_opener hstart (by decide) (hsplit ▸ matches_of_match? h) ho
  have hline : '\n' ∉ o := by
    obtain ⟨u, hu, -⟩ := hfront.exists_behind
    have htext : t = u ++ o := ha ▸ hu
    rw [htext] at ht
    exact fun hmem => ht (List.mem_append_right u hmem)
  have hcloses := closesAt hbody hline he
  obtain ⟨m₂, ms₁, ms₂, hfront, hblanks, -⟩ := matches_append_iff.mp hfront
  obtain ⟨m₁, ms₃, ms₄, hindent, htype, -⟩ := matches_append_iff.mp hfront
  obtain ⟨g, hg, hm, -⟩ := hindent.of_blanks
  obtain ⟨g₂, hg₂, hm₂, -⟩ := hblanks.of_blanks
  rw [ha] at hm₂
  have htext : t = g ++ m₁.rest := hm
  rcases htype.of_opt with htype | ⟨hnone, -⟩
  · obtain ⟨m₃, ms₅, ms₆, hsign, hkind, -⟩ := matches_append_iff.mp htype
    obtain ⟨m₄, ms₇, ms₈, hcolon, hgap, -⟩ := matches_append_iff.mp hsign
    obtain ⟨g₁, hg₁, -⟩ := hgap.exists_behind
    obtain ⟨k, hk, -⟩ := hkind.exists_behind
    -- the opener is behind the sign, so what is behind the sign is not blank
    obtain ⟨d, v, hd, hblack⟩ := hbody.black
    have hmem : d ∈ m₄.rest := by
      rw [hg₁, hk, hm₂, hd]
      simp
    obtain ⟨g', c, w, hg', hc, hwhole⟩ := exists_type_of_match? h ho ht hg
      (Text.trim_ne_nil_of_mem hmem hblack) (by rw [htext, hcolon.rest_of_lit])
    have hmore := hcloses.match?_typed hg (by decide) hg' hc ht hwhole
    rw [headerTail_eq] at h ⊢
    rw [hmore, h]
    rfl
  · have hwhole : t = (g ++ g₂) ++ o := by
      rw [htext, hnone, hm₂, List.append_assoc]
    have hblank : ∀ b ∈ g ++ g₂, Text.isBlankChar b = true := fun b hb =>
      (List.mem_append.mp hb).elim (hg b) (hg₂ b)
    have hcolon : o.head? ≠ some ':' := by
      obtain ⟨v, rfl | rfl | rfl⟩ := hbody <;> simp
    have hmore := hcloses.match?_untyped (s := ":") hblank rfl rfl hcolon (hwhole ▸ ht)
    rw [← hwhole] at hmore
    rw [headerTail_eq] at h ⊢
    rw [hmore, h]
    rfl

/-- What opens the body takes what is put behind the text; the type stays what it is. -/
theorem tail?_append {returnType : Option String}
    (h : tail? t = some { returnType, opener := some o }) (ht : '\n' ∉ t) (he : '\n' ∉ e) :
    tail? (t ++ e) = some { returnType, opener := some (o ++ e) } := by
  obtain ⟨r, hr, htail⟩ := Option.map_eq_some_iff.mp h
  obtain ⟨htype, ho⟩ := Tail.mk.inj htail
  have hsplit : headerTail = blanks ++ opt (lit ":" ++ blanks ++ keep .kind (few1 inLine)) ++
      blanks ++ close := rfl
  have hstart : (Spot.start t).Exact := rfl
  obtain ⟨hbody, a, ms, hfront, ha, hmarks⟩ :=
    exists_opener hstart (by decide) (hsplit ▸ matches_of_match? hr) ho
  have hexact : a.Exact := hfront.exact hstart
  have hne : a.rest ≠ [] := by
    obtain ⟨d, v, hd, -⟩ := hbody.black
    rw [ha, hd]
    exact List.cons_ne_nil d v
  -- only the last mark stands at the end of the text, and moves with it
  have hmoved := moved_of_mark (e := e) hfront hstart hne hmarks
    (show Slot.kind ∉ _ by simp)
  have hopener : (r.map (Spot.moved e)).part? .tail = some (o ++ e) := by
    have hlonger : (a.extend e).Exact := by
      rw [Spot.Exact, Spot.extend, List.length_append, hexact]
    have hrest : (a.extend e).rest = (o ++ e) ++ [] := by
      rw [List.append_nil, ← ha]
      rfl
    have hend := hexact.moved_end (e := e)
    rw [ha] at hend
    refine part?_of_marks (b := ms.map fun mark => (mark.1, mark.2.moved e)) ⟨[], ?_⟩ ?_ hlonger
      hrest
    · rw [Match.map, hmarks, List.map_append, List.append_nil, List.map_cons, List.map_cons,
        List.map_nil, hend, Spot.moved_of_ne hne]
    · rw [List.map_map]
      exact mt hfront.mem_slots (by decide)
  rw [tail?, match?_headerTail_append hr ho ht he, Option.map_some, Match.part?_map hmoved,
    hopener, htype]

end Brace

/-! ## Definitions -/

namespace Indent

/-- The end of a line, with a comment or without. -/
def lineEnd : Pattern := blanks ++ opt (lit "#" ++ many inLine) ++ last

/-- What closes a definition. -/
def close : Pattern := lit ":" ++ lineEnd

theorem defTail_eq : defTail = tailOf "->" close := rfl

theorem finds_lineEnd (hm : IsComment ['#'] m.rest ∨ ∀ b ∈ m.rest, Text.isBlankChar b = true)
    (hline : '\n' ∉ m.rest) : Finds lineEnd m (m.behind m.rest []) [] := by
  rcases hm with ⟨g, y, hg, hrest⟩ | hblank
  · have hall : ∀ c ∈ y, inLine c = true := by
      intro c hc
      refine inLine_of_mem hline ?_
      rw [hrest]
      exact List.mem_append_right g (List.mem_cons_of_mem '#' hc)
    have hblanks : Finds blanks m (m.behind g ('#' :: y)) [] := finds_many hrest hg rfl
    have hsign : Finds (lit "#") (m.behind g ('#' :: y)) (m.behind (g ++ ['#']) y) [] := by
      rw [← Spot.behind_behind m g ['#'] y ('#' :: y)]
      exact finds_lit rfl
    have hmany : Finds (many inLine) (m.behind (g ++ ['#']) y) (m.behind m.rest []) [] := by
      have hwhole : m.rest = g ++ ['#'] ++ y := by
        rw [hrest, List.append_assoc, List.singleton_append]
      rw [hwhole, ← Spot.behind_behind m (g ++ ['#']) y [] y]
      exact finds_many (List.append_nil y).symm hall rfl
    exact (hblanks.append (hsign.append hmany).opt).append (finds_last rfl)
  · have hblanks : Finds blanks m (m.behind m.rest []) [] :=
      finds_many (List.append_nil _).symm hblank rfl
    have hnothing : Finds (opt (lit "#" ++ many inLine)) (m.behind m.rest [])
        (m.behind m.rest []) [] := finds_opt_nothing fun k => run_append_of_lit rfl
    exact (hblanks.append hnothing).append (finds_last rfl)

/-- A comment may stand behind the end of a line. -/
theorem persists_lineEnd (he : IsComment ['#'] e) (hline : '\n' ∉ m.rest ++ e) (hm : m.Exact) :
    Persists e (Spot.moved e) (lineEnd.run done) (lineEnd.run done) m := by
  by_cases hblank : ∀ b ∈ m.rest, Text.isBlankChar b = true
  · have hcomment : IsComment ['#'] (m.rest ++ e) := by
      obtain ⟨g, y, hg, rfl⟩ := he
      refine ⟨m.rest ++ g, y, ?_, (List.append_assoc _ _ _).symm⟩
      exact fun b hb => (List.mem_append.mp hb).elim (hblank b) (hg b)
    have hshort := finds_lineEnd (.inr hblank) fun hmem =>
      hline (List.mem_append_left e hmem)
    have hlong := finds_lineEnd (m := m.extend e) (.inl hcomment) hline
    have hend : (m.extend e).behind (m.extend e).rest [] = (m.behind m.rest []).moved e :=
      hm.moved_end.symm
    have hrun : lineEnd.run done m = some (.done (m.behind m.rest [])) :=
      hshort (k := done) (r := .done _) rfl
    have hrun' : lineEnd.run done (m.extend e) = some (.done ((m.behind m.rest []).moved e)) := by
      rw [← hend]
      exact hlong (k := done) (r := .done _) rfl
    rw [Persists, hrun, hrun']
    rfl
  · obtain ⟨d, hd, hblack⟩ : ∃ d ∈ m.rest, Text.isBlankChar d = false := by
      simpa using hblank
    obtain ⟨u, v, hsplit⟩ := List.append_of_mem hd
    -- blanks are taken at most up to the first character that is none
    refine persists_append (persists_append (persists_run ?_ (fun _ => Spot.moved_of_ne) hblack
      (hm.inFront hsplit)))
    intro m' hm'
    have hne : m'.rest ≠ [] := List.ne_nil_of_mem hm'.mem
    refine persists_opt (persists_append (persists_sign rfl hm'.exact hne ?_)) (persists_last hne)
    intro rest hrest
    have hsuffix : rest ⊆ m.rest := by
      intro c hc
      rw [hsplit]
      refine hm'.rest_suffix.subset ?_
      rw [hrest]
      exact List.mem_cons_of_mem '#' hc
    refine persists_toEnd (hm'.exact.behind hrest) ?_ ?_ fun z hz =>
      ⟨_, run_last hz, run_last (Spot.rest_moved hz)⟩
    · exact fun c hc => inLine_of_mem hline (List.mem_append_left e (hsuffix hc))
    · exact fun c hc => inLine_of_mem hline (List.mem_append_right _ hc)

/-- Behind the colon nothing is left but a comment. -/
theorem closesAt {v : List Char}
    (hv : IsComment ['#'] v ∨ ∀ b ∈ v, Text.isBlankChar b = true) (hline : '\n' ∉ v ++ e)
    (he : IsComment ['#'] e) : ClosesAt close e (':' :: v) where
  black := ⟨':', v, rfl, rfl⟩
  closes := by
    intro m hm
    have hcolon : Matches (lit ":") m (m.behind ":".toList v) [] := .exactly hm
    have hend := finds_lineEnd (m := m.behind ":".toList v) hv fun hmem =>
      hline (List.mem_append_left e hmem)
    rw [close, run_append]
    refine hcolon.isSome_run (hend.matches.isSome_run rfl)
  persists := by
    intro m hexact hsuffix hline'
    have hne : m.rest ≠ [] := fun hnil => List.cons_ne_nil _ _ (List.suffix_nil.mp (hnil ▸ hsuffix))
    refine persists_append (persists_sign rfl hexact hne ?_)
    intro rest hrest
    refine persists_lineEnd he (fun hmem => ?_) (hexact.behind hrest)
    rcases List.mem_append.mp hmem with hmem | hmem
    · rw [hrest] at hline'
      exact hline' (List.mem_cons_of_mem ':' hmem)
    · exact hline (List.mem_append_right v hmem)

theorem lineEnd_of_matches {m' : Spot} {ms : List (Slot × Spot)} (h : Matches lineEnd m m' ms) :
    IsComment ['#'] m.rest ∨ ∀ b ∈ m.rest, Text.isBlankChar b = true := by
  obtain ⟨m₁, ms₁, ms₂, hfront, hlast, -⟩ := matches_append_iff.mp h
  obtain ⟨m₂, ms₃, ms₄, hblanks, hcomment, -⟩ := matches_append_iff.mp hfront
  obtain ⟨g, hg, hrest, -⟩ := hblanks.of_blanks
  rcases hcomment.of_opt with hsome | ⟨hnone, -⟩
  · obtain ⟨m₃, ms₅, ms₆, hsign, -, -⟩ := matches_append_iff.mp hsome
    exact .inl ⟨g, m₃.rest, hg, by rw [hrest, hsign.rest_of_lit]; rfl⟩
  · cases hlast with
    | last hend =>
      rw [hrest, hnone, hend, List.append_nil]
      exact .inr hg

/-- A comment changes nothing behind the colon of a definition, as long as its type, if it has
one, is not blank. -/
theorem defTail_append {r : Match} (h : defTail.match? t = some r)
    (hkind : ∀ k, r.part? .kind = some k → Text.trim k ≠ []) (ht : '\n' ∉ t ++ e)
    (he : IsComment ['#'] e) :
    ∃ r', defTail.match? (t ++ e) = some r' ∧ r'.part? .kind = r.part? .kind := by
  have hsplit : defTail = (blanks ++ opt (lit "->" ++ blanks ++ keep .kind (few1 inLine)) ++
      blanks) ++ (lit ":" ++ lineEnd) := rfl
  have hstart : (Spot.start t).Exact := rfl
  obtain ⟨m₃, ms, ms', hfront, hclose, hmarks⟩ :=
    matches_append_iff.mp (hsplit ▸ matches_of_match? h)
  obtain ⟨m₄, ms₁, ms₂, hcolon, hend, -⟩ := matches_append_iff.mp hclose
  obtain ⟨m₂, ms₃, ms₄, hfront', hblanks, rfl⟩ := matches_append_iff.mp hfront
  obtain ⟨m₁, ms₅, ms₆, hindent, htype, rfl⟩ := matches_append_iff.mp hfront'
  obtain ⟨g, hg, hm, rfl⟩ := hindent.of_blanks
  obtain ⟨g₂, hg₂, hm₂, rfl⟩ := hblanks.of_blanks
  have htext : t = g ++ m₁.rest := hm
  have hclosed : m₃.rest = ':' :: m₄.rest := hcolon.rest_of_lit
  obtain ⟨x, hx, -⟩ := htype.exists_behind
  have htail : t = g ++ (x ++ (g₂ ++ ':' :: m₄.rest)) := by
    rw [htext, hx, hm₂, hclosed]
  have hline : '\n' ∉ t := fun hmem => ht (List.mem_append_left e hmem)
  have hbehind : '\n' ∉ m₄.rest ++ e := by
    intro hmem
    rcases List.mem_append.mp hmem with hmem | hmem
    · rw [htail] at hline
      exact hline (by simp [hmem])
    · exact ht (List.mem_append_right t hmem)
  have hcloses := closesAt (lineEnd_of_matches hend) hbehind he
  -- the laws of a tail take its text written out, with the type or without
  have hmatch : defTail.match? (t ++ e) = some (r.map (Spot.moved e)) := by
    rcases htype.of_opt with htype | ⟨hnone, -⟩
    · have hmarks' : r.marks = ms₆ ++ ms' := by
        rw [hmarks]
        simp
      obtain ⟨m₅, w, ⟨ms₇, hsign⟩, hw⟩ :=
        exists_kept_last (by decide) (by decide) (hindent.exact hstart) htype hmarks'
      obtain ⟨m₆, ms₈, ms₉, harrow, hgap, -⟩ := matches_append_iff.mp hsign
      obtain ⟨g₁, hg₁, hm₅, -⟩ := hgap.of_blanks
      -- the type is not blank, so the blanks in front of it end with a character of it
      obtain ⟨g', c, s, hg', hc, hs, -⟩ := Text.exists_cons_of_trim_ne_nil (hkind w hw.part?)
      have hwhole : t = g ++ ("->".toList ++
          ((g₁ ++ g') ++ c :: ((s ++ g₂) ++ ':' :: m₄.rest))) := by
        rw [htext, harrow.rest_of_lit, hm₅, hw.rest, hm₂, hclosed, hs]
        simp only [List.append_assoc, List.cons_append]
      have hblank : ∀ b ∈ g₁ ++ g', Text.isBlankChar b = true := fun b hb =>
        (List.mem_append.mp hb).elim (hg₁ b) (Text.isBlankChar_of_mem hg')
      have hmore := hcloses.match?_typed (s := "->") hg (by decide) hblank hc hline hwhole
      rw [← defTail_eq, h] at hmore
      exact hmore
    · have hwhole : t = (g ++ g₂) ++ (':' :: m₄.rest) := by
        rw [htext, hnone, hm₂, hclosed, List.append_assoc]
      have hblank : ∀ b ∈ g ++ g₂, Text.isBlankChar b = true := fun b hb =>
        (List.mem_append.mp hb).elim (hg b) (hg₂ b)
      have hmore := hcloses.match?_untyped (d := '-') (s := "->") hblank rfl rfl (by simp)
        (hwhole ▸ hline)
      rw [← hwhole, ← defTail_eq, h] at hmore
      exact hmore
  have hopen : m₃.rest ≠ [] := hclosed ▸ List.cons_ne_nil _ _
  have hmoved := moved_of_mark (e := e) hfront hstart hopen hmarks
    (mt hclose.mem_slots (show Slot.kind ∉ _ by decide))
  exact ⟨_, hmatch, Match.part?_map hmoved⟩

end Indent

end CodeAtlas
