/-
Whose decorators a record has, in the brace family.

A class and a method take the decorators that are pending where their line is read, and keep them:
a record is only added to, and a class that is open is in the end recorded with what its header
took (`Brace.exists_extends`). Read backwards, whatever decorators a record has were pending at the
moment in front of its line (`Brace.tookPending_of_reached`).

Decorators come one by one. A call keeps what is pending, drops all of it or adds the one on its
line; so from a moment at which nothing is pending, no more of them are pending than lines have
passed that begin with the mark (`Brace.length_back_le`).
-/
import CodeAtlas.Proofs.Scan.Documentation

set_option autoImplicit false

namespace CodeAtlas

/-! ## Records and their decorators -/

/-- The line of the record, with the decorators that it has. -/
def FunctionRecord.decorated (f : FunctionRecord) : Nat × List String := (f.line, f.decorators)

def ClassRecord.decorated (c : ClassRecord) : Nat × List String := (c.line, c.decorators)

/-- The second class is the first one, and perhaps has more methods. -/
structure ClassRecord.Extends (c c' : ClassRecord) : Prop where
  decorated : c'.decorated = c.decorated
  methods : c.methods <+: c'.methods

namespace ClassRecord.Extends

variable {c c' c'' : ClassRecord}

theorem refl (c : ClassRecord) : c.Extends c := ⟨rfl, List.prefix_rfl⟩

theorem trans (h : c.Extends c') (h' : c'.Extends c'') : c.Extends c'' :=
  ⟨h'.decorated.trans h.decorated, h.methods.trans h'.methods⟩

end ClassRecord.Extends

/-- At some moment that was reached, the line was to be read and the decorators were pending. -/
def TookPending (file : List Line) (first : Moment) (d : Nat × List String) : Prop :=
  ∃ m, Moment.Reached file first m ∧ d = (m.index + 1, m.scan.pending.decorators)

/-- The decorators of the class and of its methods were pending in front of their lines. -/
structure ClassRecord.Took (file : List Line) (first : Moment) (c : ClassRecord) : Prop where
  own : TookPending file first c.decorated
  methods : ∀ f ∈ c.methods, TookPending file first f.decorated

namespace Brace

variable {file : List Line} {first m m' : Moment}

theorem decorated_of_opening {c c' : ClassScope} (h : c'.opening = c.opening) :
    c'.record.decorated = c.record.decorated := by
  have hbare : c'.record.bare = c.record.bare := congrArg ClassOpening.record h
  have hdecorated : c'.record.bare.decorated = c.record.bare.decorated :=
    congrArg ClassRecord.decorated hbare
  exact hdecorated

/-! ## What was recorded stays -/

/-- A call inside a class only adds to it. -/
theorem InsideCase.extends {s s' : Scan} {c c' : ClassScope} {at_ further : Nat} {ls : List Line}
    (h : InsideCase s c at_ ls (s', c', further)) : c.record.Extends c'.record := by
  refine ⟨decorated_of_opening h.opening_eq, ?_⟩
  rcases h.methods with hsame | ⟨_, _, _, _, _, hmore⟩
  · rw [hsame]
  · rw [hmore]
    exact List.prefix_append _ _

/-- Behind a call the classes that are recorded or open are there, and perhaps have more
methods. -/
theorem exists_extends_of_move (hmove : Move file m m') {c : ClassRecord}
    (hc : .classItem c ∈ m.allItems) :
    ∃ c', .classItem c' ∈ m'.allItems ∧ c.Extends c' := by
  have hold : ∀ {s' : Scan} {index : Nat} {more : List Item}, Item.classItem c ∈ m.items →
      ∃ c', Item.classItem c' ∈
        ({ scan := s', index, items := m.items ++ more } : Moment).allItems ∧ c.Extends c' :=
    fun hmem => ⟨c, List.mem_append_left _ (List.mem_append_left _ hmem), .refl c⟩
  -- a recorded class stays as it is; the open one may grow, and is recorded when it is closed
  rcases List.mem_append.mp hc with hitems | hopen
  · cases hmove with
    | declares | opens | closes => exact hold hitems
    | stays => exact ⟨c, List.mem_append_left _ hitems, .refl c⟩
  · obtain ⟨k, hk, heq⟩ := Option.map_eq_some_iff.mp (Option.mem_toList.mp hopen)
    obtain rfl : k.finish = c := Item.classItem.inj heq
    cases hmove with
    | declares hnone | opens hnone =>
      rw [hnone] at hk
      cases hk
    | @stays _ _ _ k' _ hsome hcase _ hsome' =>
      obtain rfl := Option.some.inj (hk.symm.trans hsome)
      refine ⟨k'.finish, List.mem_append_right _ ?_, ?_⟩
      · simp only [hsome', Option.map_some, Option.toList_some, List.mem_singleton, Item.closed]
      · exact ⟨hcase.extends.decorated, hcase.extends.methods⟩
    | @closes _ _ _ k' _ hsome hcase =>
      obtain rfl := Option.some.inj (hk.symm.trans hsome)
      refine ⟨k'.finish, List.mem_append_left _ ?_, ?_⟩
      · exact List.mem_append_right _ (List.mem_singleton.mpr rfl)
      · exact ⟨hcase.extends.decorated, hcase.extends.methods⟩

/-- A class that is recorded or open at some moment is recorded in the end. -/
theorem exists_extends {path : String} (h : Moment.Reached file (.start path .brace) m)
    {c : ClassRecord} (hc : .classItem c ∈ m.allItems) :
    ∃ c', .classItem c' ∈ (Moment.last path .brace file).allItems ∧ c.Extends c' := by
  obtain ⟨k, hk, hitems⟩ := h.exists_last
  rw [← hitems]
  clear hitems
  induction hk with
  | first => exact ⟨c, hc, .refl c⟩
  | next hreached _ ih =>
    obtain ⟨c', hc', hextends⟩ := ih
    have hfamily := (sameFile_of_reached (h.trans hreached)).2
    obtain ⟨c'', hc'', hextends'⟩ := exists_extends_of_move (next_move hfamily) hc'
    exact ⟨c'', hc'', hextends.trans hextends'⟩

/-! ## Where decorators come from -/

/-- The classes that a moment has recorded took what was pending, and so did the one that is
open. -/
structure AllTook (file : List Line) (first m : Moment) : Prop where
  items : ∀ c, .classItem c ∈ m.items → c.Took file first
  scope : ∀ c, m.scan.scope = some c → c.record.Took file first

theorem took_of_extends {c c' : ClassRecord} (h : c.Took file first)
    (hdecorated : c'.decorated = c.decorated)
    (hmethods : ∀ f ∈ c'.methods, f ∈ c.methods ∨ TookPending file first f.decorated) :
    c'.Took file first := by
  refine ⟨hdecorated ▸ h.own, fun f hf => ?_⟩
  rcases hmethods f hf with hold | hnew
  · exact h.methods f hold
  · exact hnew

/-- The method that a call adds takes what is pending. -/
theorem InsideCase.took {s' : Scan} {c c' : ClassScope} {further : Nat}
    (h : InsideCase m.scan c m.index (file.drop m.index) (s', c', further))
    (hreached : Moment.Reached file first m) (hc : c.record.Took file first) :
    c'.record.Took file first := by
  refine took_of_extends hc h.extends.decorated fun f hf => ?_
  rcases h.methods with hsame | ⟨_, _, _, _, _, hmore⟩
  · rw [hsame] at hf
    exact .inl hf
  · rw [hmore] at hf
    rcases List.mem_append.mp hf with hold | hnew
    · exact .inl hold
    · rw [List.mem_singleton.mp hnew]
      exact .inr ⟨m, hreached, rfl⟩

/-- A class that a call records or leaves open took what was pending, its methods too. -/
theorem callObeys_took (h : Moment.Reached file first m) :
    CallObeys file m (fun item => ∀ c, item = .classItem c → c.Took file first)
      fun c => c.record.Took file first where
  -- what a line exports or declares apart from a class is no class
  exports _ hitem c hc := by
    obtain ⟨r, hr, -⟩ := line_of_mem_exportItems hitem
    cases hr.symm.trans hc
  declares hdecl item hitem c hc := absurd hc ((hdecl.takes item hitem).2 c)
  opens _ := ⟨⟨m, h, rfl⟩, fun f hf => by simp [openedScope, classRecord] at hf⟩
  fills _ hcase := hcase.took h

theorem allTook_of_reached {path : String} (h : Moment.Reached file (.start path .brace) m) :
    AllTook file (.start path .brace) m := by
  have hclosed : ∀ {c : ClassScope}, c.record.Took file (.start path .brace) →
      ∀ r, Item.closed c = .classItem r → r.Took file (.start path .brace) := by
    intro c htook r hr
    obtain rfl := Item.classItem.inj hr
    exact ⟨htook.own, htook.methods⟩
  obtain ⟨hitems, hscope⟩ := CallObeys.reached (fun hreached _ => callObeys_took hreached)
    (fun _ htook => hclosed htook) h
  exact ⟨fun c hc => hitems _ hc c rfl, hscope⟩

/-- Every class that is recorded in the end took what was pending in front of its line, and so
did its methods. -/
theorem took_of_mem_allItems {path : String} {c : ClassRecord}
    (hc : .classItem c ∈ (Moment.last path .brace file).allItems) :
    c.Took file (.start path .brace) := by
  have htook := allTook_of_reached (Moment.reached_last path .brace file)
  rcases List.mem_append.mp hc with hitems | hopen
  · exact htook.items c hitems
  · obtain ⟨k, hk, heq⟩ := Option.map_eq_some_iff.mp (Option.mem_toList.mp hopen)
    obtain rfl := Item.classItem.inj heq
    exact ⟨(htook.scope k hk).own, (htook.scope k hk).methods⟩

/-! ## How many are pending -/

/-- A call of the brace family moves on. -/
theorem index_lt_next (hfamily : m.scan.family = .brace) : m.index < (m.next file).index := by
  have hmove : Move file m (m.next file) := next_move hfamily
  generalize m.next file = m' at hmove
  cases hmove <;> dsimp only <;> omega

theorem index_le_of_reached {path : String} (hstart : Moment.Reached file (.start path .brace) m)
    (h : Moment.Reached file m m') : m.index ≤ m'.index := by
  induction h with
  | first => exact Nat.le_refl _
  | next hreached _ ih =>
    have hfamily := (sameFile_of_reached (hstart.trans hreached)).2
    exact Nat.le_of_lt (Nat.lt_of_le_of_lt ih (index_lt_next hfamily))

/-- A moment in front of a later line is reached from the next moment. -/
theorem reached_next_of_index_lt {path : String} (h : Moment.Reached file (.start path .brace) m)
    (h' : Moment.Reached file (.start path .brace) m') (hlt : m.index < m'.index) :
    m.index < file.length ∧ Moment.Reached file (m.next file) m' := by
  rcases h.comparable h' with hreached | hreached
  · rcases hreached.eq_or_next with rfl | hnext
    · omega
    · exact hnext
  · have hle := index_le_of_reached h' hreached
    omega

/-- There is one moment in front of each line. -/
theorem eq_of_index_eq {path : String} (h : Moment.Reached file (.start path .brace) m)
    (h' : Moment.Reached file (.start path .brace) m') (heq : m.index = m'.index) : m = m' := by
  have hbehind : ∀ {k k' : Moment}, Moment.Reached file (.start path .brace) k →
      Moment.Reached file k k' → k.index = k'.index → k' = k := by
    intro k k' hk hreached hindex
    rcases hreached.eq_or_next with rfl | ⟨hlt, hnext⟩
    · rfl
    · have hmoves : k.index < (k.next file).index := index_lt_next (sameFile_of_reached hk).2
      have hle := index_le_of_reached (hk.next hlt) hnext
      omega
  rcases h.comparable h' with hreached | hreached
  · exact (hbehind h hreached heq).symm
  · exact hbehind h' hreached heq.symm

theorem back_of_commentLine? {s s' : Scan} {t : Line} (h : commentLine? s t = some s') :
    s'.pending.back = s.pending.back := by
  cases commentLine?_cases h <;> rfl

/-- A call keeps the decorators that are pending, drops them or adds that of its line. -/
theorem back_next (hfamily : m.scan.family = .brace) :
    (m.next file).scan.pending.back = m.scan.pending.back ∨
      (m.next file).scan.pending.back = [] ∨
      ∃ d, firstTrimmed (file.drop m.index) = '@' :: d ∧
        (m.next file).scan.pending.back = trimmedText d :: m.scan.pending.back := by
  cases hscope : m.scan.scope with
  | none =>
    obtain ⟨step, hcase, hnext⟩ := next_outside file hfamily hscope
    rw [hnext]
    cases hcase with
    | comment hcomment => exact .inl (back_of_commentLine? hcomment)
    | blank | deep => exact .inl rfl
    | decorator _ _ hline => exact .inr (.inr ⟨_, hline, rfl⟩)
    | declares => exact .inr (.inl rfl)
    | classHead =>
      rw [openClass_eq]
      split <;> exact .inr (.inl rfl)
  | some c =>
    obtain ⟨s', c', further, hcase, hnext⟩ := next_inside file hfamily hscope
    -- the end of a class leaves what is pending as it is
    have hback : (m.next file).scan.pending.back = s'.pending.back := by
      rw [hnext]
      split <;> rfl
    rw [hback]
    cases hcase with
    | comment _ hcomment => exact .inl (back_of_commentLine? hcomment)
    | closing | blank | deep => exact .inl rfl
    | decorator _ _ _ hline => exact .inr (.inr ⟨_, hline, rfl⟩)
    | method | property | nothing => exact .inr (.inl rfl)

end Brace

/-- The line begins with the mark of decorators. -/
def isMarked (l : Line) : Bool := (Text.trim l).head? = some '@'

/-- The number of marked lines in front of line `n`, from line `i` on. -/
def marksBetween (file : List Line) (i n : Nat) : Nat := ((file.take n).drop i).countP isMarked

theorem marksBetween_of_drop {file ls rest : List Line} {i : Nat} (h : file.drop i = ls ++ rest) :
    marksBetween file i (i + ls.length) = ls.countP isMarked := by
  rw [marksBetween, List.drop_take, h, Nat.add_sub_cancel_left, List.take_left]

theorem marksBetween_mono {file : List Line} {i j n : Nat} (h : i ≤ j) :
    marksBetween file j n ≤ marksBetween file i n := by
  obtain ⟨k, rfl⟩ := Nat.exists_eq_add_of_le h
  rw [marksBetween, ← List.drop_drop]
  exact (List.drop_sublist k _).countP_le

theorem marksBetween_of_isMarked {file : List Line} {i n : Nat} (hlt : i < n)
    (hmarked : isMarked ((file.drop i).headD []) = true) :
    marksBetween file i n = marksBetween file (i + 1) n + 1 := by
  cases hdrop : file.drop i with
  | nil =>
    rw [hdrop] at hmarked
    cases hmarked
  | cons l ls =>
    rw [hdrop] at hmarked
    have htake : (file.take n).drop i = l :: (file.take n).drop (i + 1) := by
      have hsub : n - i = n - (i + 1) + 1 := by omega
      rw [List.drop_take, List.drop_take, hdrop, hsub, List.take_succ_cons, ← List.tail_drop, hdrop]
      rfl
    have hhead : isMarked l = true := hmarked
    rw [marksBetween, htake, List.countP_cons_of_pos hhead]
    rfl

namespace Brace

variable {file : List Line} {m m' : Moment}

/-- Each decorator that is pending came from a line of its own. -/
theorem length_back_le {path : String} (hstart : Moment.Reached file (.start path .brace) m)
    (h : Moment.Reached file m m') {n : Nat} (hnone : m.scan.pending.back = [])
    (hle : m'.index ≤ n) :
    m'.scan.pending.back.length ≤ marksBetween file m.index n := by
  -- the lines that are still to be read may bring more
  have hsum : m'.scan.pending.back.length + marksBetween file m'.index n ≤
      marksBetween file m.index n := by
    induction h with
    | first => simp [hnone]
    | @next k hreached _ ih =>
      have hfamily := (sameFile_of_reached (hstart.trans hreached)).2
      have hlt : k.index < (k.next file).index := index_lt_next hfamily
      have hrest : marksBetween file (k.next file).index n ≤ marksBetween file (k.index + 1) n :=
        marksBetween_mono hlt
      have hline : marksBetween file (k.index + 1) n ≤ marksBetween file k.index n :=
        marksBetween_mono (Nat.le_add_right k.index 1)
      have hbefore := ih (by omega)
      rcases back_next hfamily with hsame | hnil | ⟨d, hmark, hadd⟩
      · rw [hsame]
        omega
      · rw [hnil, List.length_nil]
        omega
      · have hmarked : isMarked ((file.drop k.index).headD []) = true := by
          rw [isMarked, ← firstTrimmed, hmark]
          rfl
        have hone : marksBetween file k.index n = marksBetween file (k.index + 1) n + 1 :=
          marksBetween_of_isMarked (by omega) hmarked
        rw [hadd, List.length_cons]
        omega
  omega

end Brace

end CodeAtlas
