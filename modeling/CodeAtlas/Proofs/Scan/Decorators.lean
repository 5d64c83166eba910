/-
Decorators whose arguments go on behind their first line.

The scan does not join the arguments of a decorator. It remembers the first line and reads on, and
what the next lines do to what is pending depends on the curly brackets that are open there: inside
of a bracket a line is passed, and outside of brackets a line that is no decorator is looked at as a
declaration and drops all decorators in front of it. So a class or a method has the decorators that
are written in front of it if all further lines of their arguments stand inside of brackets that the
arguments themselves opened, and otherwise it does not (`Outline.decorated_build`).
-/
import CodeAtlas.Proofs.Scan.DecoratorRun
import CodeAtlas.Proofs.Text.Lines

set_option autoImplicit false

namespace CodeAtlas

open Pattern

/-! ## Headers -/

/-- The decorators of the methods of a class, or of the class itself. -/
def ClassRecord.decoratedIn (c : ClassRecord) (members : Bool) : List (Nat × List String) :=
  if members then c.methods.map (·.decorated) else [c.decorated]

theorem ClassRecord.Extends.decoratedIn_subset {c c' : ClassRecord} (h : c.Extends c')
    (members : Bool) : c.decoratedIn members ⊆ c'.decoratedIn members := by
  cases members with
  | true => exact List.map_subset _ h.methods.subset
  | false =>
    simp only [decoratedIn, Bool.false_eq_true, if_false, h.decorated]
    exact List.Subset.refl _

namespace Brace

section

variable {file : List Line} {m : Moment} {stop : Option Nat} {inside : Bool} {height : Int}
  {back : List String} {l : Line}

/-- The first line begins what the scan looks for where it stands: a class outside classes, and in
front of the last line of a class a method. -/
structure Heads (stop : Option Nat) (at_ : Nat) (ls : List Line) : Prop where
  code : isSilent false (ls.headD []) = false
  unmarked : isMarked (ls.headD []) = false
  classHead : stop = none → ∃ name head, firstHit Brace.outside ls = some (name, .classHead head)
  method : ∀ n ∈ stop, at_ < n ∧ ∃ name head, firstHit Brace.inside ls = some (name, .method head)

/-- A line of code that is no decorator, outside of brackets, where no class is open. -/
theorem outsideStep_of_classHead {s : Scan} {at_ : Nat} {ls : List Line} {name : String}
    {head : ClassHead} (hcomment : commentLine? s (firstTrimmed ls) = none)
    (hblack : firstTrimmed ls ≠ []) (hmark : ∀ t, firstTrimmed ls ≠ '@' :: t) (hdepth : s.depth = 0)
    (hit : firstHit outside ls = some (name, .classHead head)) :
    outsideStep s at_ ls = withItems (exportItems at_ ls)
      (openClass s.forget head at_ ls s.pending.docNow s.pending.decorators) := by
  have hnot : ¬ 0 < s.depth := by omega
  have hnonempty : (firstTrimmed ls).isEmpty = false := List.isEmpty_eq_false_iff.mpr hblack
  unfold outsideStep
  simp only [hcomment, hnonempty, if_neg hnot, hit, Bool.false_eq_true, if_false]
  rfl

theorem insideLine_of_method {s : Scan} {c : ClassScope} {at_ : Nat} {ls : List Line}
    {name : String} {head : FunctionHead} (hstop : at_ < c.stop)
    (hcomment : commentLine? s (firstTrimmed ls) = none)
    (hblack : firstTrimmed ls ≠ []) (hmark : ∀ t, firstTrimmed ls ≠ '@' :: t) (hdepth : c.depth = 1)
    (hit : firstHit Brace.inside ls = some (name, .method head)) :
    ∃ s' c' further, insideLine s c at_ ls = (s', c', further) ∧
      (at_ + 1, s.pending.decorators) ∈ c'.record.methods.map (·.decorated) := by
  have hnot : ¬ c.depth ≠ 1 := by omega
  have hnonempty : (firstTrimmed ls).isEmpty = false := List.isEmpty_eq_false_iff.mpr hblack
  generalize hextent : min (blockExtent head.further ls) (c.stop - at_) = extent
  generalize hmethod : functionRecord s head at_ extent ls s.pending.docNow s.pending.decorators = f
  refine ⟨s.forget, (deepen c extent ls).addMethod f, extent, ?_, ?_⟩
  · unfold insideLine
    simp only [if_neg (Nat.not_le_of_gt hstop), hcomment, hnonempty, if_neg hnot, hit, hextent,
      hmethod, Bool.false_eq_true, if_false]
  · refine List.mem_map.mpr ⟨f, List.mem_append_right _ (List.mem_singleton.mpr rfl), ?_⟩
    rw [← hmethod]
    rfl

/-- The class or the method takes the decorators that are pending. -/
theorem ScanAt.exists_decorated (h : ScanAt m.scan stop false 0 back)
    (hheads : Heads stop m.index (file.drop m.index)) :
    ∃ c, .classItem c ∈ (m.next file).allItems ∧
      (m.index + 1, back.reverse) ∈ c.decoratedIn stop.isSome := by
  have hcomment : commentLine? m.scan (firstTrimmed (file.drop m.index)) = none :=
    commentLine?_of_code h.inside hheads.code
  have hblack : firstTrimmed (file.drop m.index) ≠ [] := (of_not_isSilent hheads.code).2.2.2
  have hmark : ∀ t, firstTrimmed (file.drop m.index) ≠ '@' :: t := fun t ht => by
    have hunmarked := hheads.unmarked
    rw [isMarked, ← firstTrimmed, ht] at hunmarked
    cases hunmarked
  have hback : m.scan.pending.decorators = back.reverse := congrArg List.reverse h.back
  have hheight := h.height
  have hfamily := h.isBrace.family
  cases hscope : m.scan.scope with
  | none =>
    have hstop : stop = none := by rw [← h.stop, hscope]; rfl
    obtain ⟨name, head, hit⟩ := hheads.classHead hstop
    rw [Scan.height_of_none hscope] at hheight
    rw [next_eq_of_outside hfamily hscope,
      outsideStep_of_classHead hcomment hblack hmark hheight hit, openClass_eq]
    generalize hopened : openedScope m.scan.forget head m.index (file.drop m.index)
      m.scan.pending.docNow m.scan.pending.decorators = c
    have hdecorated : c.finish.decorated = (m.index + 1, back.reverse) := by
      rw [← hopened, ← hback]
      rfl
    refine ⟨c.finish, ?_, hstop ▸ List.mem_singleton.mpr hdecorated.symm⟩
    -- the class is recorded at once or left open
    split
    · refine List.mem_append_left _ (List.mem_append_right _ (List.mem_append_right _ ?_))
      exact List.mem_singleton.mpr rfl
    · exact List.mem_append_right _ (List.mem_singleton.mpr rfl)
  | some c =>
    have hstop : stop = some c.stop := by rw [← h.stop, hscope]; rfl
    obtain ⟨hlt, name, head, hit⟩ := hheads.method c.stop hstop
    rw [Scan.height_of_some hscope] at hheight
    have hdepth : c.depth = 1 := by omega
    obtain ⟨s', c', extent, hline, hmethod⟩ :=
      insideLine_of_method hlt hcomment hblack hmark hdepth hit
    rw [hback] at hmethod
    rw [next_eq_of_inside hfamily hscope, insideStep_eq, hline]
    refine ⟨c'.finish, ?_, hstop ▸ hmethod⟩
    -- the method may be the last thing in its class
    split
    · exact List.mem_append_left _ (List.mem_append_right _ (List.mem_singleton.mpr rfl))
    · exact List.mem_append_right _ (List.mem_singleton.mpr rfl)

end

/-- Each decorator has a line of its own. -/
theorem length_le_countP (ds : List Decorator) :
    ds.length ≤ (ds.flatMap (·.lines)).countP isMarked := by
  induction ds with
  | nil => exact Nat.le_refl _
  | cons d ds ih =>
    rw [List.flatMap_cons, List.countP_append, Decorator.lines,
      List.countP_cons_of_pos d.isMarked_first, List.length_cons]
    omega

/-- Where no more lines are marked than there are decorators, a further line is not marked, and
behind it fewer lines are marked. -/
theorem marks_behind {ds ds₁ ds₂ : List Decorator} {d : Decorator} {pre post xs ys : List Line}
    {l : Line} (hds : ds = ds₁ ++ d :: ds₂) (hfurther : d.further = pre ++ l :: post)
    (hcode : codeLines false (xs ++ l :: ys) = ds.flatMap (·.lines))
    (hxs : codeLines false xs = ds₁.flatMap (·.lines) ++ (d.first :: pre))
    (hmarks : (xs ++ l :: ys).countP isMarked = ds.length) :
    isMarked l = false ∧ ys.countP isMarked < ds.length := by
  have hfront : 0 < xs.countP isMarked := by
    have hle := (codeLines_sublist false xs).countP_le (p := isMarked)
    rw [hxs, List.countP_append, List.countP_cons_of_pos d.isMarked_first] at hle
    omega
  -- each decorator has its mark on its first line, so the marks are used up by those lines
  have hle := (codeLines_sublist false (xs ++ l :: ys)).countP_le (p := isMarked)
  have hsplit : ds.flatMap (·.lines) =
      ds₁.flatMap (·.lines) ++ ((d.first :: pre ++ l :: post) ++ ds₂.flatMap (·.lines)) := by
    rw [hds, List.flatMap_append, List.flatMap_cons, Decorator.lines, hfurther]
    rfl
  rw [hmarks, hcode, hsplit, hds] at hle
  simp only [List.countP_append, List.countP_cons, List.length_append, List.length_cons,
    d.isMarked_first, if_true] at hle hmarks
  have hds₁ := length_le_countP ds₁
  have hds₂ := length_le_countP ds₂
  cases hmark : isMarked l with
  | true =>
    rw [hmark, if_pos rfl] at hle
    omega
  | false => exact ⟨rfl, by omega⟩

/-- Nothing is pending, no comment is open, and declarations of the place are looked for. -/
structure Ready (s : Scan) : Prop where
  calm : Calm s
  height : s.height = 0
  back : s.pending.back = []

theorem Ready.scanAt {s : Scan} (h : Ready s) (hfamily : s.family = .brace) :
    ScanAt s (s.scope.map (·.stop)) false 0 [] where
  isBrace := ⟨hfamily, fun _ => h.calm.1⟩
  stop := rfl
  inside := Bool.or_eq_false_iff.mpr ⟨h.calm.2, h.calm.1⟩
  height := h.height
  back := h.back

/-- Decorators that are held are all pending behind their lines. -/
theorem ScanAt.exists_of_held {file ls rest : List Line} {m : Moment} {ds : List Decorator}
    {stop : Option Nat} (h : ScanAt m.scan stop false 0 [])
    (hfile : file.drop m.index = ls ++ rest) (hstop : ∀ n ∈ stop, m.index + ls.length ≤ n)
    (hcode : codeLines false ls = ds.flatMap (·.lines)) (hclosed : insideAfter false ls = false)
    (hheld : ∀ d ∈ ds, d.Held) :
    ∃ k, Moment.Reached file m k ∧ k.index = m.index + ls.length ∧
      ScanAt k.scan stop false 0 (ds.map (·.entry)).reverse := by
  have hkeeps : KeepsPending 0 (codeLines false ls) 0 (ds.map (·.entry)) := by
    rw [hcode]
    exact .of_forall_held hheld
  obtain ⟨k, hk, hkindex, hkat⟩ := hkeeps.exists_scanAt h hfile hstop
  rw [hclosed, List.append_nil] at hkat
  exact ⟨k, hk, hkindex, hkat⟩

theorem exists_first_not_held {ds : List Decorator} (h : ∃ d ∈ ds, ¬ d.Held) :
    ∃ d ds₁ ds₂, ¬ d.Held ∧ ds = ds₁ ++ d :: ds₂ ∧ ∀ e ∈ ds₁, e.Held := by
  obtain ⟨d, hd, hnot⟩ := h
  obtain ⟨e, he⟩ : ∃ e, ds.find? (fun d => decide (¬ d.Held)) = some e :=
    Option.isSome_iff_exists.mp (List.find?_isSome.mpr ⟨d, hd, decide_eq_true hnot⟩)
  obtain ⟨henot, ds₁, ds₂, hds, hheld⟩ := List.find?_eq_some_iff_append.mp he
  refine ⟨e, ds₁, ds₂, of_decide_eq_true henot, hds, fun f hf => ?_⟩
  simpa using hheld f hf

/-- If a decorator is not held, then in front of the header some decorators are missing. -/
theorem length_back_lt_of_not_held {path : String} {file ls rest : List Line} {m m' : Moment}
    {ds : List Decorator} {stop : Option Nat}
    (hstart : Moment.Reached file (.start path .brace) m) (hat : ScanAt m.scan stop false 0 [])
    (hfile : file.drop m.index = ls ++ rest) (hstop : ∀ n ∈ stop, m.index + ls.length ≤ n)
    (hcode : codeLines false ls = ds.flatMap (·.lines)) (hmarks : ls.countP isMarked = ds.length)
    (hnot : ∃ d ∈ ds, ¬ d.Held) (hstart' : Moment.Reached file (.start path .brace) m')
    (hindex' : m'.index = m.index + ls.length) : m'.scan.pending.back.length < ds.length := by
  -- of the first decorator that is not held, the first line outside of brackets
  obtain ⟨d, ds₁, ds₂, hd, hds, hheld⟩ := exists_first_not_held hnot
  obtain ⟨pre, l, post, hfurther, hkeeps⟩ := Decorator.exists_of_not_held hd
  have hsplit : codeLines false ls =
      (ds₁.flatMap (·.lines) ++ (d.first :: pre)) ++ l :: (post ++ ds₂.flatMap (·.lines)) := by
    rw [hcode, hds, List.flatMap_append, List.flatMap_cons, Decorator.lines, hfurther]
    simp only [List.cons_append, List.append_assoc]
  obtain ⟨xs, ys, rfl, hxs, hsilent⟩ := exists_of_codeLines_eq_append hsplit
  obtain ⟨hunmarked, hfewer⟩ := marks_behind hds hfurther hcode hxs hmarks
  rw [List.append_assoc, List.cons_append] at hfile
  rw [List.length_append, List.length_cons] at hstop hindex'
  -- in front of that line the scan stands where declarations are looked for
  have hfront : KeepsPending 0 (codeLines false xs) 0 (ds₁.map (·.entry) ++ [d.entry]) := by
    rw [hxs]
    exact (KeepsPending.of_forall_held hheld).append hkeeps
  obtain ⟨k, hk, hkindex, hkat⟩ := hfront.exists_scanAt hat hfile fun n hn => by
    have hle := hstop n hn
    omega
  have hkstart := hstart.trans hk
  have hkdrop : file.drop k.index = l :: (ys ++ rest) := by
    rw [hkindex, ← List.drop_drop, hfile, List.drop_left]
  have hnone : (k.next file).scan.pending.back = [] :=
    hkat.back_next_of_code (by rw [hkdrop]; rfl)
      (fun n hn => by have hle := hstop n hn; omega) hsilent hunmarked
  obtain ⟨hklt, hbehind⟩ := reached_next_of_index_lt hkstart hstart' (by omega)
  have hlength := length_back_le (hkstart.next hklt) hbehind hnone (Nat.le_refl _)
  -- what can still come is marked behind that line
  have hmoves : k.index < (k.next file).index := index_lt_next (sameFile_of_reached hkstart).2
  have hmono : marksBetween file (k.next file).index m'.index ≤
      marksBetween file (k.index + 1) m'.index := marksBetween_mono hmoves
  have hrest : file.drop (k.index + 1) = ys ++ rest := by
    rw [← List.drop_drop, hkdrop]
    rfl
  have hmore := marksBetween_of_drop hrest
  have hend : m'.index = k.index + 1 + ys.length := by omega
  rw [← hend] at hmore
  omega

end Brace

/-! ## Outlines -/

/-- The decorators of the methods that the outline has in classes, or of the classes. -/
def Outline.decorated (o : Outline) (members : Bool) : List (Nat × List String) :=
  o.classes.flatMap (·.decoratedIn members)

section

variable {path : String} {content : List Char} {m : Moment} {r : Nat × List String}
  {members : Bool}

/-- What a class has at some moment, the outline has. -/
theorem Outline.mem_decorated_of_reached
    (h : Moment.Reached (Text.lines content) (.start path .brace) m) {c : ClassRecord}
    (hc : .classItem c ∈ m.allItems) (hr : r ∈ c.decoratedIn members) :
    r ∈ (Outline.build path content .brace).decorated members := by
  obtain ⟨c', hc', hextends⟩ := Brace.exists_extends h hc
  have hholds := Outline.holds_build path content .brace
  exact List.mem_flatMap.mpr
    ⟨c', hholds.mem_classes.mpr hc', hextends.decoratedIn_subset members hr⟩

/-- What the outline has was pending in front of its line. -/
theorem Outline.tookPending_of_mem_decorated
    (h : r ∈ (Outline.build path content .brace).decorated members) :
    TookPending (Text.lines content) (.start path .brace) r := by
  obtain ⟨c, hc, hr⟩ := List.mem_flatMap.mp h
  have hholds := Outline.holds_build path content .brace
  have htook := Brace.took_of_mem_allItems (hholds.mem_classes.mp hc)
  cases members with
  | true =>
    obtain ⟨f, hf, rfl⟩ := List.mem_map.mp hr
    exact htook.methods f hf
  | false =>
    rw [List.mem_singleton.mp hr]
    exact htook.own

end

/-- Decorators and the header that they are written in front of, which a scan of the brace family
comes to where such headers are looked for. If all further lines of the decorators stand inside of
their brackets, the class or the method has exactly these decorators, one entry for each and in
their order. If no line but the first ones begins with the mark, it has them only then. -/
theorem Outline.decorated_build (path : String) {content : List Char}
    {front ls after : List Line} {header : Line} {ds : List Brace.Decorator} {m : Moment}
    (hlines : Text.lines content = front ++ (ls ++ header :: after))
    (hreached : Moment.Reached (Text.lines content) (.start path .brace) m)
    (hindex : m.index = front.length) (hready : Brace.Ready m.scan)
    (hcode : Brace.codeLines false ls = ds.flatMap (·.lines))
    (hclosed : Brace.insideAfter false ls = false)
    (hheads : Brace.Heads (m.scan.scope.map (·.stop)) (front.length + ls.length)
      (header :: after)) :
    let recorded := (Outline.build path content .brace).decorated m.scan.scope.isSome
    let line := front.length + ls.length + 1
    ((∀ d ∈ ds, d.Held) → (line, ds.map (·.entry)) ∈ recorded ∧
        ∀ r ∈ recorded, r.1 = line → r.2 = ds.map (·.entry)) ∧
      (ls.countP isMarked = ds.length → (line, ds.map (·.entry)) ∈ recorded →
        ∀ d ∈ ds, d.Held) := by
  intro recorded line
  have hat := hready.scanAt (Brace.sameFile_of_reached hreached).2
  have hbound : ∀ n ∈ m.scan.scope.map (·.stop), m.index + ls.length ≤ n := fun n hn => by
    rw [hindex]
    exact Nat.le_of_lt (hheads.method n hn).1
  have hfile : (Text.lines content).drop m.index = ls ++ header :: after := by
    rw [hlines, hindex, List.drop_left]
  constructor
  · intro hheld
    -- the scan comes to the header with all of them pending, in reverse order
    obtain ⟨k, hk, hkindex, hkat⟩ := hat.exists_of_held hfile hbound hcode hclosed hheld
    have hkstart := hreached.trans hk
    rw [hindex] at hkindex
    have hkdrop : (Text.lines content).drop k.index = header :: after := by
      rw [hkindex, ← List.drop_drop, ← hindex, hfile, List.drop_left]
    have hklt := Moment.lt_length_of_drop hkdrop
    constructor
    · rw [← hkindex, ← hkdrop] at hheads
      obtain ⟨c, hc, hdecorated⟩ := hkat.exists_decorated hheads
      rw [hkindex, List.reverse_reverse, Option.isSome_map] at hdecorated
      exact Outline.mem_decorated_of_reached (hkstart.next hklt) hc hdecorated
    · intro r hr hline
      obtain ⟨k', hk', rfl⟩ := Outline.tookPending_of_mem_decorated hr
      -- only one moment of a scan stands on the line of the header
      obtain rfl : k' = k := Brace.eq_of_index_eq hk' hkstart (by
        have hsame : k'.index + 1 = line := hline
        omega)
      show k'.scan.pending.back.reverse = _
      rw [hkat.back, List.reverse_reverse]
  · intro hmarks hmem
    obtain ⟨k, hk, heq⟩ := Outline.tookPending_of_mem_decorated hmem
    obtain ⟨hkline, hkback⟩ := Prod.mk.inj heq
    -- a line outside of the brackets drops the decorators in front of it, and the marks behind it
    -- are too few to make up for them
    by_contra hnot
    have hless := Brace.length_back_lt_of_not_held hreached hat hfile hbound hcode hmarks
      (by simpa using hnot) hk (by omega)
    have hlength := congrArg List.length hkback
    rw [List.length_map, Pending.decorators, List.length_reverse] at hlength
    omega

/-- A decorator on one line, and one whose arguments are an object. -/
def Brace.objectArguments : List Brace.Decorator :=
  [{ name := ['A'], rest := "()".toList, first := "  @A()".toList, further := [],
     isName := isNameOf_singleton (by decide), marked := by decide, opened := by decide,
     closed := by decide },
   { name := ['B'], rest := "(\x7b".toList, first := "  @B(\x7b".toList,
     further := ["    x: 1,".toList, "  \x7d)".toList], isName := isNameOf_singleton (by decide),
     marked := by decide, opened := by decide, closed := by decide }]

/-- Both are held, and a method has them across the lines of the object and of a comment. -/
theorem Outline.decorated_build_objectArguments :
    let content := ("class C \x7b\n  @A()\n  // why\n  @B(\x7b\n    x: 1,\n  \x7d)\n" ++
      "  m() \x7b\n  \x7d\n\x7d\n").toList
    let front := ["class C \x7b".toList]
    let ls := ["  @A()".toList, "  // why".toList, "  @B(\x7b".toList, "    x: 1,".toList,
      "  \x7d)".toList]
    let header := "  m() \x7b".toList
    let after := ["  \x7d".toList, "\x7d".toList]
    let m := (Moment.start "a.ts" .brace).next (Text.lines content)
    let ds := Brace.objectArguments
    let recorded := (Outline.build "a.ts" content .brace).decorated m.scan.scope.isSome
    Text.lines content = front ++ (ls ++ header :: after) ∧
      Moment.Reached (Text.lines content) (.start "a.ts" .brace) m ∧ m.index = front.length ∧
      Brace.Ready m.scan ∧ Brace.codeLines false ls = ds.flatMap (·.lines) ∧
      Brace.insideAfter false ls = false ∧
      Brace.Heads (m.scan.scope.map (·.stop)) (front.length + ls.length) (header :: after) ∧
      (((∀ d ∈ ds, d.Held) → (7, ds.map (·.entry)) ∈ recorded ∧
          ∀ r ∈ recorded, r.1 = 7 → r.2 = ds.map (·.entry)) ∧
        (ls.countP isMarked = ds.length → (7, ds.map (·.entry)) ∈ recorded →
          ∀ d ∈ ds, d.Held)) ∧
      (∀ d ∈ ds, d.Held) ∧ ls.countP isMarked = ds.length := by
  intro content front ls header after m ds recorded
  have hlines : Text.lines content = front ++ (ls ++ header :: after) := by decide +kernel
  have hreached : Moment.Reached (Text.lines content) (.start "a.ts" .brace) m :=
    .next .first (by decide +kernel)
  have hindex : m.index = front.length := by decide +kernel
  have hready : Brace.Ready m.scan :=
    { calm := ⟨by decide +kernel, by decide +kernel⟩, height := by decide +kernel,
      back := by decide +kernel }
  have hcode : Brace.codeLines false ls = ds.flatMap (·.lines) := by decide +kernel
  have hclosed : Brace.insideAfter false ls = false := by decide +kernel
  have hheads : Brace.Heads (m.scan.scope.map (·.stop)) (front.length + ls.length)
      (header :: after) := by
    have hstop : m.scan.scope.map (·.stop) = some 8 := by decide +kernel
    rw [hstop]
    refine ⟨by decide +kernel, by decide +kernel, fun hnone => (by cases hnone), fun n hn => ?_⟩
    obtain rfl := Option.mem_some_iff.mp hn
    have hhit : firstHit Brace.inside (header :: after) = some ("method", .method
        { name := "m", kind := .method, params := [], visibility := some .everyone,
          further := 0 }) := by
      decide +kernel
    exact ⟨by decide, _, _, hhit⟩
  exact ⟨hlines, hreached, hindex, hready, hcode, hclosed, hheads,
    Outline.decorated_build "a.ts" hlines hreached hindex hready hcode hclosed hheads,
    by decide +kernel, by decide +kernel⟩

/-- A decorator whose arguments go on without curly brackets. -/
def Brace.plainArguments : Brace.Decorator where
  name := "Foo".toList
  rest := ['(']
  first := "@Foo(".toList
  further := ["  1".toList, ")".toList]
  isName := ⟨'F', "oo".toList, rfl, by decide, by decide⟩
  marked := by decide
  opened := by decide
  closed := by decide

/-- Its round brackets close on its last line and the header follows, but it is not held: neither
a class nor a method has it. -/
theorem Outline.decorated_build_plainArguments :
    let d := Brace.plainArguments
    let ofClass := Text.terminated (d.lines ++ ["class A \x7b".toList, ['\x7d']])
    let ofMethod := Text.terminated
      ("class C \x7b".toList :: d.lines ++ ["  m() \x7b".toList, "  \x7d".toList, ['\x7d']])
    parenBalance d.lines.flatten = 0 ∧ Brace.codeLines false d.lines = d.lines ∧
      d.lines.countP isMarked = 1 ∧ d.entry = "Foo(" ∧ ¬ d.Held ∧
      (Outline.build "a.ts" ofClass .brace).decorated false = [(4, [])] ∧
      (Outline.build "a.ts" ofMethod .brace).decorated true = [(5, [])] := by
  intro d ofClass ofMethod
  exact ⟨by decide +kernel, by decide +kernel, by decide +kernel, by decide +kernel,
    by decide +kernel, by decide +kernel, by decide +kernel⟩

end CodeAtlas
