/-
What is recorded of a file of the brace family does not overlap.

The scan finishes the lines of what it records before it reads on, so what is recorded
later stands behind what was recorded before. A class is the only record that is written
late, behind its last line; nothing else is recorded in the meantime, and its methods fill
its lines in the same way. This is the invariant `Tiled`.
-/
import CodeAtlas.Proofs.Outline.Tiling
import CodeAtlas.Proofs.Scan.Progress

set_option autoImplicit false

namespace CodeAtlas

namespace Brace

/-! ## What one line records -/

theorem line_of_mem_exportItems {i : Nat} {ls : List Line} {a : Item}
    (h : a ∈ exportItems i ls) : ∃ r, a = .exportItem r ∧ r.line = i + 1 := by
  obtain ⟨r, hr, rfl⟩ := List.mem_map.mp h
  refine ⟨r.shift i, rfl, ?_⟩
  have hline := line_of_mem_exportsOf hr
  simp only [ExportRecord.shift]
  omega

theorem standsAt_of_mem_exportItems {i further : Nat} {ls : List Line} {a : Item}
    (h : a ∈ exportItems i ls) : a.StandsAt i further := by
  obtain ⟨r, rfl, hline⟩ := line_of_mem_exportItems h
  exact .of_line hline rfl nofun

theorem Declares.standsAt {s : Scan} {i further : Nat} {ls : List Line} {items : List Item}
    (h : Declares s i ls items further) : ∀ a ∈ items, a.StandsAt i further := by
  intro a ha
  -- an answer of a recogniser counts from its own line, and is then moved down
  cases h with
  | nothing => simp at ha
  | imports hit =>
    obtain ⟨r', hr', rfl⟩ := List.mem_map.mp ha
    obtain ⟨r, hr, rfl⟩ := List.mem_map.mp hr'
    have hlocal : r.line = 1 := isLocal_of_outside hit r hr
    refine .of_line ?_ rfl nofun
    simp only [Item.line, ImportRecord.shift]
    omega
  | interface hit =>
    rw [List.mem_singleton.mp ha]
    have hlocal := (isLocal_of_outside hit).1
    refine .of_line ?_ rfl nofun
    simp only [Item.line, InterfaceRecord.shift]
    omega
  | @type name r hit =>
    rw [List.mem_singleton.mp ha]
    have hlocal : r.line = 1 := isLocal_of_outside hit
    refine .of_line ?_ rfl nofun
    simp only [Item.line, TypeRecord.shift]
    omega
  | function =>
    rw [List.mem_singleton.mp ha]
    refine ⟨rfl, ?_, fun c hc => by cases hc⟩
    simp only [Item.last, Item.line, functionRecord]
    omega
  | @constant name r hit =>
    rw [List.mem_singleton.mp ha]
    have hlocal : r.line = 1 := isLocal_of_outside hit
    refine .of_line ?_ rfl nofun
    simp only [Item.line, ConstantRecord.shift]
    omega

/-- Of the declarations only imports come in numbers, and they share their line. -/
theorem Declares.pairwise {s : Scan} {i further : Nat} {ls : List Line} {items : List Item}
    (h : Declares s i ls items further) : items.Pairwise Item.Before := by
  have hstands := h.standsAt
  cases h with
  | nothing => exact .nil
  | imports =>
    refine pairwise_before_of_sharesLine (fun a ha => (hstands a ha).line) fun a ha b hb => ?_
    obtain ⟨r, -, rfl⟩ := List.mem_map.mp ha
    obtain ⟨r', -, rfl⟩ := List.mem_map.mp hb
    trivial
  | interface | type | function | constant => exact List.pairwise_singleton _ _

/-- What a line records is in order. -/
theorem pairwise_exportItems_append {i : Nat} {ls : List Line} {items : List Item}
    (hitems : items.Pairwise Item.Before) (hline : ∀ b ∈ items, b.line = i + 1) :
    (exportItems i ls ++ items).Pairwise Item.Before := by
  -- an export may stand in front of anything on its line
  have hbefore : ∀ a ∈ exportItems i ls, ∀ b : Item, b.line = i + 1 → a.Before b := by
    intro a ha b hb
    obtain ⟨r, rfl, hr⟩ := line_of_mem_exportItems ha
    exact .inr ⟨hr.trans hb.symm, trivial⟩
  refine List.pairwise_append.mpr ⟨?_, hitems, fun a ha b hb => hbefore a ha b (hline b hb)⟩
  apply List.pairwise_of_forall_mem_list
  intro a ha b hb
  obtain ⟨r, rfl, hr⟩ := line_of_mem_exportItems hb
  exact hbefore a ha _ hr

/-! ## Classes -/

/-- A line of a class adds at most a method behind those that are there. -/
theorem InsideCase.methodsTile {s s' : Scan} {c c' : ClassScope} {i further : Nat}
    {ls : List Line} (h : InsideCase s c i ls (s', c', further)) (hbegun : c.start < i)
    (hold : MethodsTile (c.start + 1) i c.record.methods) :
    MethodsTile (c.start + 1) (i + further + 1) c'.record.methods := by
  rcases h.methods with hsame | ⟨name, head, -, -, -, hmore⟩
  · rw [hsame]
    exact hold.mono (by omega)
  · rw [hmore]
    refine ⟨fun f hf => ?_,
      List.pairwise_append.mpr ⟨hold.ordered, List.pairwise_singleton _ _, ?_⟩⟩
    · rcases List.mem_append.mp hf with hf | hf
      · exact (hold.mono (by omega)).between f hf
      · rw [List.mem_singleton.mp hf]
        simp only [functionRecord]
        omega
    · intro f hf g hg
      obtain ⟨-, -, hbelow⟩ := hold.between f hf
      rw [List.mem_singleton.mp hg]
      simpa only [functionRecord] using hbelow

theorem last_closed {c : ClassScope} (hkept : c.start ≤ c.stop)
    (hline : c.record.line = c.start + 1) : (Item.closed c).last = c.stop + 1 := by
  simp only [Item.closed, Item.last, ClassScope.finish_line, ClassScope.finish_lineCount,
    ClassScope.extent]
  omega

variable {file : List Line} {m m' : Moment}

/-- A class that is closed lies in the file, and its methods in the class. -/
theorem inFile_closed {c : ClassScope} {index : Nat} (hfile : c.InFile file index)
    (hline : c.record.line = c.start + 1)
    (hmethods : MethodsTile (c.start + 1) (c.stop + 1) c.record.methods) :
    (Item.closed c).InFile file.length := by
  have hkept := hfile.kept
  have hends := hfile.ends
  have hlast := last_closed hkept hline
  have hfirst : (Item.closed c).line = c.start + 1 := hline
  refine ⟨by omega, by omega, fun c' hc' => ?_⟩
  obtain rfl : c.finish = c' := by
    cases hc'
    rfl
  rw [hlast, ClassScope.finish_line, hline]
  exact hmethods

/-! ## The invariant -/

/-- At a moment what has been recorded is in order and lies in front of the line to be read.
Inside a class it lies in front of the class, but for the exports of the class, and the
methods of the class fill the lines between its header and the line to be read. -/
structure Tiled (file : List Line) (m : Moment) : Prop where
  outside : m.scan.scope = none → Recorded file.length m.index m.items
  inside : ∀ c, m.scan.scope = some c → Announced file.length c.start m.items ∧
    m.index ≤ c.stop ∧ c.record.line = c.start + 1 ∧
    MethodsTile (c.start + 1) m.index c.record.methods

/-- A class that is opened is announced by its exports, and recorded behind them. -/
theorem tiled_of_opens {s' : Scan} {head : ClassHead} {doc : Doc} {decorators : List String}
    {items : List Item} (hscope : m.scan.scope = none)
    (hopens : Opens (openedScope m.scan head m.index (file.drop m.index) doc decorators) items
      s'.scope)
    (hlt : m.index < file.length) (h : Tiled file m) :
    Tiled file
      { scan := s', index := m.index + 1,
        items := m.items ++ (exportItems m.index (file.drop m.index) ++ items) } := by
  have hfile := inFile_openedScope hlt m.scan head doc decorators
  generalize hc : openedScope m.scan head m.index (file.drop m.index) doc decorators = c
    at hopens hfile
  have hstart : c.start = m.index := by rw [← hc]; rfl
  have hline : c.record.line = c.start + 1 := by rw [← hc]; rfl
  have hmethods : c.record.methods = [] := by rw [← hc]; rfl
  have hannounced : Announced file.length c.start
      (m.items ++ exportItems m.index (file.drop m.index)) := by
    rw [hstart]
    exact (h.outside hscope).announce (fun a ha => line_of_mem_exportItems ha) hlt
  rw [← List.append_assoc]
  unfold Opens at hopens
  split at hopens
  · rename_i hextent
    obtain ⟨rfl, hnone⟩ := hopens
    have hkept := hfile.kept
    have hlast : (Item.closed c).last = m.index + 1 := by
      rw [last_closed hkept hline]
      simp only [ClassScope.extent] at hextent
      omega
    refine ⟨fun _ => ?_, fun c' hc' => by simp [hnone] at hc'⟩
    have hfirst : (Item.closed c).line = c.start + 1 := hline
    have hclosed := hannounced.close hfirst (inFile_closed hfile hline (hmethods ▸ .nil _ _))
    rw [hlast] at hclosed
    exact hclosed
  · rename_i hextent
    obtain ⟨rfl, hsome⟩ := hopens
    rw [List.append_nil]
    refine ⟨fun hnone => by simp [hsome] at hnone, fun c' hc' => ?_⟩
    simp only [hsome, Option.some.injEq] at hc'
    subst hc'
    refine ⟨hannounced, ?_, hline, hmethods ▸ .nil _ _⟩
    simp only [ClassScope.extent] at hextent
    simp only
    omega

/-- Each move keeps what is recorded in order. -/
theorem tiled_of_move (hmove : Move file m m') (hlt : m.index < file.length)
    (hfile : m.ClassInFile file) (h : Tiled file m) : Tiled file m' := by
  have hne := Moment.drop_ne_nil hlt
  cases hmove with
  | @declares s' exports items further hscope hnone hexports hdecl =>
    refine ⟨fun _ => ?_, fun c hc => by simp [hnone] at hc⟩
    have hfurther := hdecl.further_lt hne
    rw [List.length_drop] at hfurther
    rcases hexports with ⟨rfl, -⟩ | rfl
    · exact (h.outside hscope).append hdecl.pairwise hdecl.standsAt (by omega)
    · refine (h.outside hscope).append
        (pairwise_exportItems_append hdecl.pairwise fun b hb => (hdecl.standsAt b hb).line)
        (fun a ha => ?_) (by omega)
      rcases List.mem_append.mp ha with hexport | hitem
      · exact standsAt_of_mem_exportItems hexport
      · exact hdecl.standsAt a hitem
  | opens hscope _ hopens => exact tiled_of_opens hscope hopens hlt h
  | stays hsome hcase hbehind hsome' =>
    obtain ⟨hannounced, hstop, hline, hmethods⟩ := h.inside _ hsome
    obtain ⟨hstart', hstop', hline', -, -⟩ := hcase.frame hne
    refine ⟨fun hnone => by simp [hsome'] at hnone, fun c hc => ?_⟩
    simp only [hsome', Option.some.injEq] at hc
    rw [← hc, hstart', hline']
    exact ⟨hannounced, hbehind, hline, hcase.methodsTile (hfile _ hsome).begun hmethods⟩
  | @closes s s' c c' further hsome hcase hbehind hnone =>
    obtain ⟨hannounced, hstop, hline, hmethods⟩ := h.inside _ hsome
    obtain ⟨hstart', hstop', hline', hfurther, -⟩ := hcase.frame hne
    have hfile' := hcase.inFile hne (hfile _ hsome)
    have hmethods' := hcase.methodsTile (hfile _ hsome).begun hmethods
    rw [← hstart'] at hline hannounced hmethods'
    rw [← hline'] at hline
    refine ⟨fun _ => ?_, fun c hc => by simp [hnone] at hc⟩
    -- the class is closed behind its last line, not later
    have hfirst : (Item.closed c').line = c'.start + 1 := hline
    have hclosed := hannounced.close hfirst
      (inFile_closed hfile' hline (hmethods'.mono (by omega)))
    have hindex : m.index + further + 1 = (Item.closed c').last := by
      rw [last_closed hfile'.kept hline]
      omega
    rw [hindex]
    exact hclosed

/-- At every moment what has been recorded is in order. -/
theorem tiled_of_reached {path : String} (h : Moment.Reached file (.start path .brace) m) :
    Tiled file m := by
  induction h with
  | first =>
    refine ⟨fun _ => ⟨.nil, fun a ha => ?_, fun a ha => ?_⟩, fun c hc => by cases hc⟩
    · simp [Moment.start] at ha
    · simp [Moment.start] at ha
  | next hreached hlt ih =>
    have hs := sameFile_of_reached hreached
    exact tiled_of_move (next_move hs.2) hlt hreached.classInFile ih

/-- Behind the last line no class is open, since it would end behind that line. -/
theorem scope_last (path : String) (file : List Line) :
    (Moment.last path .brace file).scan.scope = none := by
  have hreached := Moment.reached_last path .brace file
  have hindex := Moment.index_last path .brace file
  rw [Option.eq_none_iff_forall_ne_some]
  intro c hc
  have hstop := ((tiled_of_reached hreached).inside c hc).2.1
  have hends := (hreached.classInFile c hc).ends
  omega

/-- All items of a scan are in order and lie in the file. -/
theorem recorded_allItems (path : String) (file : List Line) :
    Recorded file.length file.length (Moment.last path .brace file).allItems := by
  have htiled := tiled_of_reached (Moment.reached_last path .brace file)
  have hindex := Moment.index_last path .brace file
  have hnone := scope_last path file
  have hrecorded := htiled.outside hnone
  rw [hindex] at hrecorded
  rw [Moment.allItems, hnone, Option.map_none, Option.toList_none, List.append_nil]
  exact hrecorded

end Brace

/-- Nothing that the outline of a file of the brace family holds overlaps. -/
theorem Outline.tiled_build (path : String) (content : List Char) :
    (Outline.build path content .brace).Tiled := by
  have hrecorded := Brace.recorded_allItems path (Text.lines content)
  have hinFile := hrecorded.inFile
  rw [← Outline.lineCount_build path content .brace] at hinFile
  exact (Outline.holds_build path content .brace).tiled hrecorded.ordered hinFile

end CodeAtlas
