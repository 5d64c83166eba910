/-
Export lists in a file.

An import statement is joined from its lines before it is read, but of an export statement the scan
shows the recogniser one line. So a list on one line leaves its records, and a list that is broken
leaves none: its first line opens a bracket and exports nothing, and the lines behind it are passed
at depth one like the body of a function. In both cases the scan is new behind the statement, so
that nothing else in the file depends on how it is laid out (`Outline.build_exportList`).
-/
import CodeAtlas.Proofs.Header.ExportList
import CodeAtlas.Proofs.Scan.Imports

set_option autoImplicit false

namespace CodeAtlas

open Brace Pattern

namespace Brace

/-! ## Brackets of a statement -/

namespace ExportStatement

variable (s : ExportStatement) {g : List Char}

/-- What stands behind the list has no brackets that count. -/
theorem braceCount_tail (hg : Text.isBlank g = true) : braceCount (s.tail.text ++ g) = ⟨0, 0⟩ := by
  cases s.tail with
  | own semicolon =>
    have hneutral : ∀ c ∈ (ExportTail.own semicolon).text, IsNeutral c := by
      cases semicolon <;> decide
    exact braceCountFrom_of_neutral
      (List.forall_mem_append.mpr ⟨hneutral, isNeutral_of_isBlank hg⟩) .code
  | taken source closed =>
    -- an import of the same module ends in the same way
    let effects : ImportStatement :=
      { default := none, target := .nothing, source, isDefault := fun _ h => (by cases h), closed }
    have hsource : braceCount (source.text ++ g) = ⟨0, 0⟩ := effects.braceCount_source hg
    have hword : ∀ c ∈ " from ".toList, IsNeutral c := by decide
    have hsplit : (ExportTail.taken source closed).text ++ g =
        " from ".toList ++ (source.text ++ g) := List.append_assoc _ _ _
    rw [hsplit, braceCount_append_of_neutral hword, hsource]

theorem braceCount_opening (t : List Char) :
    braceCount (opening ++ t) = (braceCount t).add '\x7b' := by
  have hsplit : opening = "export ".toList ++ ['\x7b'] := rfl
  rw [hsplit, List.append_assoc, braceCount_append_of_neutral (by decide)]
  rfl

theorem braceCount_closing (hg : Text.isBlank g = true) : braceCount (s.closing ++ g) = ⟨0, 1⟩ := by
  have hclose : braceCount (s.closing ++ g) = (braceCount (s.tail.text ++ g)).add '\x7d' := rfl
  rw [hclose, s.braceCount_tail hg]
  rfl

/-- A statement on one line closes what it opens. -/
theorem braceDelta_text {l : Line} (h : Text.trim l = s.text) : braceDelta l = 0 := by
  obtain ⟨g, hg, hcount⟩ := exists_braceCount_trim l
  rw [braceDelta, hcount, h, text, List.append_assoc, List.append_assoc, braceCount_opening,
    braceCount_append_of_neutral s.isNeutral_list, s.braceCount_closing hg]
  rfl

/-- The first line of a broken list opens it. -/
theorem braceDelta_first {l : Line} {x : List Char} (h : Text.trim l = opening ++ x)
    (hx : ∀ c ∈ x, IsNeutral c) : braceDelta l = 1 := by
  obtain ⟨g, hg, hcount⟩ := exists_braceCount_trim l
  have hrest : braceCount (x ++ g) = ⟨0, 0⟩ :=
    braceCountFrom_of_neutral (List.forall_mem_append.mpr ⟨hx, isNeutral_of_isBlank hg⟩) .code
  rw [braceDelta, hcount, h, List.append_assoc, braceCount_opening, hrest]
  rfl

/-- The last line closes it. -/
theorem braceDelta_last {l : Line} {y : List Char} (h : Text.trim l = y ++ s.closing)
    (hy : ∀ c ∈ y, IsNeutral c) : braceDelta l = -1 := by
  obtain ⟨g, hg, hcount⟩ := exists_braceCount_trim l
  rw [braceDelta, hcount, h, List.append_assoc, braceCount_append_of_neutral hy,
    s.braceCount_closing hg]
  rfl

/-- What the lines of the statement leave: its records if it stands on one line, and nothing if
its list is broken. -/
def seen (ls : List Line) : List ExportRecord := if ls.length = 1 then s.records else []

end ExportStatement

/-! ## The scan -/

/-- Outside classes and brackets, with no comment open. -/
structure AtFileLevel (s : Scan) : Prop where
  noClass : s.scope = none
  depth : s.depth = 0
  calm : Calm s

variable {scan : Scan} {s : ExportStatement} {ls after : List Line}

theorem commentLine?_of_calm (hcalm : Calm scan) {t : List Char} (ht : t.head? ≠ some '/') :
    commentLine? scan t = none := by
  have hstarts : ∀ lead : String, lead.toList.head? = some '/' → Text.starts lead t = false := by
    intro lead hlead
    refine Bool.eq_false_iff.mpr fun hprefix => ht ?_
    obtain ⟨rest, rfl⟩ := List.isPrefixOf_iff_prefix.mp hprefix
    rw [List.head?_append, hlead]
    rfl
  refine Option.eq_none_iff_forall_ne_some.mpr fun s' hs' => ?_
  have hslashes := (eq_of_commentLine? hcalm (hstarts "/*" rfl) hs').2
  rw [hstarts "//" rfl] at hslashes
  cases hslashes

/-- A line that opens a list leaves its exports, and the scan is new behind it but for the
brackets of the line. -/
theorem step_opening (hfamily : scan.family = .brace) (hlevel : AtFileLevel scan) {t : List Char}
    (hfirst : firstTrimmed ls = ExportStatement.opening ++ t) (at_ : Nat) :
    scan.step at_ ls =
      .done { path := scan.path, family := .brace, depth := max (0 + braceDelta (ls.headD [])) 0 }
        (exportItems at_ ls) 0 := by
  obtain ⟨u, hhead⟩ : ∃ u, firstTrimmed ls = 'e' :: u := ⟨_, hfirst⟩
  have hcode : commentLine? scan ('e' :: u) = none :=
    commentLine?_of_calm hlevel.calm (by simp)
  have hhit := ExportStatement.firstHit_opening hfirst
  obtain ⟨path, family, scope, pending, depth, inComment⟩ := scan
  obtain ⟨rfl, rfl, -, rfl⟩ := hlevel
  obtain rfl : family = .brace := hfamily
  have hitems : exportItems at_ ls =
      (exportsOf ('e' :: u)).map fun r => .exportItem (r.shift at_) := by
    rw [exportItems, hhead]
  simp only [Scan.step, Scan.outsideStep, outsideStep, hhead, hcode, hhit, hitems]
  show Step.done _ (_ ++ []) 0 = _
  rw [List.append_nil, netDelta_window_zero]
  rfl

/-- The lines behind the first one of a broken list are passed, and the last one closes it. -/
theorem itemsFrom_rest {path : String} {mid : List Line} {last : Line} {y : List Char}
    (hmid : ∀ l ∈ mid, ∀ c ∈ Text.trim l, IsNeutral c) (hlast : Text.trim last = y ++ s.closing)
    (hy : ∀ c ∈ y, IsNeutral c) (at_ : Nat) :
    ({ path, family := .brace, depth := 1 } : Scan).itemsFrom at_ (mid ++ last :: after) =
      ({ path, family := .brace } : Scan).itemsFrom (at_ + mid.length + 1) after := by
  have hhead : (Text.trim last).head? ≠ some '/' := by
    rw [hlast]
    cases y with
    | nil => simp [ExportStatement.closing]
    | cons c y =>
      intro hslash
      exact (hy c List.mem_cons_self).2.1 (Option.some.inj hslash)
  have hstep := step_inside path Int.one_pos hhead after (at_ + mid.length)
  rw [s.braceDelta_last hlast hy] at hstep
  rw [itemsFrom_inside hmid, Scan.itemsFrom_of_done (List.cons_ne_nil _ _) hstep]
  rfl

/-- The statement is passed with what it leaves, and the scan is new behind it. -/
theorem itemsFrom_exportStatement (hfamily : scan.family = .brace) (hlevel : AtFileLevel scan)
    (h : s.IsWrittenOn ls) (at_ : Nat) :
    scan.itemsFrom at_ (ls ++ after) =
      (s.seen ls).map (fun r => .exportItem (r.shift at_)) ++
        ({ path := scan.path, family := .brace } : Scan).itemsFrom (at_ + ls.length) after := by
  cases h with
  | @whole l hl =>
    have hfirst : firstTrimmed (l :: after) = ExportStatement.opening ++ (s.list ++ s.closing) := hl
    have hstep := step_opening hfamily hlevel hfirst at_
    have hitems : exportItems at_ (l :: after) =
        (s.seen [l]).map fun r => .exportItem (r.shift at_) := by
      rw [exportItems, hfirst, ← ExportStatement.text, s.exportsOf_text]
      rfl
    rw [List.headD_cons, s.braceDelta_text hl, hitems] at hstep
    exact Scan.itemsFrom_of_done (List.cons_ne_nil _ _) hstep
  | @broken first last mid x y hlist hfirst hlast =>
    have hneutral : ∀ p ∈ x :: mid.map Text.trim ++ [y], ∀ c ∈ p, IsNeutral c := fun p hp c hc =>
      s.isNeutral_list c (hlist ▸ Text.mem_intercalate hp hc)
    have hx := hneutral x (by simp)
    have hmid : ∀ l ∈ mid, ∀ c ∈ Text.trim l, IsNeutral c := fun l hl =>
      hneutral _ (List.mem_append_left _ (List.mem_cons_of_mem _ (List.mem_map_of_mem hl)))
    have hlines : first :: mid ++ [last] ++ after = first :: (mid ++ last :: after) := by simp
    have hopening : firstTrimmed (first :: (mid ++ last :: after)) =
        ExportStatement.opening ++ x := hfirst
    -- the list is not closed on its first line, and the lines behind it are read in brackets
    have hitems : exportItems at_ (first :: (mid ++ last :: after)) = [] := by
      rw [exportItems, hopening,
        ExportStatement.exportsOf_opening fun hmem => (hx _ hmem).2.2.2 rfl]
      rfl
    have hstep := step_opening hfamily hlevel hopening at_
    rw [List.headD_cons, ExportStatement.braceDelta_first hfirst hx, hitems] at hstep
    have hopen : scan.itemsFrom at_ (first :: (mid ++ last :: after)) =
        ({ path := scan.path, family := .brace, depth := 1 } : Scan).itemsFrom (at_ + 1)
          (mid ++ last :: after) := Scan.itemsFrom_of_done (List.cons_ne_nil _ _) hstep
    have hseen : s.seen (first :: mid ++ [last]) = [] := by
      rw [ExportStatement.seen, if_neg (by simp)]
    have hindex : at_ + (first :: mid ++ [last]).length = at_ + 1 + mid.length + 1 := by
      simp only [List.length_append, List.length_cons, List.length_nil]
      omega
    rw [hlines, hopen, itemsFrom_rest hmid hlast (hneutral y (by simp)), hseen, hindex]
    rfl

end Brace

/-! ## Files -/

/-- An export list that a scan comes to outside classes and brackets, whatever stands in front of
it: the file is what was recorded in front, then what the list leaves, then what the rest is as a
file of its own. The list leaves all its records on one line and none on several, so that two
layouts export the same only if both are one line, or neither, or the list is empty. -/
theorem Outline.build_exportList (path : String) {content : List Char} {front ls after : List Line}
    {s : Brace.ExportStatement} {m : Moment} (hlines : Text.lines content = front ++ (ls ++ after))
    (hreached : Moment.Reached (front ++ (ls ++ after)) (.start path .brace) m)
    (hindex : m.index = front.length) (hlevel : Brace.AtFileLevel m.scan)
    (hwritten : s.IsWrittenOn ls) :
    (Outline.build path content .brace).Continues
        (m.items ++ (s.seen ls).map fun r => .exportItem (r.shift front.length))
        (front.length + ls.length) (scanLines path .brace after) ∧
      (s.seen ls = s.records ↔ ls.length = 1 ∨ s.entries = []) := by
  obtain ⟨hpath, hfamily⟩ := Brace.sameFile_of_reached hreached
  constructor
  · have htotal : _ = ({ path, family := .brace } : Scan).itemsFrom 0 (front ++ (ls ++ after)) :=
      hreached.total_eq
    rw [Moment.total, hindex, List.drop_left,
      Brace.itemsFrom_exportStatement hfamily hlevel hwritten, hpath, Scan.itemsFrom_shift,
      ← List.append_assoc] at htotal
    have hholds := Outline.holds_itemsFrom path .brace content
    rw [hlines, ← htotal] at hholds
    exact hholds.continues (holds_scanLines path .brace after)
  · rw [Brace.ExportStatement.seen]
    split
    · rename_i hone
      exact iff_of_true rfl (.inl hone)
    -- on several lines nothing is recorded, which is right only if there is nothing to record
    · rename_i hmore
      rw [or_iff_right hmore, Brace.ExportStatement.records, eq_comm, List.map_eq_nil_iff]

theorem Brace.isNameOf_of_mem_none : ∀ w ∈ (none : Option (List Char)),
    IsNameOf Text.isNameStart Text.isNameChar w := by
  intro w hw
  cases hw

/-- Two names, one of them renamed. -/
def Brace.twoEntries : List Brace.ExportEntry :=
  [{ typed := false, name := ['u'], given := none, isName := isNameOf_singleton (by decide),
     isGiven := isNameOf_of_mem_none },
   { typed := false, name := ['v'], given := some ['w'], isName := isNameOf_singleton (by decide),
     isGiven := by
      intro w hw
      obtain rfl := Option.mem_some_iff.mp hw
      exact isNameOf_singleton (by decide) }]

theorem Brace.isListOf_twoEntries :
    IsListOf ',' (twoEntries.map ExportEntry.text) " u, v as w ".toList :=
  ⟨[" u".toList, " v as w ".toList], by decide, by decide, .inl (by decide)⟩

def Brace.twoExports : Brace.ExportStatement where
  entries := twoEntries
  list := " u, v as w ".toList
  tail := .own true
  isList := isListOf_twoEntries

/-- The list over four lines behind an import: the scan comes to it at file level, and goes on
behind it as if it were not there. -/
theorem Outline.build_exportList_broken :
    let content := "import 'side';\nexport \x7b\n  u,\n  v as w\n\x7d;\n".toList
    let front := ["import 'side';".toList]
    let ls := "export \x7b".toList :: ["  u,".toList, "  v as w".toList] ++ ["\x7d;".toList]
    let m := (Moment.start "a.ts" .brace).next (Text.lines content)
    Text.lines content = front ++ (ls ++ []) ∧
      Moment.Reached (front ++ (ls ++ [])) (.start "a.ts" .brace) m ∧ m.index = front.length ∧
      Brace.AtFileLevel m.scan ∧ Brace.twoExports.IsWrittenOn ls ∧
      ((Outline.build "a.ts" content .brace).Continues
          (m.items ++ (Brace.twoExports.seen ls).map fun r => .exportItem (r.shift front.length))
          (front.length + ls.length) (scanLines "a.ts" .brace []) ∧
        (Brace.twoExports.seen ls = Brace.twoExports.records ↔
          ls.length = 1 ∨ Brace.twoExports.entries = [])) := by
  intro content front ls m
  have hlines : Text.lines content = front ++ (ls ++ []) := by decide +kernel
  have hreached : Moment.Reached (front ++ (ls ++ [])) (.start "a.ts" .brace) m := by
    rw [← hlines]
    exact .next .first (by decide +kernel)
  have hindex : m.index = front.length := by decide +kernel
  have hlevel : Brace.AtFileLevel m.scan :=
    { noClass := Option.isNone_iff_eq_none.mp (by decide +kernel), depth := by decide +kernel,
      calm := ⟨by decide +kernel, by decide +kernel⟩ }
  have hwritten : Brace.twoExports.IsWrittenOn ls :=
    .broken (x := []) (y := []) (by decide) (by decide) (by decide)
  exact ⟨hlines, hreached, hindex, hlevel, hwritten,
    Outline.build_exportList "a.ts" hlines hreached hindex hlevel hwritten⟩

/-- The same statement in two layouts: on one line it has two exports, over four lines none. -/
theorem Outline.build_exportList_layouts :
    let whole := "export \x7b u, v as w \x7d;".toList
    let broken := "export \x7b".toList :: ["  u,".toList, "  v as w".toList] ++ ["\x7d;".toList]
    Brace.twoExports.IsWrittenOn [whole] ∧ Brace.twoExports.IsWrittenOn broken ∧
      (Outline.build "a.ts" (Text.terminated [whole]) .brace).exports =
        Brace.twoExports.records ∧
      (Outline.build "a.ts" (Text.terminated broken) .brace).exports = [] ∧
      Brace.twoExports.records =
        [{ name := "u", kind := .named, line := 1 }, { name := "w", kind := .named, line := 1 }] := by
  intro whole broken
  exact ⟨.whole (by decide), .broken (x := []) (y := []) (by decide) (by decide) (by decide),
    by decide +kernel, by decide +kernel, by decide +kernel⟩

end CodeAtlas
