/-
Files of imports.

Two readers pass over an import statement. The recogniser joins the lines of a list that is broken
and sees the whole of it; the scan counts the curly brackets of one line after the other and hears
nothing of that. They agree in the end: the list opens one bracket on its first line, no other line
of it has any until the last one closes it, and a module has none that count, whatever its text is.
So a scan that is new in front of a statement records it, passes the lines of its list at depth
one, and is new behind it (`itemsFrom_statement`).
-/
import CodeAtlas.Proofs.Header.ImportClause
import CodeAtlas.Proofs.Scan.Depth
import CodeAtlas.Proofs.Scan.Suffix

set_option autoImplicit false

namespace CodeAtlas

open Brace Pattern

/-! ## Brackets of a statement -/

namespace Brace

theorem IsEntryList.isNeutral {entries : List ImportEntry} {t : List Char}
    (h : IsEntryList entries t) : ∀ c ∈ t, IsNeutral c := by
  intro c hc
  rcases h.isEntryChar_entries c hc with hchar | rfl
  · exact isNeutral_of_class (by decide) hchar
  · decide

theorem isNeutral_of_isName {w : List Char} (hw : IsNameOf Text.isNameStart Text.isNameChar w) :
    ∀ c ∈ w, IsNeutral c := fun _ hc =>
  isNeutral_of_isNameChar (Text.isNameChar_of_mem hw hc)

theorem isNeutral_of_mem_listed {ts : List (List Char)} (h : ∀ p ∈ ts, ∀ c ∈ p, IsNeutral c) :
    ∀ c ∈ listed ts, IsNeutral c := by
  intro c hc
  rcases Text.mem_of_mem_intercalate hc with hc | ⟨p, hp, hmem⟩
  · have hsigns : ∀ c ∈ [',', ' '], IsNeutral c := by decide
    exact hsigns c hc
  · exact h p hp c hmem

namespace ImportStatement

variable (s : ImportStatement) {g : List Char}

theorem braceCount_source (hg : Text.isBlank g = true) :
    braceCount (s.source.text ++ g) = ⟨0, 0⟩ := by
  have hquote : s.source.quote ∉ s.source.module := by
    intro hmem
    have hfree := s.source.noQuote _ (List.mem_append_left _ hmem)
    rw [s.source.isQuote] at hfree
    cases hfree
  have hbehind : ∀ c ∈ s.source.behind ++ g, IsNeutral c := by
    refine List.forall_mem_append.mpr ⟨?_, isNeutral_of_isBlank hg⟩
    rcases s.closed with h | h <;> rw [h] <;> decide
  rw [Quoted.text, List.cons_append, List.append_assoc, List.cons_append]
  exact braceCount_literal (isQuote_of_isModuleQuote s.source.isQuote) hquote hbehind

theorem isNeutral_default : ∀ p ∈ s.default.toList, ∀ c ∈ p, IsNeutral c :=
  fun p hp => isNeutral_of_isName (s.isDefault p (Option.mem_toList.mp hp))

/-- Only a list has brackets. -/
theorem isNeutral_parts (h : ∀ entries t isList, s.target ≠ .list entries t isList) :
    ∀ p ∈ s.parts, ∀ c ∈ p, IsNeutral c := by
  refine List.forall_mem_append.mpr ⟨s.isNeutral_default, ?_⟩
  cases htarget : s.target with
  | nothing => exact List.forall_mem_nil _
  | whole name isName =>
    refine List.forall_mem_singleton.mpr (List.forall_mem_cons.mpr ⟨by decide, ?_⟩)
    exact List.forall_mem_append.mpr ⟨by decide, isNeutral_of_isName isName⟩
  | list entries t isList => exact absurd htarget (h entries t isList)

theorem braceCount_opening (r : List Char) :
    braceCount (s.opening ++ r) = (braceCount r).add '\x7b' := by
  have hsplit : s.opening =
      "import ".toList ++ listed (s.default.toList ++ [[]]) ++ ['\x7b'] := by
    have hlast := listed_concat_append s.default.toList [] ['\x7b']
    rw [List.nil_append] at hlast
    unfold opening
    rw [hlast, List.append_assoc]
  have hneutral : ∀ c ∈ "import ".toList ++ listed (s.default.toList ++ [[]]), IsNeutral c := by
    have hlead : ∀ p ∈ s.default.toList ++ [[]], ∀ c ∈ p, IsNeutral c :=
      List.forall_mem_append.mpr ⟨s.isNeutral_default, by simp⟩
    exact List.forall_mem_append.mpr ⟨by decide, isNeutral_of_mem_listed hlead⟩
  rw [hsplit, List.append_assoc, braceCount_append_of_neutral hneutral]
  rfl

theorem braceCount_closing (hg : Text.isBlank g = true) :
    braceCount (s.closing ++ g) = ⟨0, 1⟩ := by
  have hcount : braceCount (" from ".toList ++ (s.source.text ++ g)) = ⟨0, 0⟩ := by
    rw [braceCount_append_of_neutral (by decide), s.braceCount_source hg]
  have hclose : braceCount (s.closing ++ g) =
      (braceCount (" from ".toList ++ (s.source.text ++ g))).add '\x7d' := by
    rw [closing, List.cons_append, List.append_assoc]
    rfl
  rw [hclose, hcount]
  rfl

/-- A statement on one line closes what it opens. -/
theorem braceDelta_text {l : Line} (h : Text.trim l = s.text) : braceDelta l = 0 := by
  obtain ⟨g, hg, hcount⟩ := exists_braceCount_trim l
  rw [braceDelta, hcount, h]
  by_cases hlist : ∃ entries t isList, s.target = .list entries t isList
  · obtain ⟨entries, t, isList, htarget⟩ := hlist
    -- the one bracket that it opens is closed behind the list
    rw [s.text_eq_of_list htarget, List.append_assoc, List.append_assoc, braceCount_opening,
      braceCount_append_of_neutral isList.isNeutral, s.braceCount_closing hg]
    rfl
  · have hnone : ∀ entries t isList, s.target ≠ .list entries t isList :=
      fun entries t isList h => hlist ⟨entries, t, isList, h⟩
    have hneutral : ∀ c ∈ "import ".toList ++ s.front, IsNeutral c := by
      refine List.forall_mem_append.mpr ⟨by decide, ?_⟩
      rw [front]
      split
      · exact List.forall_mem_nil _
      · exact List.forall_mem_append.mpr
          ⟨isNeutral_of_mem_listed (s.isNeutral_parts hnone), by decide⟩
    have htext : s.text ++ g = "import ".toList ++ s.front ++ (s.source.text ++ g) := by
      unfold text importText
      simp only [List.append_assoc]
    rw [htext, braceCount_append_of_neutral hneutral, s.braceCount_source hg]
    rfl

/-- The first line of a broken list opens it. -/
theorem braceDelta_first {l : Line} {x : List Char} (h : Text.trim l = s.opening ++ x)
    (hx : ∀ c ∈ x, IsNeutral c) : braceDelta l = 1 := by
  obtain ⟨g, hg, hcount⟩ := exists_braceCount_trim l
  have hrest : braceCount (x ++ g) = ⟨0, 0⟩ :=
    braceCountFrom_of_neutral
      (List.forall_mem_append.mpr ⟨hx, isNeutral_of_isBlank hg⟩) .code
  rw [braceDelta, hcount, h, List.append_assoc, braceCount_opening, hrest]
  rfl

/-- The last line closes it. -/
theorem braceDelta_last {l : Line} {y : List Char} (h : Text.trim l = y ++ s.closing)
    (hy : ∀ c ∈ y, IsNeutral c) : braceDelta l = -1 := by
  obtain ⟨g, hg, hcount⟩ := exists_braceCount_trim l
  rw [braceDelta, hcount, h, List.append_assoc, braceCount_append_of_neutral hy,
    s.braceCount_closing hg]
  rfl

end ImportStatement

end Brace

/-! ## The scan -/

section

variable {path : String} {depth : Int} {s : Brace.ImportStatement} {ls after : List Line} {l : Line}

/-- A line that begins with another character than a slash is no comment. -/
theorem commentLine?_of_head? {t : List Char} (h : t.head? ≠ some '/') :
    commentLine? { path, family := .brace, depth } t = none := by
  have hstarts : ∀ lead : String, lead.toList.head? = some '/' → Text.starts lead t = false := by
    intro lead hlead
    cases hd : t.head? with
    | none =>
      rw [List.head?_eq_none_iff.mp hd]
      refine Bool.eq_false_iff.mpr fun hprefix => ?_
      rw [List.prefix_nil.mp (List.isPrefixOf_iff_prefix.mp hprefix)] at hlead
      cases hlead
    | some d =>
      refine Text.not_starts_of_head? lead hd hlead ?_
      rintro rfl
      exact h hd
  exact commentLine?_eq_none_iff.mpr ⟨⟨rfl, rfl⟩, hstarts "/*" rfl, hstarts "//" rfl⟩

theorem skip_line (items : List Item) (ls : List Line) :
    skip { path, family := .brace, depth } items 0 ls =
      .done { path, family := .brace, depth := max (depth + braceDelta (ls.headD [])) 0 } items 0 := by
  rw [skip, netDelta_window_zero]

/-- The scan records the statement on its first line, and counts the brackets of that line. -/
theorem step_of_isWrittenOn (path : String) (h : s.IsWrittenOn ls) (after : List Line)
    (at_ : Nat) :
    ({ path, family := .brace } : Scan).step at_ (ls ++ after) =
      .done { path, family := .brace, depth := max (0 + braceDelta ((ls ++ after).headD [])) 0 }
        [.importItem (s.record.shift at_)] 0 := by
  have hread := s.importStatement?_of_isWrittenOn h after
  obtain ⟨-, t, hfirst⟩ := h.join after
  obtain ⟨u, hhead⟩ : ∃ u, firstTrimmed (ls ++ after) = 'i' :: u := ⟨_, hfirst⟩
  have hcode : commentLine? { path, family := .brace } ('i' :: u) = none :=
    commentLine?_of_head? (by simp)
  have hexports : exportsOf ('i' :: u) = [] := by
    rw [exportsOf, Text.not_starts_of_head? "export" rfl rfl (by decide)]
    rfl
  have hhit : firstHit outside (ls ++ after) = some ("import", .imports [s.record]) := by
    simp only [firstHit, outside, List.findSome?_cons, hread, Option.map_some]
  have hrecord : record { path, family := .brace } (.imports [s.record]) at_ (ls ++ after) =
      skip { path, family := .brace } [.importItem (s.record.shift at_)] 0 (ls ++ after) := rfl
  simp only [Scan.step, Scan.outsideStep, outsideStep, hhead, hcode, hexports, hhit, hrecord,
    skip_line]
  rfl

/-- Inside brackets a line is passed. -/
theorem step_inside (path : String) (hdepth : 0 < depth) (h : (Text.trim l).head? ≠ some '/')
    (after : List Line) (at_ : Nat) :
    ({ path, family := .brace, depth } : Scan).step at_ (l :: after) =
      .done { path, family := .brace, depth := max (depth + braceDelta l) 0 } [] 0 := by
  have hcode : commentLine? { path, family := .brace, depth } (Text.trim l) = none :=
    commentLine?_of_head? h
  have hfirst : firstTrimmed (l :: after) = Text.trim l := rfl
  simp only [Scan.step, Scan.outsideStep, outsideStep, hfirst, hcode, hdepth, if_true]
  split
  · rename_i hblank
    rw [braceDelta_of_trim_eq_nil (List.isEmpty_iff.mp hblank), Int.add_zero,
      Int.max_eq_left (Int.le_of_lt hdepth)]
    rfl
  · exact skip_line [] (l :: after)

/-- Lines without brackets are passed at depth one. -/
theorem itemsFrom_inside {mid : List Line}
    (h : ∀ l ∈ mid, ∀ c ∈ Text.trim l, IsNeutral c) (at_ : Nat) :
    ({ path, family := .brace, depth := 1 } : Scan).itemsFrom at_ (mid ++ after) =
      ({ path, family := .brace, depth := 1 } : Scan).itemsFrom (at_ + mid.length) after := by
  induction mid generalizing at_ with
  | nil => rfl
  | cons l mid ih =>
    obtain ⟨hl, hmore⟩ := List.forall_mem_cons.mp h
    have hhead : (Text.trim l).head? ≠ some '/' := by
      intro hslash
      exact (hl '/' (List.mem_of_mem_head? hslash)).2.1 rfl
    have hstep := step_inside path Int.one_pos hhead (mid ++ after) at_
    rw [braceDelta_of_neutral hl] at hstep
    have hnext := Scan.itemsFrom_of_done (List.cons_ne_nil _ _) hstep
    rw [List.cons_append, hnext]
    show ({ path, family := .brace, depth := 1 } : Scan).itemsFrom (at_ + 0 + 1) (mid ++ after) = _
    rw [ih hmore, List.length_cons]
    congr 1
    omega

/-- Behind a statement the scan is new again. -/
theorem itemsFrom_statement (h : s.IsWrittenOn ls) (at_ : Nat) :
    ({ path, family := .brace } : Scan).itemsFrom at_ (ls ++ after) =
      .importItem (s.record.shift at_) ::
        ({ path, family := .brace } : Scan).itemsFrom (at_ + ls.length) after := by
  have hstep := step_of_isWrittenOn path h after at_
  cases h with
  | @whole l hl =>
    have hdelta : braceDelta (([l] ++ after).headD []) = 0 := s.braceDelta_text hl
    rw [hdelta] at hstep
    exact Scan.itemsFrom_of_done (List.cons_ne_nil _ _) hstep
  | @broken first last mid entries x y t isList htarget ht hfirst hlast hfits =>
    -- no character of a list is a bracket, a quote or a slash, so the lines in the middle change
    -- nothing
    have hneutral : ∀ p ∈ x :: mid.map Text.trim ++ [y], ∀ c ∈ p, IsNeutral c := fun p hp c hc =>
      isList.isNeutral c (ht ▸ Text.mem_intercalate hp hc)
    have hx := hneutral x (by simp)
    have hy := hneutral y (by simp)
    have hmid : ∀ l ∈ mid, ∀ c ∈ Text.trim l, IsNeutral c := fun l hl =>
      hneutral _ (List.mem_append_left _ (List.mem_cons_of_mem _ (List.mem_map_of_mem hl)))
    have hopens := s.braceDelta_first hfirst hx
    have hcloses := s.braceDelta_last hlast hy
    -- the last line is no comment, so its brackets are counted
    have hhead : (Text.trim last).head? ≠ some '/' := by
      rw [hlast]
      cases y with
      | nil => simp [ImportStatement.closing]
      | cons c y =>
        intro hslash
        exact (hy c List.mem_cons_self).2.1 (Option.some.inj hslash)
    have hlines : first :: mid ++ [last] ++ after = first :: (mid ++ last :: after) := by simp
    have hend := step_inside path Int.one_pos hhead after (at_ + 1 + mid.length)
    rw [hcloses] at hend
    rw [hlines, List.headD_cons, hopens] at hstep
    have hfirst := Scan.itemsFrom_of_done (List.cons_ne_nil _ _) hstep
    have hlast := Scan.itemsFrom_of_done (List.cons_ne_nil _ _) hend
    have hindex : at_ + (first :: mid ++ [last]).length = at_ + 1 + mid.length + 0 + 1 := by
      simp only [List.length_append, List.length_cons, List.length_nil]
      omega
    rw [hlines, hfirst, hindex]
    show _ :: ({ path, family := .brace, depth := 1 } : Scan).itemsFrom (at_ + 1)
      (mid ++ last :: after) = _
    rw [itemsFrom_inside hmid, hlast]
    rfl

end

/-! ## Files -/

/-- The lines from the one with the index on are statements, with blank lines in front of them,
and these are their records. -/
inductive StatementsFrom : Nat → List Line → List ImportRecord → Prop where
  | done {n : Nat} {gap : List Line} : (∀ l ∈ gap, Text.isBlank l = true) → StatementsFrom n gap []
  | next {n : Nat} {gap ls rest : List Line} {s : Brace.ImportStatement}
      {records : List ImportRecord} : (∀ l ∈ gap, Text.isBlank l = true) → s.IsWrittenOn ls →
      StatementsFrom (n + gap.length + ls.length) rest records →
      StatementsFrom n (gap ++ (ls ++ rest)) (s.record.shift (n + gap.length) :: records)

theorem StatementsFrom.itemsFrom {path : String} {n : Nat} {ls : List Line}
    {records : List ImportRecord} (h : StatementsFrom n ls records) :
    ({ path, family := .brace } : Scan).itemsFrom n ls = records.map .importItem := by
  induction h with
  | @done n gap hgap =>
    have hall : ({ path, family := .brace } : Scan).itemsFrom n (gap ++ []) =
        ({ path, family := .brace } : Scan).itemsFrom (n + gap.length) [] :=
      Scan.itemsFrom_append_of_isBlank hgap n
    rw [List.append_nil] at hall
    rw [hall, Scan.itemsFrom]
    rfl
  | next hgap hwritten _ ih =>
    rw [Scan.itemsFrom_append_of_isBlank hgap, itemsFrom_statement hwritten, ih]
    rfl

/-- A file of import statements, each on lines of its own, has these imports and nothing else. -/
theorem Outline.imports_build (path : String) {content : List Char} {records : List ImportRecord}
    (h : StatementsFrom 0 (Text.lines content) records) :
    let o := Outline.build path content .brace
    o.imports = records ∧ o.functions = [] ∧ o.classes = [] ∧ o.interfaces = [] ∧ o.types = [] ∧
      o.constants = [] ∧ o.exports = [] := by
  have hholds := Outline.holds_itemsFrom path .brace content
  rw [h.itemsFrom] at hholds
  have hnone : ∀ {α : Type} (f : Item → Option α), (∀ r, f (.importItem r) = none) →
      (records.map Item.importItem).filterMap f = [] := by
    intro α f hf
    rw [List.filterMap_map]
    exact List.filterMap_eq_nil_iff.mpr fun r _ => hf r
  have himports : (records.map Item.importItem).filterMap Item.import? = records := by
    rw [List.filterMap_map]
    exact List.filterMap_some
  exact ⟨hholds.imports.trans himports, hholds.functions.trans (hnone _ fun _ => rfl),
    hholds.classes.trans (hnone _ fun _ => rfl), hholds.interfaces.trans (hnone _ fun _ => rfl),
    hholds.types.trans (hnone _ fun _ => rfl), hholds.constants.trans (hnone _ fun _ => rfl),
    hholds.exports.trans (hnone _ fun _ => rfl)⟩

/-- The import of a module for its effects. -/
def Brace.effectsOf (module : List Char) (named : module ≠ [])
    (noQuote : ∀ c ∈ module ++ [';'], isModuleQuote c = false) : Brace.ImportStatement where
  default := none
  target := .nothing
  source := ⟨'\'', module, [';'], rfl, named, noQuote⟩
  isDefault _ hw := by cases hw
  closed := .inr rfl

def Brace.sideEffects : Brace.ImportStatement :=
  effectsOf "side".toList (by decide) (by decide)

/-- An entry without a name of its own, which is a type. -/
def Brace.typeEntry : Brace.ImportEntry where
  typed := true
  name := ['a']
  given := none
  isName := isNameOf_singleton (by decide)
  isGiven _ hw := by cases hw
  noKeyword := by decide

def Brace.renamedEntry : Brace.ImportEntry where
  typed := false
  name := ['b']
  given := some ['c']
  isName := isNameOf_singleton (by decide)
  isGiven w hw := by
    obtain rfl := Option.mem_some_iff.mp hw
    exact isNameOf_singleton (by decide)
  noKeyword := by decide

/-- What stands between the brackets of a list that is broken. -/
def Brace.brokenEntries : List Char := " type a, b as c, ".toList

theorem Brace.isEntryList_brokenEntries :
    IsEntryList [typeEntry, renamedEntry] brokenEntries where
  isList := ⟨[" type a".toList, " b as c".toList, [' ']], by decide, by decide, .inr (by decide)⟩
  onLine := by decide

def Brace.brokenList : Brace.ImportStatement where
  default := some ['D']
  target := .list [typeEntry, renamedEntry] brokenEntries isEntryList_brokenEntries
  source := ⟨'"', "./m".toList, [';'], by decide, by decide, by decide⟩
  isDefault w hw := by
    obtain rfl := Option.mem_some_iff.mp hw
    exact isNameOf_singleton (by decide)
  closed := .inr rfl

def Brace.wholeModule : Brace.ImportStatement where
  default := none
  target := .whole ['N'] (isNameOf_singleton (by decide))
  source := ⟨'\'', "node:fs".toList, [], by decide, by decide, by decide⟩
  isDefault _ hw := by cases hw
  closed := .inl rfl

/-- The statements with a list over four lines, a blank line in front of it and no semicolon at
the end of the file. -/
theorem Outline.imports_build_brokenList :
    let content := ("import 'side';\n\nimport D, \x7b\n  type a,\n  b as c,\n\x7d from \"./m\";\n" ++
      "import * as N from 'node:fs'").toList
    let records : List ImportRecord :=
      [{ module := "side", line := 1, origin := some .external },
       { module := "./m", names := ["D", "a", "b as c"], isDefault := true, line := 3,
         origin := some .internal },
       { module := "node:fs", names := ["N"], isNamespace := true, line := 7,
         origin := some .builtin }]
    StatementsFrom 0 (Text.lines content) records ∧
      (Outline.build "a.ts" content .brace).imports = records := by
  intro content records
  have hlines : Text.lines content =
      [] ++ (["import 'side';".toList] ++
        ([[]] ++ (("import D, \x7b".toList :: ["  type a,".toList, "  b as c,".toList] ++
            ["\x7d from \"./m\";".toList]) ++
          ([] ++ (["import * as N from 'node:fs'".toList] ++ []))))) := by
    decide +kernel
  have hrecords : records =
      [Brace.sideEffects.record.shift 0,
        Brace.brokenList.record.shift 2, Brace.wholeModule.record.shift 6] := by
    decide +kernel
  have hstatements : StatementsFrom 0 (Text.lines content) records := by
    rw [hlines, hrecords]
    refine .next (List.forall_mem_nil _) (.whole (by decide)) ?_
    refine .next (List.forall_mem_singleton.mpr rfl)
      (.broken (x := []) (y := []) rfl (by decide) (by decide) (by decide) (by decide)) ?_
    refine .next (List.forall_mem_nil _) (.whole (by decide)) ?_
    exact .done (List.forall_mem_nil _)
  exact ⟨hstatements, (Outline.imports_build "a.ts" hstatements).1⟩

/-- Of two statements on one line the second is lost. -/
theorem Outline.imports_build_sameLine :
    let first := Brace.sideEffects
    let second := Brace.effectsOf ['b'] (by decide) (by decide)
    let o := Outline.build "a.ts" (first.text ++ ' ' :: second.text) .brace
    o.imports ≠ [first.record, second.record] ∧ o.imports = [first.record] := by
  decide +kernel

end CodeAtlas
