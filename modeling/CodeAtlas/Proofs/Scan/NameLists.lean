/-
Lists of exported names in a file.

The statement that assigns `__all__` is read outside classes, before any row of the table is asked.
It is joined from its lines, and the scan goes on behind as many lines as were joined. So on
whatever lines the list stands, each of its names is an export on the line where the statement
begins, and nothing of the lines is read twice or left out (`Outline.build_nameList`).
-/
import CodeAtlas.Proofs.Header.NameList
import CodeAtlas.Proofs.Scan.Quoted

set_option autoImplicit false

namespace CodeAtlas

namespace Indent

namespace NameList

variable (s : NameList)

/-- What is recorded of a list that begins behind `n` lines. -/
def exports (n : Nat) : List ExportRecord :=
  s.names.map fun x =>
    { name := textOf x.name, kind := .named, isDefault := false, line := n + 1 }

variable {s} {ls after : List Line}

/-- The first line is code, and begins the statement. -/
theorem IsWrittenOn.begins (h : s.IsWrittenOn ls) (after : List Line) :
    saysNothing (firstTrimmed (ls ++ after)) = false ∧ Docstring.at? (ls ++ after) = none ∧
      Text.starts "__all__" (firstTrimmed (ls ++ after)) = true := by
  obtain ⟨t, ht⟩ : ∃ t, firstTrimmed (ls ++ after) = "__all__".toList ++ t := by
    cases h with
    | lines hfirst hjoined => exact ⟨_, hfirst.trans (List.append_assoc _ _ _)⟩
  have hhead : (firstTrimmed (ls ++ after)).head? = some '_' := by rw [ht]; rfl
  obtain ⟨hspeaks, hcode⟩ := isCode_of_head? hhead (by decide) (by decide) (by decide)
  exact ⟨hspeaks, hcode, ht ▸ List.isPrefixOf_iff_prefix.mpr (List.prefix_append _ t)⟩

/-- Lines without line feeds write a list without any. -/
theorem IsWrittenOn.onLine (h : s.IsWrittenOn ls) (hls : ∀ l ∈ ls, '\n' ∉ l) :
    '\n' ∉ s.list := by
  cases h with
  | @lines first more x hfirst hjoined =>
    obtain ⟨hline, hmore⟩ := List.forall_mem_cons.mp hls
    intro hmem
    -- it would be in one of the lines, since they are joined by blanks
    have hin : '\n' ∈ [' '].intercalate (x :: more.map Text.trim) := by
      rw [hjoined]
      exact List.mem_append_left _ hmem
    rcases Text.mem_of_mem_intercalate hin with hspace | ⟨piece, hpiece, hc⟩
    · revert hspace
      decide
    · rcases List.mem_cons.mp hpiece with rfl | hpiece
      · refine hline (Text.mem_of_mem_trim ?_)
        rw [hfirst]
        exact List.mem_append_right _ (List.mem_cons_of_mem _ hc)
      · obtain ⟨l, hl, rfl⟩ := List.mem_map.mp hpiece
        exact hmore l hl (Text.mem_of_mem_trim hc)

/-- One call records the list and goes on behind it. -/
theorem IsWrittenOn.outsideStep_eq (h : s.IsWrittenOn ls) (hls : ∀ l ∈ ls, '\n' ∉ l)
    (hfits : ls.length ≤ maxLookahead + 1) (scan : Scan) (at_ : Nat) (after : List Line) :
    outsideStep scan at_ (ls ++ after) =
      .done scan.forget ((s.exports at_).map .exportItem) (ls.length - 1) := by
  obtain ⟨hspeaks, hcode, hbegins⟩ := h.begins after
  have hexports : (exportsOf s.text).map (fun r => .exportItem (r.shift at_)) =
      (s.exports at_).map Item.exportItem := by
    rw [s.exportsOf_text (h.onLine hls), exports, List.map_map, List.map_map]
    refine List.map_congr_left fun x _ => ?_
    simp only [Function.comp_apply, ExportRecord.shift, Nat.add_comm at_]
  simp only [outsideStep, hspeaks, hcode, hbegins, h.joinBrackets_eq hfits after, hexports]
  rfl

end NameList

end Indent

/-! ## Files -/

open Indent

/-- An assignment of `__all__` that a scan comes to with no class open, in any layout: the file is
what was recorded in front, then an export for each name of the list, in order and on the line
where the assignment begins, and then what the lines behind its last line are as a file of their
own. -/
theorem Outline.build_nameList (path : String) {content : List Char} {front ls after : List Line}
    {s : NameList} {m : Moment} (hlines : Text.lines content = front ++ (ls ++ after))
    (hreached : Moment.Reached (front ++ (ls ++ after)) (.start path .indent) m)
    (hindex : m.index = front.length) (hscope : m.scan.scope = none) (hwritten : s.IsWrittenOn ls)
    (hfits : ls.length ≤ maxLookahead + 1) :
    (Outline.build path content .indent).Continues
      (m.items ++ (s.exports front.length).map .exportItem) (front.length + ls.length)
      (scanLines path .indent after) := by
  have hpos : 0 < ls.length := by
    cases hwritten
    exact Nat.succ_pos _
  have hfeeds : ∀ l ∈ ls, '\n' ∉ l := fun l hl => Text.lineFeed_notMem_lines content l
    (hlines ▸ List.mem_append_right _ (List.mem_append_left _ hl))
  have hback : (front ++ (ls ++ after)).drop m.index = ls ++ after := by
    rw [hindex, List.drop_left]
  -- the call that comes to the list leaves the scan behind it, with nothing open
  have hnext := next_of_outsideStep hreached.sameFile.2 hscope hback
    (hwritten.outsideStep_eq hfeeds hfits m.scan m.index after)
  have hbehind : m.index + (ls.length - 1) + 1 = (front ++ ls).length := by
    rw [hindex, List.length_append]
    omega
  have hafter := hreached.next (by
    rw [hindex, List.length_append, List.length_append]
    omega)
  rw [hnext, ← List.append_assoc] at hafter
  have hcontinues := (Outline.continues_build path .indent).1 _ _ _ hafter hbehind
    (clean_forget hreached hscope)
  rw [List.append_assoc, ← hlines, List.length_append, hindex] at hcontinues
  exact Outline.continues_build_iff.mpr hcontinues

def Indent.walkName : ListedName where
  isDouble := false
  name := "walk".toList
  named := List.cons_ne_nil _ _
  plain := by decide

def Indent.pathName : ListedName where
  isDouble := true
  name := "path".toList
  named := List.cons_ne_nil _ _
  plain := by decide

/-- Two names between quotes of both kinds, with a comma behind the last one. -/
def Indent.walkAndPath : NameList where
  names := [walkName, pathName]
  list := " 'walk',  \"path\" , ".toList
  gap := []
  annotation := some " tuple ".toList
  behind := [' ']
  isRound := true
  isList :=
    ⟨[" 'walk'".toList, "  \"path\" ".toList, [' ']], by decide, by decide, .inr (by decide)⟩
  isGap := rfl
  isBehind := rfl
  isAnnotation := by
    intro a ha
    obtain rfl := Option.mem_some_iff.mp ha
    exact ⟨by decide, by decide⟩

/-- The list over five lines, one of them blank, between an import and a function. -/
theorem Outline.build_nameList_broken :
    let content := ("import os\n__all__: tuple = (\n    'walk',\n\n    \"path\" ,\n)\n" ++
      "def walk():\n    pass\n").toList
    let front := ["import os".toList]
    let ls :=
      ["__all__: tuple = (".toList, "    'walk',".toList, [], "    \"path\" ,".toList, [')']]
    let after := ["def walk():".toList, "    pass".toList]
    let m := (Moment.start "a.py" .indent).next (Text.lines content)
    Text.lines content = front ++ (ls ++ after) ∧
      Moment.Reached (front ++ (ls ++ after)) (.start "a.py" .indent) m ∧
      m.index = front.length ∧ m.scan.scope = none ∧ walkAndPath.IsWrittenOn ls ∧
      ls.length ≤ maxLookahead + 1 ∧
      walkAndPath.exports front.length =
        [{ name := "walk", kind := .named, isDefault := false, line := 2 },
          { name := "path", kind := .named, isDefault := false, line := 2 }] ∧
      (Outline.build "a.py" content .indent).Continues
        (m.items ++ (walkAndPath.exports front.length).map .exportItem) (front.length + ls.length)
        (scanLines "a.py" .indent after) := by
  intro content front ls after m
  have hlines : Text.lines content = front ++ (ls ++ after) := by decide +kernel
  have hreached : Moment.Reached (front ++ (ls ++ after)) (.start "a.py" .indent) m := by
    rw [← hlines]
    exact .next .first (by decide +kernel)
  have hindex : m.index = front.length := by decide +kernel
  have hscope : m.scan.scope = none := Option.isNone_iff_eq_none.mp (by decide +kernel)
  have hwritten : walkAndPath.IsWrittenOn ls := .lines (x := []) (by decide) (by decide)
  have hfits : ls.length ≤ maxLookahead + 1 := by decide
  exact ⟨hlines, hreached, hindex, hscope, hwritten, hfits, by decide +kernel,
    Outline.build_nameList "a.py" hlines hreached hindex hscope hwritten hfits⟩

end CodeAtlas
