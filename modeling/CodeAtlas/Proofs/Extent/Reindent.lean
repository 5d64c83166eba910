/-
Readers of lines with other blanks in front.

Each reader answers for the changed lines what it answers for the lines themselves. Where a
reader is given an indentation to compare with, it is given the changed one.
-/
import CodeAtlas.Proofs.Text.Reindent
import CodeAtlas.Scan.Brace
import CodeAtlas.Scan.Indent

set_option autoImplicit false

namespace CodeAtlas

namespace Reindents

variable {line : Line → Line} {width : Nat → Nat} (h : Reindents line width)
include h

/-! ## The first line -/

theorem firstTrimmed (ls : List Line) :
    CodeAtlas.firstTrimmed (ls.map line) = CodeAtlas.firstTrimmed ls := by
  cases ls with
  | nil => rfl
  | cons l ls => exact h.trim l

theorem braceCount_headD (ls : List Line) :
    CodeAtlas.braceCount ((ls.map line).headD []) = CodeAtlas.braceCount (ls.headD []) := by
  cases ls with
  | nil => rfl
  | cons l ls => exact h.braceCount l

theorem braceDelta_headD (ls : List Line) :
    CodeAtlas.braceDelta ((ls.map line).headD []) = CodeAtlas.braceDelta (ls.headD []) :=
  congrArg BraceCount.delta (h.braceCount_headD ls)

theorem endsIn_headD (c : Char) (ls : List Line) :
    CodeAtlas.endsIn c ((ls.map line).headD []) = CodeAtlas.endsIn c (ls.headD []) := by
  cases ls with
  | nil => rfl
  | cons l ls => exact h.endsIn c l

theorem indentation_headD {ls : List Line} (hne : ls ≠ []) :
    Text.indentation ((ls.map line).headD []) = width (Text.indentation (ls.headD [])) := by
  obtain ⟨l, ls, rfl⟩ := List.exists_cons_of_ne_nil hne
  exact h.indentation l

/-! ## Blocks between curly brackets -/

theorem netDelta (ls : List Line) : CodeAtlas.netDelta (ls.map line) = CodeAtlas.netDelta ls := by
  induction ls with
  | nil => rfl
  | cons l ls ih =>
    rw [List.map_cons, CodeAtlas.netDelta, CodeAtlas.netDelta, sumOf_cons, sumOf_cons, h.braceDelta]
    exact congrArg (CodeAtlas.braceDelta l + ·) ih

theorem braceExtentFrom (opened : Bool) (balance : Int) (read : Nat) (ls : List Line) :
    CodeAtlas.braceExtentFrom opened balance read (ls.map line) =
      CodeAtlas.braceExtentFrom opened balance read ls := by
  induction ls generalizing opened balance read with
  | nil => rfl
  | cons l ls ih =>
    simp only [List.map_cons, CodeAtlas.braceExtentFrom, h.braceCount, h.endsIn, ih]

theorem braceExtent (ls : List Line) :
    CodeAtlas.braceExtent (ls.map line) = CodeAtlas.braceExtent ls :=
  h.braceExtentFrom false 0 0 ls

theorem blockExtent (further : Nat) (ls : List Line) :
    Brace.blockExtent further (ls.map line) = Brace.blockExtent further ls := by
  rw [Brace.blockExtent, Brace.blockExtent, ← List.map_drop, h.braceCount_headD, h.braceExtent]

/-! ## Blocks by indentation -/

theorem continuation (base limit : Nat) (ls : List Line) :
    Brace.continuation (width base) limit (ls.map line) = Brace.continuation base limit ls := by
  induction ls generalizing limit with
  | nil => rw [List.map_nil, Brace.continuation, Brace.continuation]
  | cons l ls ih =>
    cases limit with
    | zero => rw [List.map_cons, Brace.continuation, Brace.continuation]
    | succ limit =>
      simp only [List.map_cons, Brace.continuation, h.isBlank, h.indentation, h.trimStart,
        h.strictMono.le_iff_le, h.endsIn, ih]

theorem expressionExtent (further : Nat) {ls : List Line} (hne : ls ≠ []) :
    Brace.expressionExtent further (ls.map line) = Brace.expressionExtent further ls := by
  simp only [Brace.expressionExtent, ← List.map_drop, h.endsIn_headD, h.indentation_headD hne,
    h.continuation]

theorem braceBodyExtent (head : FunctionHead) {ls : List Line} (hne : ls ≠ []) :
    Brace.bodyExtent head (ls.map line) = Brace.bodyExtent head ls := by
  simp only [Brace.bodyExtent, h.blockExtent, h.expressionExtent _ hne]

theorem indentExtentFrom (base seen last : Nat) (ls : List Line) :
    CodeAtlas.indentExtentFrom (width base) seen last (ls.map line) =
      CodeAtlas.indentExtentFrom base seen last ls := by
  induction ls generalizing seen last with
  | nil => rfl
  | cons l ls ih =>
    simp only [List.map_cons, CodeAtlas.indentExtentFrom, h.isBlank, h.indentation,
      h.strictMono.le_iff_le, ih]

theorem indentExtent (base : Nat) (ls : List Line) :
    CodeAtlas.indentExtent (width base) (ls.map line) = CodeAtlas.indentExtent base ls := by
  rw [CodeAtlas.indentExtent, ← List.map_drop]
  exact h.indentExtentFrom base 1 0 _

theorem indentBodyExtent (head : FunctionHead) {ls : List Line} (hne : ls ≠ []) :
    Indent.bodyExtent head (ls.map line) = Indent.bodyExtent head ls := by
  rw [Indent.bodyExtent, Indent.bodyExtent, h.indentation_headD hne, ← List.map_drop,
    h.indentExtent]

/-! ## Texts joined from lines -/

theorem joinOpen (text : List Char) (further : Nat) (ls : List Line) :
    CodeAtlas.joinOpen text further (ls.map line) = CodeAtlas.joinOpen text further ls := by
  induction ls generalizing text further with
  | nil => rfl
  | cons l ls ih => simp only [List.map_cons, CodeAtlas.joinOpen, h.trim, ih]

theorem joinSignature (ls : List Line) :
    CodeAtlas.joinSignature (ls.map line) = CodeAtlas.joinSignature ls := by
  have hfirst := h.firstTrimmed ls
  rw [CodeAtlas.firstTrimmed, CodeAtlas.firstTrimmed] at hfirst
  rw [CodeAtlas.joinSignature, hfirst, ← List.map_drop, h.joinOpen, CodeAtlas.joinSignature]

theorem joinImport (text : List Char) (further : Nat) (ls : List Line) :
    Brace.joinImport text further (ls.map line) = Brace.joinImport text further ls := by
  induction ls generalizing text further with
  | nil => rfl
  | cons l ls ih => simp only [List.map_cons, Brace.joinImport, h.trim, ih]

theorem joinList (text : List Char) (further : Nat) (ls : List Line) :
    Indent.joinList text further (ls.map line) = Indent.joinList text further ls := by
  induction ls generalizing text further with
  | nil => rfl
  | cons l ls ih => simp only [List.map_cons, Indent.joinList, h.trim, ih]

theorem joinBracketsFrom (text : List Char) (further : Nat) (ls : List Line) :
    Indent.joinBracketsFrom text further (ls.map line) =
      Indent.joinBracketsFrom text further ls := by
  induction ls generalizing text further with
  | nil => rfl
  | cons l ls ih => simp only [List.map_cons, Indent.joinBracketsFrom, h.trim, ih]

theorem joinBrackets (ls : List Line) :
    Indent.joinBrackets (ls.map line) = Indent.joinBrackets ls := by
  rw [Indent.joinBrackets, h.firstTrimmed, ← List.map_drop, h.joinBracketsFrom,
    Indent.joinBrackets]

/-! ## Docstrings -/

theorem docstringBody (quote : List Char) (read : Nat) (ls : List Line) :
    Docstring.bodyFrom quote read (ls.map line) = Docstring.bodyFrom quote read ls := by
  induction ls generalizing read with
  | nil => rfl
  | cons l ls ih => simp only [List.map_cons, Docstring.bodyFrom, h.trim, ih]

theorem docstringAt (ls : List Line) : Docstring.at? (ls.map line) = Docstring.at? ls := by
  cases ls with
  | nil => rfl
  | cons l ls => simp only [List.map_cons, Docstring.at?, h.trim, h.docstringBody]

theorem docstringWithin (base : Nat) (ls : List Line) :
    Docstring.within? (width base) (ls.map line) = Docstring.within? base ls := by
  have hblank : ((ls.map line).takeWhile Text.isBlank).length =
      (ls.takeWhile Text.isBlank).length := by
    rw [List.takeWhile_map, List.length_map]
    exact congrArg (fun p => (ls.takeWhile p).length) (funext h.isBlank)
  simp only [Docstring.within?, hblank, ← List.map_drop]
  cases ls.drop (ls.takeWhile Text.isBlank).length with
  | nil => rfl
  | cons l rest =>
    have hat := h.docstringAt (l :: rest)
    rw [List.map_cons] at hat
    simp only [List.map_cons, h.indentation, h.strictMono.le_iff_le, hat]

theorem docOf (head : FunctionHead) {ls : List Line} (hne : ls ≠ []) :
    Indent.docOf head (ls.map line) = Indent.docOf head ls := by
  simp only [Indent.docOf, h.indentation_headD hne, ← List.map_drop, h.docstringWithin]

end Reindents

end CodeAtlas
