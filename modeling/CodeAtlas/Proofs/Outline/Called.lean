/-
What callables call.

The dependencies of a function or a method are the names in front of the brackets of its lines, in
the order in which they first occur and without the excluded words, and without the bracket of its
own header. Which text of the first line is searched for them is said by the declared name on that
line (`Searched`): mostly what stands behind the name.

So a callable lists its own name if and only if it calls it, as far as the search for calls knows
the name. It does not know private names, and takes the declaration of one for a call of the name
without its sign. And of a variable that is bound to a named function expression it leaves out the
variable and not the expression, which is then taken for a call.
-/
import CodeAtlas.Proofs.Header.Declaring
import CodeAtlas.Proofs.Outline.Metadata

set_option autoImplicit false

namespace CodeAtlas

open Text (callNames unrepeated)

/-! ## Names on lines -/

namespace Analysis

variable {family : Family} {l : Line} {ls : List Line} {s : List Char} {n name : String}

/-- The names that are called on a line, none if it is a comment. -/
def namesOn (family : Family) (l : Line) : List (List Char) :=
  if isComment family (Text.trim l) then [] else callNames (Text.trim l)

/-- What is called on lines, of which the first one is searched in the text `s` only. -/
def callList (family : Family) (s : List Char) (l : Line) (ls : List Line) : List String :=
  (keptNames ((if isComment family (Text.trim l) then [] else callNames s) ++
    ls.flatMap (namesOn family))).eraseDups

theorem mem_keptNames {names : List (List Char)} :
    n ∈ keptNames names ↔ n ∉ Vocabulary.callExcludes ∧ n.toList ∈ names := by
  rw [keptNames, List.mem_filter, and_comm]
  refine and_congr (by simp) ?_
  rw [List.mem_map]
  constructor
  · rintro ⟨m, hm, rfl⟩
    rwa [String.toList_ofList]
  · exact fun hm => ⟨n.toList, hm, String.ofList_toList⟩

theorem keptNames_append (names names' : List (List Char)) :
    keptNames (names ++ names') = keptNames names ++ keptNames names' := by
  rw [keptNames, List.map_append, List.filter_append]
  rfl

theorem callsOn_none (family : Family) (l : Line) :
    callsOn family none l = keptNames (namesOn family l) := by
  rw [callsOn, namesOn]
  split
  · rfl
  · exact lineCalls_none _

theorem flatMap_callsOn (family : Family) (ls : List Line) :
    ls.flatMap (callsOn family none) = keptNames (ls.flatMap (namesOn family)) := by
  induction ls with
  | nil => rfl
  | cons l ls ih =>
    rw [List.flatMap_cons, List.flatMap_cons, keptNames_append, ih, callsOn_none]

/-- What is called in a body, if it is known what the first line calls. -/
theorem calls_eq_callList
    (h : lineCalls (some name) (Text.trim l) = keptNames (callNames s)) :
    calls family (some name) (l :: ls) = callList family s l ls := by
  have hfirst : callsOn family (some name) l =
      keptNames (if isComment family (Text.trim l) then [] else callNames s) := by
    rw [callsOn]
    split
    · rfl
    · exact h
  rw [calls, hfirst, flatMap_callsOn, ← keptNames_append, Text.unrepeated_eq_eraseDups]
  rfl

theorem mem_callList : n ∈ callList family s l ls ↔ n ∉ Vocabulary.callExcludes ∧
    (isComment family (Text.trim l) = false ∧ n.toList ∈ callNames s ∨
      ∃ l' ∈ ls, n.toList ∈ namesOn family l') := by
  rw [callList, List.mem_eraseDups, mem_keptNames, List.mem_append,
    List.mem_flatMap]
  cases isComment family (Text.trim l) <;> simp

/-- Nothing that is called begins with the private sign. -/
theorem not_mem_callNames_of_private {name : List Char} (hname : name.head? = some '#')
    (t : List Char) : name ∉ callNames t := by
  intro hmem
  obtain ⟨u, -, rfl⟩ := List.mem_map.mp (List.mem_filter.mp hmem).1
  exact nameAtEnd_ne_of_private hname u rfl

theorem not_mem_callList_of_private (hname : name.toList.head? = some '#') :
    name ∉ callList family s l ls := by
  intro hmem
  rcases (mem_callList.mp hmem).2 with ⟨-, hfirst⟩ | ⟨l', -, hmore⟩
  · exact not_mem_callNames_of_private hname s hfirst
  · rw [namesOn] at hmore
    split at hmore
    · cases hmore
    · exact not_mem_callNames_of_private hname _ hmore

end Analysis

open Analysis

/-! ## Callables -/

/-- What a callable lists whose first line is `l`, on which `a` stands in front of its name and `b`
behind it; on that line calls are searched in `s`. -/
structure FunctionRecord.Lists (family : Family) (f : FunctionRecord) (l : Line) (ls : List Line)
    (a b s : List Char) : Prop where
  declares : Declaring (Text.trim l) f.name.toList a b
  searched : Searched f.name.toList a b s
  dependencies : f.dependencies = callList family s l ls
  /-- where `b` is searched, the bracket of the parameters is the only one that is left out -/
  leftOut : f.name.toList.head? ≠ some '#' → SetOff a → callNames (Text.trim l) =
    (if (Text.trimStart b).head? = some '(' then [f.name.toList] else []) ++ callNames b
  /-- the name is listed if it is called -/
  recursive : f.name ∈ f.dependencies ↔ f.name ∉ Vocabulary.callExcludes ∧
    (isComment family (Text.trim l) = false ∧ f.name.toList ∈ callNames s ∨
      ∃ l' ∈ ls, f.name.toList ∈ namesOn family l')
  /-- a private name is never listed -/
  hidden : f.name.toList.head? = some '#' → f.name ∉ f.dependencies
  /-- a header is taken for a comment only with a star at its begin -/
  comment : isComment family (Text.trim l) = true → (Text.trim l).head? = some '*'

/-- The lines of the record are such lines. -/
def FunctionRecord.Called (family : Family) (file : List Line) (f : FunctionRecord) : Prop :=
  ∃ l ls a b s, rangeOf file f.line (f.line + f.lineCount - 1) = l :: ls ∧
    f.Lists family l ls a b s

variable {path : String} {family : Family} {content : List Char} {file : List Line} {i : Nat}
  {c : Construct} {head : FunctionHead}

theorem Declared.declaresName (h : Declared family file i c) (hhead : c.head? = some head) :
    DeclaresName family (firstTrimmed (file.drop i)) head.name := by
  cases family with
  | brace =>
    rcases Brace.declaration?_of_declared h hhead with hrow | hrow | hrow
    · exact Brace.declaresName_of_functionDeclaration? hrow hhead
    · exact Brace.declaresName_of_arrowDeclaration? hrow hhead
    · exact Brace.declaresName_of_methodDeclaration? hrow hhead
  | indent =>
    exact Indent.declaresName_of_defDeclaration? (Indent.defDeclaration?_of_declared h hhead) hhead

theorem FunctionRecord.HasOrigin.called {f : FunctionRecord}
    (h : f.HasOrigin path family file) : f.Called family file := by
  obtain ⟨i, extent, head, hmade⟩ := h
  obtain ⟨c, hdecl, hhead⟩ := hmade.declared
  obtain ⟨⟨a, b, hdeclares⟩, hcomment⟩ := hdecl.declaresName hhead
  obtain ⟨l, ls, hdrop⟩ := List.exists_cons_of_ne_nil (Moment.drop_ne_nil hdecl.inFile)
  have hfirst : firstTrimmed (file.drop i) = Text.trim l := by
    rw [hdrop]
    rfl
  have hwindow : window extent (file.drop i) = l :: ls.take extent := by
    rw [hdrop]
    rfl
  rw [hfirst] at hdeclares hcomment
  -- all that the record says of its calls is fixed where it is made
  have hrecord : f.name = head.name ∧ f.line = i + 1 ∧ f.lineCount = extent + 1 ∧
      f.dependencies = calls family (some head.name) (l :: ls.take extent) := by
    rw [← hwindow]
    obtain ⟨doc, decorators, rfl | rfl⟩ := hmade.record <;> exact ⟨rfl, rfl, rfl, rfl⟩
  obtain ⟨hname, hline, hcount, hdependencies⟩ := hrecord
  rw [← hname] at hdeclares hdependencies
  obtain ⟨s, hsearched, hcalls⟩ := hdeclares.exists_searched
  rw [String.ofList_toList] at hcalls
  rw [calls_eq_callList hcalls] at hdependencies
  refine ⟨l, ls.take extent, a, b, s, ?_, hdeclares, hsearched, hdependencies,
    hdeclares.callNames_of_known, ?_, ?_, hcomment⟩
  · rw [hline, hcount, rangeOf_eq_window, hwindow]
  · rw [hdependencies, mem_callList]
  · intro hhash hmem
    rw [hdependencies] at hmem
    exact not_mem_callList_of_private hhash hmem

/-! ## Outlines -/

/-- What all callables of an outline list. -/
structure Outline.Called (family : Family) (content : List Char) (o : Outline) : Prop where
  callables : ∀ f ∈ o.functions ++ o.methods, f.Called family (Text.lines content)
  /-- the methods of interfaces have no bodies -/
  members : ∀ r ∈ o.interfaces, ∀ f ∈ r.methods, f.dependencies = []

theorem Outline.called_build (path : String) (content : List Char) (family : Family) :
    (Outline.build path content family).Called family content where
  callables := fun f hf => (hasOrigin_callables path content family f hf).called
  members := fun _ hr _ hf => (bodiless_of_mem_interfaces hr hf).dependencies

/-- Three callables that do not call themselves; only the generator calls something. -/
def oddHeaders : List Char :=
  ("class A \x7b\n  #secret(x) \x7b\n    return x;\n  \x7d\n  *gen() \x7b helper(); \x7d\n\x7d\n" ++
    "const f = function f(n) \x7b\n  return n;\n\x7d;\n").toList

/-- The declarations of a private method and of a named function expression are taken for calls,
and the line of a generator for a comment. -/
theorem dependencies_oddHeaders :
    let o := Outline.build "a.ts" oddHeaders .brace
    (o.functions ++ o.methods).map (fun f => (f.name, f.dependencies)) =
      [("f", ["f"]), ("#secret", ["secret"]), ("gen", [])] := by
  decide +kernel

end CodeAtlas
