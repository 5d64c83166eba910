/-
Assignments to constants.

The pattern of a constant is followed along a line that is given in pieces. So a line
`NAME = value` is read for every name in capital letters and every value on the line:
it is a constant of that name and value, for a scan outside classes, whatever follows.
-/
import CodeAtlas.Proofs.Outline.Respace
import CodeAtlas.Proofs.Pattern.Follow
import CodeAtlas.Proofs.Scan.Membership
import CodeAtlas.Proofs.Text.Trim

set_option autoImplicit false

namespace CodeAtlas

/-! ## The line of a constant -/

namespace Indent

open Pattern

/-- A name in capital letters, digits and underscores that does not begin with a digit. -/
def IsConstantName (name : List Char) : Prop :=
  (∃ c rest, name = c :: rest ∧ (c.isUpper || c = '_') = true) ∧
    ∀ c ∈ name, (c.isUpper || c.isDigit || c = '_') = true

/-- A value that is written on one line, without blanks around it. -/
structure IsValue (value : List Char) : Prop where
  first : ∃ c rest, value = c :: rest ∧ c ≠ '=' ∧ Text.isBlankChar c = false
  last : ∃ c, value.getLast? = some c ∧ Text.isBlankChar c = false
  inLine : '\n' ∉ value

/-- The line that assigns the value to the name. -/
def assignment (name value : List Char) : Line := name ++ " = ".toList ++ value

/-- The record of the constant, on the line behind `at_` other lines. -/
def constantAt (path : String) (name value : List Char) (at_ : Nat) : ConstantRecord :=
  { name := textOf name, typeText := none, exported := !Text.starts "_" name, location := path,
    line := at_ + 1, value := some (textOf value) }

theorem run_assigned {m : Spot} {value : List Char} (hvalue : IsValue value)
    (hm : m.rest = '=' :: ' ' :: value) :
    let a := m.behind ['=', ' '] value
    let b := a.behind value []
    assigned.run (fun m => some (.done m)) m = some ⟨b, [(.value, a), (.value, b)]⟩ := by
  intro a b
  obtain ⟨c, rest, rfl, hc, hblank⟩ := hvalue.first
  have hrest : ∀ d ∈ rest, inLine d = true := fun d hd =>
    decide_eq_true (ne_of_mem_of_not_mem (List.mem_cons_of_mem c hd) hvalue.inLine)
  have hlast : last.run (fun m => some (.done m)) b = some (.done b) := rfl
  -- from behind: the value to the end of the line, the blanks in front of it, the sign
  have hkept : (keep .value (one (noneOf "=") ++ many inLine)).run
      (last.run fun m => some (.done m)) a = some ⟨b, [(.value, a), (.value, b)]⟩ := by
    have hfirst : a.rest = c :: rest := rfl
    have hall : (a.behind [c] rest).rest = rest ++ [] := (List.append_nil rest).symm
    rw [run_keep, run_append, run_one hfirst (by simpa [noneOf] using hc),
      run_many hall hrest rfl (by rw [← Spot.behind_cons, hlast]; rfl)]
    rfl
  have hgap : blanks.run ((keep .value (one (noneOf "=") ++ many inLine)).run
      (last.run fun m => some (.done m))) (m.behind ['='] (' ' :: c :: rest)) =
        some ⟨b, [(.value, a), (.value, b)]⟩ := by
    refine run_many (w := [' ']) rfl (List.forall_mem_singleton.mpr rfl) hblank ?_
    rw [← Spot.behind_cons]
    exact hkept
  simp only [assigned, run_append]
  refine run_many (w := []) hm (by simp) rfl ?_
  have hstay : m.behind [] ('=' :: ' ' :: c :: rest) = m := by
    rw [← hm, Spot.behind_nil]
  have hequals : m.rest = "=".toList ++ ' ' :: c :: rest := hm
  rw [hstay, run_lit hequals]
  exact hgap

theorem match?_assignment {name value : List Char} (hname : IsConstantName name)
    (hvalue : IsValue value) :
    ∃ r, constantAssignment.match? (assignment name value) = some r ∧ r.part .name = name ∧
      r.part? .kind = none ∧ r.part .value = value := by
  obtain ⟨⟨c, rest, rfl, hc⟩, hall⟩ := hname
  let m := Spot.start (assignment (c :: rest) value)
  let behindName := m.behind (c :: rest) (' ' :: '=' :: ' ' :: value)
  let equals := behindName.behind [' '] ('=' :: ' ' :: value)
  let a := equals.behind ['=', ' '] value
  let b := a.behind value []
  -- from behind: what follows the name is the assignment, without a type
  have htype : typeMark.run (assigned.run fun m => some (.done m)) equals =
      some ⟨b, [(.value, a), (.value, b)]⟩ := by
    rw [typeMark, run_opt_of_none]
    · exact run_assigned hvalue rfl
    · rw [run_append]
      exact run_append_of_lit rfl
  have hgap : blanks.run (typeMark.run (assigned.run fun m => some (.done m))) behindName =
      some ⟨b, [(.value, a), (.value, b)]⟩ :=
    run_many (w := [' ']) rfl (List.forall_mem_singleton.mpr rfl) rfl htype
  have hname : (keep .name (one (fun c => c.isUpper || c = '_') ++
      many fun c => c.isUpper || c.isDigit || c = '_')).run
        (blanks.run (typeMark.run (assigned.run fun m => some (.done m)))) m =
      some ⟨b, [(.name, m), (.name, behindName), (.value, a), (.value, b)]⟩ := by
    have hfirst : m.rest = c :: (rest ++ ' ' :: '=' :: ' ' :: value) := by
      show assignment (c :: rest) value = _
      rw [assignment, List.append_assoc]
      rfl
    have hrest : (m.behind [c] (rest ++ ' ' :: '=' :: ' ' :: value)).rest =
        rest ++ ' ' :: '=' :: ' ' :: value := rfl
    rw [run_keep, run_append, run_one hfirst hc,
      run_many hrest (fun d hd => hall d (List.mem_cons_of_mem c hd)) rfl
        (by rw [← Spot.behind_cons, hgap]; rfl)]
    rfl
  have hlength : m.left = (c :: rest).length + (3 + value.length) := by
    show (assignment (c :: rest) value).length = _
    rw [assignment, List.length_append, List.length_append, Nat.add_assoc]
    rfl
  refine ⟨⟨b, [(.name, m), (.name, behindName), (.value, a), (.value, b)]⟩, ?_, ?_, rfl, ?_⟩
  · rw [match?_eq_run, constantAssignment]
    simp only [run_append (keep _ _ ++ _ ++ _), run_append (keep _ _ ++ _), run_append (keep _ _)]
    exact hname
  · show (assignment (c :: rest) value).take (m.left - (m.left - (c :: rest).length)) = c :: rest
    rw [Nat.sub_sub_self (by omega), assignment, List.append_assoc, List.take_left]
  · have hleft : a.left = value.length := by
      show m.left - (c :: rest).length - 1 - 2 = value.length
      omega
    show value.take (a.left - (a.left - value.length)) = value
    rw [hleft, Nat.sub_self, Nat.sub_zero, List.take_length]

/-! ## Lines that only the row of constants reads -/

/-- The characters with which the rows in front of the one of constants begin. -/
def rowMarks : List Char := ['f', 'i', '@', 'c', 'd', 'a']

theorem firstHit_eq_constant? {ls : List Line} {c : Char}
    (hhead : (firstTrimmed ls).head? = some c) (hc : c ∉ rowMarks) :
    firstHit outside ls = (constant? ls).map fun k => ("constant", k) := by
  have hne : ∀ d ∈ rowMarks, d ≠ c := by
    rintro d hd rfl
    exact hc hd
  have himport := importStatement?_eq_none_of_head? hhead (hne _ (by decide)) (hne _ (by decide))
  have hdecorator := decorator?_eq_none_of_head? hhead (hne _ (by decide))
  have hheader := classDeclaration?_eq_none_of_head? hhead (hne _ (by decide))
  have hdef := Text.not_starts_of_head? "def " hhead rfl (hne 'd' (by decide))
  have hasync := Text.not_starts_of_head? "async " hhead rfl (hne 'a' (by decide))
  have hdefinition : defDeclaration? ls = none := by
    simp [defDeclaration?, hdef, hasync]
  simp only [firstHit, outside, List.findSome?_cons, himport, hdecorator, hheader, hdefinition,
    Option.map_none]
  cases constant? ls <;> rfl

/-- The name of a constant begins with a capital letter or an underscore. -/
theorem constant?_eq_none_of_head? {ls : List Line} {c : Char}
    (hhead : (firstTrimmed ls).head? = some c) (hc : (c.isUpper || c = '_') = false) :
    constant? ls = none := by
  obtain ⟨rest, hrest⟩ := List.head?_eq_some_iff.mp hhead
  have hmatch : constantAssignment.match? (firstTrimmed ls) = none := by
    rw [match?_eq_run, constantAssignment]
    simp only [run_append (keep _ _ ++ _ ++ _), run_append (keep _ _ ++ _),
      run_append (keep _ _), run_keep, run_append (one _)]
    rw [run_one_of_not (show (Spot.start (firstTrimmed ls)).rest = c :: rest from hrest) hc]
    rfl
  simp only [constant?, hmatch, Option.bind_eq_bind, Option.bind_none]

/-! ## The line as it is read -/

theorem IsValue.trim_eq {value : List Char} (h : IsValue value) : Text.trim value = value := by
  obtain ⟨⟨c, rest, rfl, -, hfirst⟩, ⟨d, hd, hlast⟩, -⟩ := h
  exact Text.trim_eq_self hfirst (by rw [hd]; exact hlast)

section

variable {name value : List Char} (hname : IsConstantName name) (hvalue : IsValue value)

include hname

theorem IsConstantName.ne {c d : Char} (hc : c ∈ name)
    (hd : (d.isUpper || d.isDigit || d = '_') = false) : c ≠ d := by
  rintro rfl
  rw [hname.2 c hc] at hd
  cases hd

theorem IsConstantName.not_mem_rowMarks {c : Char} (hc : c ∈ name) : c ∉ rowMarks := by
  intro hmem
  have hmarks : rowMarks.all (fun d => !(d.isUpper || d.isDigit || d = '_')) = true := by decide
  have hmark := List.all_eq_true.mp hmarks c hmem
  exact hname.ne hc ((Bool.not_eq_true' _).mp hmark) rfl

theorem IsConstantName.head? (value : List Char) :
    ∃ c ∈ name, (assignment name value).head? = some c := by
  obtain ⟨⟨c, rest, rfl, -⟩, -⟩ := hname
  exact ⟨c, List.mem_cons_self, rfl⟩

/-- The line does not open a docstring, also where its name begins with a mark of strings. -/
theorem opening?_assignment :
    Docstring.opening? ((assignment name value).dropWhile Docstring.isMark) = none := by
  have hhead : ∀ {d : Char}, (d.isUpper || d.isDigit || d = '_') = false → d ≠ ' ' →
      ((assignment name value).dropWhile Docstring.isMark).head? ≠ some d := by
    intro d hd hspace hhead
    rw [assignment, List.append_assoc, List.dropWhile_append] at hhead
    split at hhead
    · exact hspace (Option.some.inj hhead).symm
    · rename_i hfull
      obtain ⟨c, rest, hrest⟩ := List.exists_cons_of_ne_nil (mt List.isEmpty_iff.mpr hfull)
      rw [hrest] at hhead
      have hmem : c ∈ name :=
        (List.dropWhile_suffix Docstring.isMark).mem (by rw [hrest]; exact List.mem_cons_self)
      exact hname.ne hmem hd (Option.some.inj hhead)
  exact Docstring.opening?_eq_none (hhead (by decide) (by decide)) (hhead (by decide) (by decide))

include hvalue

theorem trim_assignment : Text.trim (assignment name value) = assignment name value := by
  obtain ⟨c, hc, hhead⟩ := hname.head? value
  obtain ⟨⟨v, rest, rfl, -⟩, ⟨d, hd, hlast⟩, -⟩ := hvalue
  refine Text.trim_eq_self ?_ ?_
  · rw [hhead]
    exact Label.isBlankChar_of_nameChar.2.1 (hname.2 c hc)
  · rw [assignment, List.getLast?_append_of_ne_nil _ (List.cons_ne_nil v rest), hd]
    exact hlast

theorem firstTrimmed_assignment (ls : List Line) :
    firstTrimmed (assignment name value :: ls) = assignment name value :=
  trim_assignment hname hvalue

theorem constant?_assignment (ls : List Line) :
    constant? (assignment name value :: ls) = some (.constant (constantAt "" name value 0)) := by
  obtain ⟨r, hmatch, hnamed, htyped, hvalued⟩ := match?_assignment hname hvalue
  simp only [constant?, firstTrimmed_assignment hname hvalue, hmatch, Option.bind_eq_bind,
    Option.bind_some, hnamed, htyped, hvalued, trimmedText, hvalue.trim_eq, Option.map_none]
  rfl

theorem firstHit_assignment (ls : List Line) :
    firstHit outside (assignment name value :: ls) =
      some ("constant", .constant (constantAt "" name value 0)) := by
  obtain ⟨c, hc, hhead⟩ := hname.head? value
  rw [← firstTrimmed_assignment hname hvalue ls] at hhead
  rw [firstHit_eq_constant? hhead (hname.not_mem_rowMarks hc), constant?_assignment hname hvalue,
    Option.map_some]

/-- Outside classes, the line records its constant and nothing else happens. -/
theorem outsideStep_assignment (s : Scan) (at_ : Nat) (ls : List Line) :
    outsideStep s at_ (assignment name value :: ls) =
      .done s.forget [.constant (constantAt s.path name value at_)] 0 := by
  have hfirst := firstTrimmed_assignment hname hvalue ls
  obtain ⟨c, hc, hhead⟩ := hname.head? value
  have hspeaks : saysNothing (assignment name value) = false := by
    obtain ⟨rest, hrest⟩ := List.head?_eq_some_iff.mp hhead
    rw [hrest, saysNothing, List.head?_cons]
    have hmark : c ≠ '#' := hname.ne hc (by decide)
    simpa using hmark
  have hcode : Docstring.at? (assignment name value :: ls) = none := by
    simp only [Docstring.at?, trim_assignment hname hvalue, opening?_assignment hname,
      Option.bind_eq_bind, Option.bind_none]
  have hall : Text.starts "__all__" (assignment name value) = false := by
    -- the third character would be a small letter
    refine Bool.eq_false_iff.mpr fun hstarts => ?_
    obtain ⟨rest, hrest⟩ := List.isPrefixOf_iff_prefix.mp hstarts
    have hthird : (assignment name value)[2]? = some 'a' := by
      rw [← hrest]
      rfl
    rcases name with _ | ⟨d, _ | ⟨e, _ | ⟨f, name⟩⟩⟩
    · exact absurd hc List.not_mem_nil
    · simp [assignment] at hthird
    · simp [assignment] at hthird
    · have hsmall : f = 'a' := by simpa [assignment] using hthird
      exact hname.ne (by simp) (by decide) hsmall
  simp only [outsideStep, hfirst, hspeaks, hcode, hall, firstHit_assignment hname hvalue,
    Bool.false_eq_true, if_false, record, Construct.shift, ConstantRecord.shift, constantAt,
    Nat.zero_add, Nat.add_comm 1]

end

end Indent

end CodeAtlas
