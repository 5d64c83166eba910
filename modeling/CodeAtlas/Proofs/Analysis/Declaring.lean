/-
Calls on a line that declares a name.

A line that declares a name has neither a bracket nor an equals sign in front of it (`Declaring`).
So its first bracket is the first one behind the name, and whether the search for calls leaves that
bracket out depends on the text in between: if there are only blanks, the bracket belongs to the
declaration, and otherwise it has the name at the end of that text. Then the line calls what is
called behind the declared name (`Searched.behind`), with two exceptions. The search may not know
the name, since it knows no private sign and reads a keyword and a name without a blank in between
as one; then it takes the declaration for a call (`Searched.whole`). And it may take a call of the
name in a type in front of the parameters for the declaration (`Searched.inType`).
-/
import CodeAtlas.Proofs.Analysis.CallNames

set_option autoImplicit false

namespace CodeAtlas.Analysis

open Pattern Text

/-- What begins the name of a callable. -/
def isCallableStart (c : Char) : Bool := isNameStart c || c = '#'

/-- The text does not end in a name. -/
def SetOff (a : List Char) : Prop := a.getLast?.any isNameChar = false

/-- The line declares the name between `a` and `b`: nothing is called or bound in front of it, and
only the keyword `function` may stand there without a blank. -/
structure Declaring (t name a b : List Char) : Prop where
  split : t = a ++ (name ++ b)
  isName : IsNameOf isCallableStart isNameChar name
  noBracket : '(' ∉ a
  noEquals : '=' ∉ a
  setOff : SetOff a ∨ ∃ a', a = a' ++ "function".toList ∧ SetOff a'
  ends : b.head?.any isNameChar = false

/-- Between the name and its parameters stands a type that calls the name: `r` is behind that
call's bracket. -/
structure InType (name b r : List Char) : Prop where
  split : ∃ v, b = v ++ '(' :: r ∧ '(' ∉ v ∧ '=' ∉ v ∧ nameAtEnd v = name

/-- Where the first line of a callable is searched for calls. -/
inductive Searched (name a b : List Char) : List Char → Prop
  | behind : name.head? ≠ some '#' → SetOff a → (∀ r, ¬ InType name b r) → Searched name a b b
  | whole : name.head? = some '#' ∨ ¬ SetOff a → (∀ r, ¬ InType name b r) →
      Searched name a b (a ++ (name ++ b))
  | inType {r : List Char} : InType name b r → Searched name a b r

variable {t name a b v r : List Char}

theorem not_mem_of_isCallable {d : Char} (hd : d = '(' ∨ d = '=')
    (hname : IsNameOf isCallableStart isNameChar name) : d ∉ name := by
  obtain ⟨c, n, rfl, hc, hn⟩ := hname
  have hnot : isCallableStart d = false ∧ isNameChar d = false := by
    rcases hd with rfl | rfl
    · decide
    · decide
  intro hmem
  rcases List.mem_cons.mp hmem with rfl | hmem
  · rw [hnot.1] at hc
    cases hc
  · have hchar := hn d hmem
    rw [hnot.2] at hchar
    cases hchar

/-- A callable without the private sign has a name that can be called. -/
theorem isName_of_isCallable (hname : IsNameOf isCallableStart isNameChar name)
    (hletter : name.head? ≠ some '#') : IsNameOf isNameStart isNameChar name := by
  obtain ⟨c, n, rfl, hc, hn⟩ := hname
  refine ⟨c, n, rfl, ?_, hn⟩
  rcases Bool.or_eq_true_iff.mp hc with hc | hc
  · exact hc
  · exact absurd (congrArg some (of_decide_eq_true hc)) hletter

/-- No name that is called begins with the private sign. -/
theorem nameAtEnd_ne_of_private (hname : name.head? = some '#') (t : List Char) :
    nameAtEnd t ≠ name := by
  rintro rfl
  rcases isName_nameAtEnd t with hnone | ⟨c, n, hn, hc, -⟩
  · rw [hnone] at hname
    cases hname
  · rw [hn, List.head?_cons, Option.some_inj] at hname
    rw [hname] at hc
    revert hc
    decide

namespace Declaring

variable (h : Declaring t name a b)
include h

theorem not_mem_front {d : Char} (hd : d = '(' ∨ d = '=') : d ∉ a ++ name := by
  rw [List.mem_append, not_or]
  refine ⟨?_, not_mem_of_isCallable hd h.isName⟩
  rcases hd with rfl | rfl
  · exact h.noBracket
  · exact h.noEquals

/-- With blanks only in front of its parameters, the name stands at the end if the search knows
it, and otherwise another one does. -/
theorem nameAtEnd_of_isBlank (hv : isBlank v = true) :
    nameAtEnd (a ++ (name ++ v)) = name ↔ name.head? ≠ some '#' ∧ SetOff a := by
  constructor
  · intro hend
    have hletter : name.head? ≠ some '#' := fun hname => nameAtEnd_ne_of_private hname _ hend
    refine ⟨hletter, h.setOff.resolve_right ?_⟩
    rintro ⟨a', rfl, hoff⟩
    -- the keyword and the name are read as one
    obtain ⟨c, n, rfl, hc, hn⟩ := isName_of_isCallable h.isName hletter
    have hglued : IsNameOf isNameStart isNameChar ("function".toList ++ c :: n) := by
      refine ⟨'f', "unction".toList ++ c :: n, rfl, by decide, ?_⟩
      intro d hd
      rcases List.mem_append.mp hd with hd | hd
      · exact List.all_eq_true.mp (by decide : "unction".toList.all isNameChar = true) d hd
      · rcases List.mem_cons.mp hd with rfl | hd
        · exact isNameChar_of_isNameStart hc
        · exact hn d hd
    have hread := nameAtEnd_append_name hoff hglued hv
    rw [List.append_assoc] at hend hread
    rw [hread] at hend
    have hlength := congrArg List.length hend
    rw [List.length_append] at hlength
    exact absurd hlength (by simp)
  · rintro ⟨hletter, hoff⟩
    exact nameAtEnd_append_name hoff (isName_of_isCallable h.isName hletter) hv

/-- Behind something else than blanks the name at the end is not the declared one. -/
theorem nameAtEnd_of_not_isBlank (hv : isBlank v = false) (hb : b = v ++ '(' :: r) :
    nameAtEnd (a ++ (name ++ v)) = nameAtEnd v := by
  rw [← List.append_assoc]
  refine nameAtEnd_append hv ?_ _
  have hends := h.ends
  rw [hb] at hends
  cases v with
  | nil => cases hv
  | cons c v => exact hends

theorem split_bracket (hb : b = v ++ '(' :: r) : t = a ++ (name ++ v) ++ '(' :: r := by
  rw [h.split, hb]
  simp only [List.append_assoc]

theorem mem_uptoBracket {d : Char} (hd : d = '(' ∨ d = '=') :
    d ∈ a ++ (name ++ v) ↔ d ∈ v := by
  rw [← List.append_assoc, List.mem_append]
  exact or_iff_right (h.not_mem_front hd)

/-- Behind the name, the first bracket decides. -/
theorem lineCalls_eq (hb : b = v ++ '(' :: r) (hv : '(' ∉ v) :
    lineCalls (some (String.ofList name)) t = keptNames
      (if nameAtEnd (a ++ (name ++ v)) = name ∧ '=' ∉ v then callNames r else callNames t) := by
  have hu : '(' ∉ a ++ (name ++ v) := mt (h.mem_uptoBracket (.inl rfl)).mp hv
  rw [h.split_bracket hb, lineCalls_some hu, String.toList_ofList]
  simp only [h.mem_uptoBracket (.inr rfl)]

theorem callNames_eq (hb : b = v ++ '(' :: r) (hv : '(' ∉ v) : callNames t =
    (if (nameAtEnd (a ++ (name ++ v))).isEmpty then [] else [nameAtEnd (a ++ (name ++ v))]) ++
      callNames r := by
  have hu : '(' ∉ a ++ (name ++ v) := mt (h.mem_uptoBracket (.inl rfl)).mp hv
  rw [h.split_bracket hb, callNames_append_cons hu]

theorem callNames_of_not_isBlank (hb : b = v ++ '(' :: r) (hv : '(' ∉ v)
    (hdark : isBlank v = false) : callNames t = callNames b := by
  rw [h.callNames_eq hb hv, h.nameAtEnd_of_not_isBlank hdark hb, hb, callNames_append_cons hv]

/-- A bracket behind something else than blanks is left out for a type that calls the name only. -/
theorem not_left_out (htype : ∀ r, ¬ InType name b r) (hb : b = v ++ '(' :: r) (hv : '(' ∉ v)
    (hdark : isBlank v = false) : ¬ (nameAtEnd (a ++ (name ++ v)) = name ∧ '=' ∉ v) := by
  rintro ⟨hname, hequals⟩
  rw [h.nameAtEnd_of_not_isBlank hdark hb] at hname
  exact htype r ⟨v, hb, hv, hequals, hname⟩

theorem not_mem_of_not_mem (hmem : '(' ∉ b) : '(' ∉ t := by
  rw [h.split, ← List.append_assoc, List.mem_append, not_or]
  exact ⟨h.not_mem_front (.inl rfl), hmem⟩

/-- What the line calls is what is called behind the name, and the name itself where its parameters
follow at once. -/
theorem callNames_of_known (hletter : name.head? ≠ some '#') (hoff : SetOff a) :
    callNames t = (if (trimStart b).head? = some '(' then [name] else []) ++ callNames b := by
  by_cases hmem : '(' ∈ b
  · obtain ⟨v, r, hb, hv⟩ := List.eq_append_cons_of_mem hmem
    have hhead : (trimStart b).head? = some ((trimStart v).head?.getD '(') := by
      rw [hb]
      exact head?_trimStart_append (by decide) v r
    -- the bracket is that of the name exactly if only blanks stand between them
    cases hblank : isBlank v with
    | true =>
      have hend := (h.nameAtEnd_of_isBlank hblank).mpr ⟨hletter, hoff⟩
      obtain ⟨c, n, hname, -⟩ := h.isName
      have hopens : (trimStart b).head? = some '(' := by
        rw [hhead, trimStart_eq_nil_iff.mpr hblank]
        rfl
      rw [h.callNames_eq hb hv, hend, if_pos hopens, hb, callNames_append_cons hv,
        Text.nameAtEnd_of_isBlank hblank, hname]
      rfl
    | false =>
      rw [h.callNames_of_not_isBlank hb hv hblank, if_neg, List.nil_append]
      rw [hhead, Option.some_inj]
      cases hstart : trimStart v with
      | nil =>
        rw [trimStart_eq_nil_iff.mp hstart] at hblank
        cases hblank
      | cons c u =>
        rintro rfl
        have hsuffix : '(' :: u <:+ v := hstart ▸ List.dropWhile_suffix _
        exact hv (hsuffix.subset List.mem_cons_self)
  · have hnone : (trimStart b).head? ≠ some '(' := fun hhead =>
      hmem ((List.dropWhile_suffix _).subset (List.mem_of_mem_head? hhead))
    rw [if_neg hnone, callNames_of_not_mem (h.not_mem_of_not_mem hmem), callNames_of_not_mem hmem]
    rfl

theorem lineCalls_of_known (hknown : name.head? ≠ some '#' ∧ SetOff a)
    (htype : ∀ r, ¬ InType name b r) :
    lineCalls (some (String.ofList name)) t = keptNames (callNames b) := by
  by_cases hmem : '(' ∈ b
  · obtain ⟨v, r, hb, hv⟩ := List.eq_append_cons_of_mem hmem
    rw [h.lineCalls_eq hb hv]
    cases hblank : isBlank v with
    | true =>
      have hequals : '=' ∉ v := notMem_of_isBlank hblank (by decide)
      rw [if_pos ⟨(h.nameAtEnd_of_isBlank hblank).mpr hknown, hequals⟩, hb,
        callNames_append_cons hv, Text.nameAtEnd_of_isBlank hblank]
      rfl
    | false =>
      rw [if_neg (h.not_left_out htype hb hv hblank),
        h.callNames_of_not_isBlank hb hv hblank]
  · rw [lineCalls_of_not_mem (h.not_mem_of_not_mem hmem), callNames_of_not_mem hmem]
    rfl

theorem lineCalls_of_not_known (hknown : ¬ (name.head? ≠ some '#' ∧ SetOff a))
    (htype : ∀ r, ¬ InType name b r) :
    lineCalls (some (String.ofList name)) t = keptNames (callNames t) := by
  by_cases hmem : '(' ∈ b
  · obtain ⟨v, r, hb, hv⟩ := List.eq_append_cons_of_mem hmem
    rw [h.lineCalls_eq hb hv, if_neg]
    cases hblank : isBlank v with
    | true => exact fun hcond => hknown ((h.nameAtEnd_of_isBlank hblank).mp hcond.1)
    | false => exact h.not_left_out htype hb hv hblank
  · have hnone := h.not_mem_of_not_mem hmem
    rw [lineCalls_of_not_mem hnone, callNames_of_not_mem hnone]
    rfl

theorem lineCalls_of_inType (htype : InType name b r) :
    lineCalls (some (String.ofList name)) t = keptNames (callNames r) := by
  obtain ⟨v, hb, hv, hequals, hend⟩ := htype.split
  have hdark : isBlank v = false := by
    refine Bool.eq_false_iff.mpr fun hblank => ?_
    obtain ⟨c, n, hn, -⟩ := h.isName
    rw [Text.nameAtEnd_of_isBlank hblank, hn] at hend
    cases hend
  rw [h.lineCalls_eq hb hv, if_pos ⟨(h.nameAtEnd_of_not_isBlank hdark hb).trans hend, hequals⟩]

/-- What a line calls that declares a name. -/
theorem exists_searched : ∃ s, Searched name a b s ∧
    lineCalls (some (String.ofList name)) t = keptNames (callNames s) := by
  by_cases htype : ∃ r, InType name b r
  · obtain ⟨r, htype⟩ := htype
    exact ⟨r, .inType htype, h.lineCalls_of_inType htype⟩
  have htype : ∀ r, ¬ InType name b r := not_exists.mp htype
  by_cases hknown : name.head? ≠ some '#' ∧ SetOff a
  · exact ⟨b, .behind hknown.1 hknown.2 htype, h.lineCalls_of_known hknown htype⟩
  · refine ⟨_, .whole ?_ htype, ?_⟩
    · rwa [Classical.not_and_iff_not_or_not, Classical.not_not] at hknown
    · rw [h.lineCalls_of_not_known hknown htype, ← h.split]

end Declaring

end CodeAtlas.Analysis
