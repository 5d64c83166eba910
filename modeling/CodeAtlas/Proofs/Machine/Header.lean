/-
Headers in 32 bits.

A header or a statement is joined from lines while a balance of brackets is open, and the balance
is counted anew for each text on the way. The lines of a file leave room for that: between two
lines stands a line break, and in a joined text at most one blank (`room`). So no joined text is
longer than the file.

What a recogniser cuts is a part of a joined text or of a line, or a piece of such a part.
`ListText` names the texts that are cut at all their outer commas and `EntryText` those that are
cut once; all are sublists of what they were taken from (`ListText.length_lt`), and so they are cut
exactly where they fit.
-/
import CodeAtlas.Proofs.Header.Parens
import CodeAtlas.Proofs.Machine.Nesting
import CodeAtlas.Proofs.Nesting.Cutting
import CodeAtlas.Proofs.Text.Bytes
import CodeAtlas.Scan.Build

set_option autoImplicit false

namespace CodeAtlas

/-! ## Room -/

/-- The characters of the lines, each with a line break behind it. -/
def room (ls : List Line) : Nat := sumOf (fun l => l.length + 1) ls

@[simp] theorem room_cons (l : Line) (ls : List Line) :
    room (l :: ls) = l.length + 1 + room ls := rfl

theorem room_append (ls ls' : List Line) : room (ls ++ ls') = room ls + room ls' :=
  sumOf_append _ ls ls'

theorem room_eq (ls : List Line) : room ls = sumOf List.length ls + ls.length := by
  induction ls with
  | nil => rfl
  | cons l ls ih =>
    rw [room_cons, ih, sumOf_cons, List.length_cons]
    omega

theorem sumOf_length_lt {ls : List Line} {n : Nat} (h : room ls ≤ n) (hn : 0 < n) :
    sumOf List.length ls < n := by
  rw [room_eq] at h
  cases ls with
  | nil => exact hn
  | cons l ls =>
    rw [List.length_cons] at h
    omega

theorem room_drop_le (n : Nat) (ls : List Line) : room (ls.drop n) ≤ room ls :=
  sumOf_le_of_sublist _ (List.drop_sublist n ls)

theorem length_trim_le (l : Line) : (Text.trim l).length ≤ l.length :=
  (Text.isInfix_trim l).length_le

/-- The first line, trimmed, leaves the room of the others. -/
theorem firstTrimmed_add_room_lt {ls : List Line} {n : Nat} (h : room ls ≤ n) (hn : 0 < n) :
    (firstTrimmed ls).length + room (ls.drop 1) < n := by
  cases ls with
  | nil => exact hn
  | cons l ls =>
    have htrim := length_trim_le l
    rw [room_cons] at h
    have hfirst : (firstTrimmed (l :: ls)).length = (Text.trim l).length := rfl
    rw [hfirst, List.drop_succ_cons, List.drop_zero]
    omega

theorem length_joinOpen_le (text : List Char) (n : Nat) (ls : List Line) :
    (joinOpen text n ls).text.length ≤ text.length + room ls := by
  induction ls generalizing text n with
  | nil => exact Nat.le_refl _
  | cons l ls ih =>
    have htrim := length_trim_le l
    rw [room_cons, joinOpen]
    split
    · refine (ih _ _).trans ?_
      simp only [List.length_append]
      split
      · rw [List.length_nil]
        omega
      · rw [List.length_singleton]
        omega
    · exact Nat.le_add_right _ _

theorem length_joinImport_le (text : List Char) (n : Nat) (ls : List Line) :
    (Brace.joinImport text n ls).length ≤ text.length + room ls := by
  induction ls generalizing text n with
  | nil => exact Nat.le_refl _
  | cons l ls ih =>
    have htrim := length_trim_le l
    rw [room_cons, Brace.joinImport]
    split
    · exact Nat.le_add_right _ _
    · refine (ih _ _).trans ?_
      simp only [List.length_append, List.length_cons]
      omega

/-! ## Joining -/

namespace Machine

/-- Adds lines to a text whose balance is open, with a gap in front of each. -/
def joinWhile? (balance? : List Char → Option Int) (gap : List Char → List Char → List Char)
    (text : List Char) (further : Nat) : List Line → Option Signature
  | [] => do
    let _ ← balance? text
    return ⟨text, further⟩
  | l :: ls => do
    let balance ← balance? text
    let next := Text.trim l
    if 0 < balance && further < maxLookahead then
      joinWhile? balance? gap (text ++ gap text next ++ next) (further + 1) ls
    else return ⟨text, further⟩

/-- A join with the same rule answers the same while the text and the lines fit. -/
theorem joinWhile?_eq {balance? : List Char → Option Int} {balance : List Char → Int}
    {gap : List Char → List Char → List Char} {join : List Char → Nat → List Line → Signature}
    (hbalance : ∀ t, t.length < 2 ^ 31 → balance? t = some (balance t))
    (hgap : ∀ t u, (gap t u).length ≤ 1) (hnil : ∀ t n, join t n [] = ⟨t, n⟩)
    (hcons : ∀ t n l ls, join t n (l :: ls) = if 0 < balance t && n < maxLookahead then
      join (t ++ gap t (Text.trim l) ++ Text.trim l) (n + 1) ls else ⟨t, n⟩)
    {text : List Char} {ls : List Line} (h : text.length + room ls < 2 ^ 31) (n : Nat) :
    joinWhile? balance? gap text n ls = some (join text n ls) := by
  induction ls generalizing text n with
  | nil =>
    rw [joinWhile?, hbalance text h, hnil]
    rfl
  | cons l ls ih =>
    have htrim := length_trim_le l
    have hone := hgap text (Text.trim l)
    rw [room_cons] at h
    have hfits : (text ++ gap text (Text.trim l) ++ Text.trim l).length + room ls < 2 ^ 31 := by
      simp only [List.length_append]
      omega
    have hrest := ih hfits (n + 1)
    rw [joinWhile?, hbalance text (by omega), hcons]
    simp only [Option.bind_eq_bind, Option.bind_some, hrest]
    split <;> rfl

def joinSignature? (ls : List Line) : Option Signature :=
  joinWhile? parenBalance?
    (fun text next => if text.getLast? = some '(' || next.head? = some ')' then [] else [' '])
    (Text.trim (ls.headD [])) 0 (ls.drop 1)

/-- Round and square brackets opened less closed, literals or not. -/
def openBrackets? (t : List Char) : Option Int :=
  addInts? (fun c =>
    some (if c = '(' || c = '[' then 1 else if c = ')' || c = ']' then -1 else 0)) 0 t

def joinBrackets? (ls : List Line) : Option Signature :=
  joinWhile? openBrackets? (fun _ _ => [' ']) (firstTrimmed ls) 0 (ls.drop 1)

theorem joinSignature?_eq {ls : List Line} (h : room ls ≤ 2 ^ 31) :
    joinSignature? ls = some (joinSignature ls) := by
  refine joinWhile?_eq (fun t ht => parenBalance?_eq ht) (fun t u => ?_) (fun _ _ => rfl)
    (fun _ _ _ _ => rfl) (firstTrimmed_add_room_lt h (by decide)) 0
  split <;> decide

theorem openBrackets?_eq {t : List Char} (h : t.length < 2 ^ 31) :
    openBrackets? t = some (Indent.openBrackets t) := by
  have hsizes : sumOf (fun c => (if c = '(' || c = '[' then 1
      else if c = ')' || c = ']' then -1 else 0 : Int).natAbs) t ≤ t.length := by
    refine sumOf_le_length fun c _ => ?_
    split
    · decide
    · split <;> decide
  have hfits : (0 : Int).natAbs + sumOf (fun c => (if c = '(' || c = '[' then 1
      else if c = ')' || c = ']' then -1 else 0 : Int).natAbs) t < 2 ^ 31 := by
    rw [Int.natAbs_zero, Nat.zero_add]
    exact Nat.lt_of_le_of_lt hsizes h
  have hsum := addInts?_eq (fun c _ => rfl) hfits
  rwa [Int.zero_add] at hsum

theorem joinBrackets?_eq {ls : List Line} (h : room ls ≤ 2 ^ 31) :
    joinBrackets? ls = some (Indent.joinBrackets ls) := by
  refine joinWhile?_eq (fun t ht => openBrackets?_eq ht) (fun t u => Nat.le_refl _)
    (fun _ _ => rfl) (fun t n l ls => ?_) (firstTrimmed_add_room_lt h (by decide)) 0
  rw [Indent.joinBracketsFrom, List.append_assoc, List.singleton_append]

end Machine

/-! ## What is cut -/

/-- The texts of headers on the lines that are cut at their outer commas: parameters, types and the
clauses of imports. -/
inductive ListText (ls : List Line) : List Char → Prop
  | params {header : Pattern} {m : Match} {inner rest : List Char} :
      header ∈ [Brace.functionHeader, Brace.arrowHeader, Brace.methodHeader, Indent.defHeader] →
      header.match? (joinSignature ls).text = some m →
      takeGroup? ('(' :: m.rest) = some (inner, rest) → ListText ls inner
  | memberParams {m : Match} {inner rest : List Char} :
      Brace.interfaceMethod.match? (firstTrimmed ls) = some m →
      takeGroup? ('(' :: m.rest) = some (inner, rest) → ListText ls inner
  | types {header : Pattern} {m : Match} {s : Slot} {t : List Char} :
      header ∈ [Brace.classHeader, Brace.interfaceHeader, Indent.classHeader] →
      header.match? (firstTrimmed ls) = some m → m.part? s = some t → ListText ls t
  | imported {m : Match} :
      Brace.importFrom.match? (Brace.joinImport (firstTrimmed ls) 0 (ls.drop 1)) = some m →
      ListText ls (m.part .clause)

/-- The parameters that are cut at an equals sign, and what is cut at a colon then. -/
inductive EntryText (ls : List Line) : List Char → Prop
  | param {t raw : List Char} : ListText ls t → raw ∈ splitOuter ',' t →
      EntryText ls (Brace.dropDots (Brace.dropModifiers (Text.trim raw)))
  | head {t : List Char} : EntryText ls t → EntryText ls (Brace.headAndRest '=' t).1
  | defParam {t raw : List Char} : ListText ls t → raw ∈ splitOuter ',' t →
      EntryText ls ((Text.trim raw).dropWhile (· = '*'))

theorem Brace.dropModifiers_suffix (t : List Char) : Brace.dropModifiers t <:+ t := by
  fun_induction Brace.dropModifiers t with
  | case1 t r h ih =>
    obtain ⟨word, -, hafter⟩ := List.exists_of_findSome?_eq_some h
    have hbehind : r <:+ t := ⟨_, (Text.after?_eq_some_iff.mp hafter).symm⟩
    exact ih.trans ((List.dropWhile_suffix _).trans hbehind)
  | case2 => exact List.suffix_rfl

theorem Brace.dropDots_suffix (t : List Char) : Brace.dropDots t <:+ t := by
  fun_induction Brace.dropDots t with
  | case1 t ih => exact ih.trans ⟨['.', '.', '.'], rfl⟩
  | case2 => exact List.suffix_rfl

theorem Brace.headAndRest_infix (sep : Char) (t : List Char) :
    (Brace.headAndRest sep t).1 <:+: t := by
  unfold Brace.headAndRest
  split
  · rename_i head rest hcut
    have hprefix : head <+: t := ⟨sep :: rest, (append_of_cutOuter? hcut).symm⟩
    exact (Text.isInfix_trim head).trans hprefix.isInfix
  · exact List.infix_rfl

theorem part?_infix_of_match? {p : Pattern} {t u : List Char} {m : Match} {s : Slot}
    (h : p.match? t = some m) (hpart : m.part? s = some u) : u <:+: t := by
  have hinfix := Pattern.part_infix_of_match? h s
  rwa [Match.part, hpart, Option.getD_some] at hinfix

/-- The inside of a group behind a match is a part of the text. -/
theorem inner_infix_of_match? {p : Pattern} {t inner rest : List Char} {m : Match}
    (h : p.match? t = some m) (hgroup : takeGroup? ('(' :: m.rest) = some (inner, rest)) :
    inner <:+: t := by
  obtain ⟨front, hfront⟩ := Pattern.exists_append_rest_of_match? h
  obtain ⟨-, hinner⟩ := List.cons.inj (append_of_takeGroup? hgroup)
  refine ⟨front, ')' :: rest, ?_⟩
  rw [hfront, hinner, List.append_assoc]
  rfl

/-- A text that is cut has fewer characters than the room of its lines. -/
theorem ListText.length_lt {ls : List Line} {t : List Char} {n : Nat} (h : ListText ls t)
    (hroom : room ls ≤ n) (hn : 0 < n) : t.length < n := by
  have hlines := firstTrimmed_add_room_lt hroom hn
  have hfirst : (firstTrimmed ls).length < n := by omega
  have hjoined : (joinSignature ls).text.length < n :=
    Nat.lt_of_le_of_lt (length_joinOpen_le _ _ _) hlines
  have himport : (Brace.joinImport (firstTrimmed ls) 0 (ls.drop 1)).length < n :=
    Nat.lt_of_le_of_lt (length_joinImport_le _ _ _) hlines
  cases h with
  | params _ hmatch hgroup =>
    exact Nat.lt_of_le_of_lt (inner_infix_of_match? hmatch hgroup).length_le hjoined
  | memberParams hmatch hgroup =>
    exact Nat.lt_of_le_of_lt (inner_infix_of_match? hmatch hgroup).length_le hfirst
  | types _ hmatch hpart =>
    exact Nat.lt_of_le_of_lt (part?_infix_of_match? hmatch hpart).length_le hfirst
  | imported hmatch =>
    exact Nat.lt_of_le_of_lt (Pattern.part_infix_of_match? hmatch .clause).length_le himport

theorem EntryText.length_lt {ls : List Line} {t : List Char} {n : Nat} (h : EntryText ls t)
    (hroom : room ls ≤ n) (hn : 0 < n) : t.length < n := by
  have hpiece : ∀ {u raw : List Char}, ListText ls u → raw ∈ splitOuter ',' u →
      (Text.trim raw).length < n := by
    intro u raw hu hraw
    have hle := (sublist_of_mem_splitOuter hraw).length_le
    have hlt := hu.length_lt hroom hn
    have htrim := length_trim_le raw
    omega
  induction h with
  | @param _ raw hlist hraw =>
    have hsuffix := (Brace.dropDots_suffix _).trans (Brace.dropModifiers_suffix (Text.trim raw))
    exact Nat.lt_of_le_of_lt hsuffix.length_le (hpiece hlist hraw)
  | head _ ih => exact Nat.lt_of_le_of_lt (Brace.headAndRest_infix _ _).length_le ih
  | defParam hlist hraw =>
    exact Nat.lt_of_le_of_lt (List.dropWhile_suffix _).length_le (hpiece hlist hraw)

end CodeAtlas
