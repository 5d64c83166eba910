/-
Sums and depths in 32 bits.

Counts and depths are kept in numbers of 32 bits, with a sign or without. Here every addition is
checked: `int?` and `word?` answer only where a number fits, and a checked sum answers only if all
of its partial sums do. Signs may change on the way, so what bounds the partial sums is the sum of
the sizes: while that fits, the checked sum is the exact one (`addInts?_eq`, `addWords?_eq`).

The counters of brackets and the cutters at the outer level, with each change of a depth checked,
read as the exact ones do, and give up where a depth does not fit. One character changes a depth
by at most one. So from a depth whose size and the length of the text fit together, no depth on
the way can be too large, and the checked counter or cutter answers what the exact one does.
-/
import CodeAtlas.Extent
import CodeAtlas.Nesting.Split
import CodeAtlas.Sum
import Mathlib.Algebra.Group.Int.Defs
import Mathlib.Algebra.Group.Nat.Defs
import Mathlib.Data.List.Basic

set_option autoImplicit false

namespace CodeAtlas

namespace Machine

/-! ## Numbers of 32 bits -/

/-- The number, if it fits into 32 bits with a sign. -/
def int? (n : Int) : Option Int := if -2 ^ 31 ≤ n ∧ n < 2 ^ 31 then some n else none

/-- The number, if it fits into 32 bits without a sign. -/
def word? (n : Nat) : Option Nat := if n < 2 ^ 32 then some n else none

theorem int?_of_natAbs {n : Int} (h : n.natAbs < 2 ^ 31) : int? n = some n :=
  if_pos (by omega)

theorem word?_of_lt {n : Nat} (h : n < 2 ^ 32) : word? n = some n := if_pos h

/-! ## Checked sums -/

section

variable {α : Type}

/-- Adds up what the members count, from the left. -/
def addInts? (value? : α → Option Int) (n : Int) : List α → Option Int
  | [] => some n
  | x :: xs => do addInts? value? (← int? (n + (← value? x))) xs

def addWords? (value? : α → Option Nat) (n : Nat) : List α → Option Nat
  | [] => some n
  | x :: xs => do addWords? value? (← word? (n + (← value? x))) xs

theorem addInts?_eq {value? : α → Option Int} {value : α → Int} {xs : List α} {n : Int}
    (hvalue : ∀ x ∈ xs, value? x = some (value x))
    (h : n.natAbs + sumOf (fun x => (value x).natAbs) xs < 2 ^ 31) :
    addInts? value? n xs = some (n + sumOf value xs) := by
  induction xs generalizing n with
  | nil => rw [addInts?, sumOf_nil, Int.add_zero]
  | cons x xs ih =>
    obtain ⟨hx, hxs⟩ := List.forall_mem_cons.mp hvalue
    rw [sumOf_cons] at h
    have hfits : int? (n + value x) = some (n + value x) := int?_of_natAbs (by omega)
    have hrest := ih (n := n + value x) hxs (by omega)
    simp only [addInts?, hx, hfits, Option.bind_eq_bind, Option.bind_some, hrest, sumOf_cons,
      Int.add_assoc]

theorem addWords?_eq {value? : α → Option Nat} {value : α → Nat} {xs : List α} {n : Nat}
    (hvalue : ∀ x ∈ xs, value? x = some (value x)) (h : n + sumOf value xs < 2 ^ 32) :
    addWords? value? n xs = some (n + sumOf value xs) := by
  induction xs generalizing n with
  | nil => rw [addWords?, sumOf_nil, Nat.add_zero]
  | cons x xs ih =>
    obtain ⟨hx, hxs⟩ := List.forall_mem_cons.mp hvalue
    rw [sumOf_cons] at h
    have hfits : word? (n + value x) = some (n + value x) := word?_of_lt (by omega)
    have hrest := ih (n := n + value x) hxs (by omega)
    simp only [addWords?, hx, hfits, Option.bind_eq_bind, Option.bind_some, hrest, sumOf_cons,
      Nat.add_assoc]

end

end Machine

/-! ## What one character changes -/

theorem natAbs_parenValue_le (c : Char) : (parenValue c).natAbs ≤ 1 := by
  unfold parenValue
  split
  · decide
  · split <;> decide

theorem natAbs_bracketValue_le (prev c : Char) : (bracketValue prev c).natAbs ≤ 1 := by
  unfold bracketValue
  split
  · decide
  · split
    · decide
    · split <;> decide

theorem BraceCount.add_le (n : BraceCount) (c : Char) :
    (n.add c).opens + (n.add c).closes ≤ n.opens + n.closes + 1 := by
  unfold BraceCount.add
  split
  · simp only
    omega
  · split
    · simp only
      omega
    · omega

theorem braceCountFrom_le (st : Quoting) (t : List Char) :
    (braceCountFrom st t).opens + (braceCountFrom st t).closes ≤ t.length := by
  fun_induction braceCountFrom st t with
  | case1 | case2 => exact Nat.zero_le _
  | case3 c t _ ih =>
    have hadd := (braceCountFrom (Quoting.code.next c) t).add_le c
    rw [List.length_cons]
    omega
  | case4 st c t _ ih =>
    rw [List.length_cons]
    omega

/-- Of a line of a file no more curly brackets are counted than it has characters. -/
theorem braceCount_le (l : Line) : (braceCount l).opens + (braceCount l).closes ≤ l.length :=
  braceCountFrom_le .code l

theorem natAbs_braceDelta_le (l : Line) : (braceDelta l).natAbs ≤ l.length := by
  have hcount := braceCount_le l
  unfold braceDelta BraceCount.delta
  omega

theorem natAbs_netDelta_le (ls : List Line) : (netDelta ls).natAbs ≤ sumOf List.length ls := by
  induction ls with
  | nil => exact Nat.le_refl _
  | cons l ls ih =>
    have hline := natAbs_braceDelta_le l
    rw [netDelta] at ih
    rw [netDelta, sumOf_cons, sumOf_cons]
    omega

namespace Machine

/-! ## Curly brackets -/

/-- The curly brackets opened less closed on a line; each of the two numbers must fit. -/
def braceDelta? (l : Line) : Option Int := do
  int? ((← int? (braceCount l).opens) - (← int? (braceCount l).closes))

def netDelta? (ls : List Line) : Option Int := addInts? braceDelta? 0 ls

/-- The depth behind the lines, which never falls below zero. -/
def depthBehind? (depth : Int) (ls : List Line) : Option Int := do
  return max (← int? (depth + (← netDelta? ls))) 0

theorem braceDelta?_eq {l : Line} (h : l.length < 2 ^ 31) :
    braceDelta? l = some (braceDelta l) := by
  have hcount := braceCount_le l
  have hopens : int? (braceCount l).opens = some (braceCount l).opens := int?_of_natAbs (by omega)
  have hcloses : int? (braceCount l).closes = some (braceCount l).closes :=
    int?_of_natAbs (by omega)
  have hdelta : int? (braceDelta l) = some (braceDelta l) :=
    int?_of_natAbs (Nat.lt_of_le_of_lt (natAbs_braceDelta_le l) h)
  simp only [braceDelta?, hopens, hcloses, Option.bind_eq_bind, Option.bind_some]
  exact hdelta

theorem sumOf_natAbs_braceDelta_le (ls : List Line) :
    sumOf (fun l => (braceDelta l).natAbs) ls ≤ sumOf List.length ls :=
  sumOf_le_sumOf fun l _ => natAbs_braceDelta_le l

theorem netDelta?_eq {ls : List Line} (h : sumOf List.length ls < 2 ^ 31) :
    netDelta? ls = some (netDelta ls) := by
  have hvalue : ∀ l ∈ ls, braceDelta? l = some (braceDelta l) := by
    intro l hl
    have hle := sumOf_le_of_sublist List.length (List.singleton_sublist.mpr hl)
    rw [sumOf_cons, sumOf_nil] at hle
    exact braceDelta?_eq (by omega)
  have hsizes : (0 : Int).natAbs + sumOf (fun l => (braceDelta l).natAbs) ls < 2 ^ 31 := by
    rw [Int.natAbs_zero, Nat.zero_add]
    exact Nat.lt_of_le_of_lt (sumOf_natAbs_braceDelta_le ls) h
  have hsum := addInts?_eq hvalue hsizes
  rwa [Int.zero_add] at hsum

theorem depthBehind?_eq {depth : Int} {ls : List Line}
    (h : depth.natAbs + sumOf List.length ls < 2 ^ 31) :
    depthBehind? depth ls = some (max (depth + netDelta ls) 0) := by
  have hnet : netDelta? ls = some (netDelta ls) := netDelta?_eq (by omega)
  have hsize := natAbs_netDelta_le ls
  have hfits : int? (depth + netDelta ls) = some (depth + netDelta ls) :=
    int?_of_natAbs (by omega)
  simp only [depthBehind?, hnet, hfits, Option.bind_eq_bind, Option.bind_some]
  rfl

/-! ## Round brackets -/

def parenBalanceFrom? : Quoting → Int → List Char → Option Int
  | _, n, [] => some n
  | .code, n, c :: t => do
    parenBalanceFrom? (Quoting.code.next c) (← int? (n + parenValue c)) t
  | st, n, c :: t => parenBalanceFrom? (st.next c) n t

def parenBalance? (t : List Char) : Option Int := parenBalanceFrom? .code 0 t

theorem parenBalanceFrom?_eq {st : Quoting} {n : Int} {t : List Char}
    (h : n.natAbs + t.length < 2 ^ 31) :
    parenBalanceFrom? st n t = some (n + parenBalanceFrom st t) := by
  induction t generalizing st n with
  | nil => simp [parenBalanceFrom?, parenBalanceFrom]
  | cons c t ih =>
    rw [List.length_cons] at h
    cases st with
    | code =>
      have hvalue := natAbs_parenValue_le c
      have hfits : int? (n + parenValue c) = some (n + parenValue c) := int?_of_natAbs (by omega)
      have hrest : parenBalanceFrom? (Quoting.code.next c) (n + parenValue c) t =
          some (n + parenValue c + parenBalanceFrom (Quoting.code.next c) t) := ih (by omega)
      simp only [parenBalanceFrom?, hfits, Option.bind_eq_bind, Option.bind_some, hrest,
        parenBalanceFrom, Int.add_assoc]
    | literal q | escape q => exact ih (by omega)

theorem parenBalance?_eq {t : List Char} (h : t.length < 2 ^ 31) :
    parenBalance? t = some (parenBalance t) := by
  have hbalance : parenBalanceFrom? .code 0 t = some (0 + parenBalanceFrom .code t) :=
    parenBalanceFrom?_eq (by rw [Int.natAbs_zero]; omega)
  rwa [Int.zero_add] at hbalance

/-! ## All pieces -/

/-- The state behind one more character, if its depth fits. -/
def push? (s : SplitState) (c : Char) : Option SplitState :=
  (int? (s.push c).depth).map fun _ => s.push c

def outerPieces? (sep : Char) : SplitState → List Char → Option (List (List Char))
  | s, [] => some [s.piece.reverse]
  | s, c :: t =>
    if s.ends sep c then (outerPieces? sep (s.cut c) t).map (s.piece.reverse :: ·)
    else do outerPieces? sep (← push? s c) t

def splitOuter? (sep : Char) (t : List Char) : Option (List (List Char)) :=
  (outerPieces? sep .start t).map fun pieces =>
    (pieces.map Text.trim).filter (fun piece => !piece.isEmpty)

theorem natAbs_depth_push_le (s : SplitState) (c : Char) :
    (s.push c).depth.natAbs ≤ s.depth.natAbs + 1 := by
  have hvalue := natAbs_bracketValue_le s.prev c
  unfold SplitState.push
  split
  · exact Nat.le_succ _
  · split
    · exact Nat.le_succ _
    · simp only
      omega

theorem outerPieces?_eq (sep : Char) {s : SplitState} {t : List Char}
    (h : s.depth.natAbs + t.length < 2 ^ 31) :
    outerPieces? sep s t = some (outerPieces sep s t) := by
  induction t generalizing s with
  | nil => rfl
  | cons c t ih =>
    rw [List.length_cons] at h
    rw [outerPieces?, outerPieces]
    split
    · have hrest := ih (s := s.cut c) (by simp only [SplitState.cut]; omega)
      rw [hrest, Option.map_some]
    · have hdepth := natAbs_depth_push_le s c
      have hpush : push? s c = some (s.push c) := by
        rw [push?, int?_of_natAbs (by omega), Option.map_some]
      rw [hpush, Option.bind_eq_bind, Option.bind_some, ih (by omega)]

/-- A text that fits is cut into the same pieces. -/
theorem splitOuter?_eq (sep : Char) {t : List Char} (h : t.length < 2 ^ 31) :
    splitOuter? sep t = some (splitOuter sep t) := by
  have hpieces := outerPieces?_eq sep (s := .start) (t := t)
    (by simp only [SplitState.start, Int.natAbs_zero]; omega)
  rw [splitOuter?, hpieces, Option.map_some, splitOuter]

/-! ## The first cut -/

/-- The inner answer is that of the cutter, the outer one says that all depths did fit. -/
def cutOuterFrom?? (separates : Option Char → Char → List Char → Bool) :
    Quoting → Int → Option Char → List Char → Option (Option (List Char × List Char))
  | _, _, _, [] => some none
  | .code, depth, prev, c :: t =>
    if Quoting.isQuote c then
      (cutOuterFrom?? separates (.literal c) depth (some c) t).map
        (·.map fun (l, r) => (c :: l, r))
    else do
      let depth ← int? (depth + bracketValue (prev.getD '\x00') c)
      if depth ≤ 0 && separates prev c t then some (some ([], c :: t))
      else
        (cutOuterFrom?? separates .code depth (some c) t).map (·.map fun (l, r) => (c :: l, r))
  | st, depth, _, c :: t =>
    (cutOuterFrom?? separates (st.next c) depth (some c) t).map (·.map fun (l, r) => (c :: l, r))

def cutOuter?? (sep : Char) (t : List Char) : Option (Option (List Char × List Char)) :=
  (cutOuterFrom?? (fun prev c rest => c = sep && standsAlone sep prev rest) .code 0 none t).map
    (·.map fun (l, r) => (l, r.drop 1))

theorem cutOuterFrom??_eq (separates : Option Char → Char → List Char → Bool) {st : Quoting}
    {depth : Int} {prev : Option Char} {t : List Char} (h : depth.natAbs + t.length < 2 ^ 31) :
    cutOuterFrom?? separates st depth prev t = some (cutOuterFrom? separates st depth prev t) := by
  induction t generalizing st depth prev with
  | nil => cases st <;> rfl
  | cons c t ih =>
    rw [List.length_cons] at h
    cases st with
    | code =>
      have hvalue := natAbs_bracketValue_le (prev.getD '\x00') c
      have hfits := int?_of_natAbs (n := depth + bracketValue (prev.getD '\x00') c) (by omega)
      rw [cutOuterFrom??, cutOuterFrom?]
      split
      · rw [ih (by omega), Option.map_some]
      · simp only [hfits, Option.bind_eq_bind, Option.bind_some]
        split
        · rfl
        · rw [ih (by omega), Option.map_some]
    | literal q | escape q =>
      rw [cutOuterFrom??, cutOuterFrom?, ih (by omega), Option.map_some]
      · simp
      · simp

/-- A text that fits is cut at the same place. -/
theorem cutOuter??_eq (sep : Char) {t : List Char} (h : t.length < 2 ^ 31) :
    cutOuter?? sep t = some (cutOuter? sep t) := by
  rw [cutOuter??, cutOuterFrom??_eq _ (by rw [Int.natAbs_zero]; omega), Option.map_some, cutOuter?]

end Machine

end CodeAtlas
