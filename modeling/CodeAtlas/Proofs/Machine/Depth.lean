/-
The accounts of a scan in 32 bits.

A scan keeps an account of the curly brackets outside classes, and each class that is open keeps
its own. An account begins at zero, takes up the brackets of lines that are passed and never falls
below zero. No line is passed twice, and a line holds no more brackets than characters. So at every
moment an account is at most the number of characters in the lines that were read
(`counted_of_reached`), and with the lines still to come it is at most the size of the file: no
handler can take it out of its range, whichever lines it takes up next.
-/
import CodeAtlas.Proofs.Machine.Nesting
import CodeAtlas.Proofs.Scan.Depth

set_option autoImplicit false

namespace CodeAtlas

/-- The account is not negative, and the first `i` lines have no fewer characters. -/
structure Within (file : List Line) (i : Nat) (depth : Int) : Prop where
  nonneg : 0 ≤ depth
  le : depth.natAbs ≤ sumOf List.length (file.take i)

variable {file : List Line} {i further : Nat} {depth : Int}

theorem within_zero (file : List Line) (i : Nat) : Within file i 0 := ⟨Int.le_refl 0, Nat.zero_le _⟩

theorem sumOf_take_add (file : List Line) (i k : Nat) :
    sumOf List.length (file.take (i + k)) =
      sumOf List.length (file.take i) + sumOf List.length ((file.drop i).take k) := by
  rw [List.take_add, sumOf_append]

/-- Lines that are passed without their brackets leave the account in its range. -/
theorem Within.pass (h : Within file i depth) (k : Nat) : Within file (i + k) depth where
  nonneg := h.nonneg
  le := by
    rw [sumOf_take_add]
    exact Nat.le_add_right_of_le h.le

/-- And so do lines whose brackets are taken up. -/
theorem Within.deepen (h : Within file i depth) (further : Nat) :
    Within file (i + further + 1) (max (depth + netDelta (window further (file.drop i))) 0) where
  nonneg := Int.le_max_right _ _
  le := by
    have hdepth := h.le
    have hnet := natAbs_netDelta_le (window further (file.drop i))
    rw [Nat.add_assoc, sumOf_take_add]
    rw [window] at hnet ⊢
    omega

namespace Machine

/-- In a file that fits an account in its range can take up any of the next lines. -/
theorem depthBehind?_of_within (h : Within file i depth) (hfile : sumOf List.length file < 2 ^ 31)
    (further : Nat) : depthBehind? depth (window further (file.drop i)) =
      some (max (depth + netDelta (window further (file.drop i))) 0) := by
  have hdepth := h.le
  have hread := sumOf_take_add file i (further + 1)
  have hall := sumOf_le_of_sublist List.length (List.take_sublist (i + (further + 1)) file)
  refine depthBehind?_eq ?_
  rw [window]
  omega

end Machine

namespace Brace

/-- The accounts of the scan and of the class that is open are in their ranges. -/
structure Counted (file : List Line) (m : Moment) : Prop where
  scan : Within file m.index m.scan.depth
  scope : ∀ c, m.scan.scope = some c → Within file m.index c.depth

variable {m : Moment} {s : Scan} {items : List Item}

theorem counted_of_scope_none (hscope : s.scope = none)
    (hdepth : Within file (m.index + further + 1) s.depth) :
    Counted file (m.follow (.done s items further)) :=
  ⟨hdepth, fun c hc => by simp [Moment.follow, hscope] at hc⟩

/-- A call outside classes takes up the brackets of the lines that it passes, or leaves them to
the class that it opens. -/
theorem OutsideCase.counted {step : Step}
    (h : OutsideCase m.scan m.index (file.drop m.index) step) (hscope : m.scan.scope = none)
    (hcounted : Counted file m) : Counted file (m.follow step) := by
  have hscan := hcounted.scan
  have hpass := hscan.pass 1
  cases h with
  | comment hcomment =>
    obtain ⟨-, hsame, hdepth⟩ := commentLine?_frame hcomment
    refine counted_of_scope_none (hsame.trans hscope) ?_
    rw [hdepth]
    exact hpass
  | blank => exact counted_of_scope_none hscope hpass
  | deep | decorator => exact counted_of_scope_none hscope (hscan.deepen 0)
  | declares => exact counted_of_scope_none hscope (hscan.deepen _)
  | classHead =>
    rw [openClass_eq]
    split
    · exact counted_of_scope_none hscope hpass
    · refine ⟨hpass, fun c hc => ?_⟩
      -- the account of a class begins with its own line
      obtain rfl := Option.some.inj hc
      have hline := (within_zero file m.index).deepen 0
      rwa [netDelta_window_zero, Int.zero_add] at hline

/-- A call inside a class takes up brackets for the class alone. -/
theorem InsideCase.counted {s' : Scan} {c c' : ClassScope}
    (h : InsideCase s c i (file.drop i) (s', c', further)) (hc : Within file i c.depth) :
    s'.depth = s.depth ∧ Within file (i + further + 1) c'.depth := by
  have hpass := hc.pass 1
  cases h with
  | comment _ hcomment => exact ⟨(commentLine?_frame hcomment).2.2, hpass⟩
  | closing | blank => exact ⟨rfl, hpass⟩
  | deep | decorator | nothing => exact ⟨rfl, hc.deepen 0⟩
  | method =>
    rw [ClassScope.addMethod_depth, deepen_depth]
    exact ⟨rfl, hc.deepen _⟩
  | property =>
    rw [deepen_depth, ClassScope.addProperty_depth]
    exact ⟨rfl, hc.deepen 0⟩

/-- At every moment of a scan its accounts are in their ranges. -/
theorem counted_of_reached {path : String} (h : Moment.Reached file (.start path .brace) m) :
    Counted file m := by
  induction h with
  | first => exact ⟨within_zero file 0, fun c hc => by simp [Moment.start] at hc⟩
  | @next m hreached hlt ih =>
    have hfamily := (sameFile_of_reached hreached).2
    cases hscope : m.scan.scope with
    | none =>
      obtain ⟨step, hcase, hnext⟩ := next_outside file hfamily hscope
      rw [hnext]
      exact hcase.counted hscope ih
    | some c =>
      obtain ⟨s', c', further, hcase, hnext⟩ := next_inside file hfamily hscope
      obtain ⟨hdepth, hclass⟩ := hcase.counted (ih.scope c hscope)
      have hscan := ih.scan.pass (further + 1)
      rw [← hdepth] at hscan
      rw [hnext]
      split
      · exact counted_of_scope_none rfl hscan
      · refine ⟨hscan, fun c'' hc => ?_⟩
        obtain rfl := Option.some.inj hc
        exact hclass

end Brace

end CodeAtlas
