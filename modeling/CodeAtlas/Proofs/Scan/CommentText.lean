/-
What the text of a comment can change.

A block comment that stands on lines of its own is read twice, in two ways. The handlers take
its lines for comment text and look only for its end. The readers of blocks take them for lines
like any others and weigh them, so a curly bracket in the text moves the end of the class or the
function around it (`cutShort_byComment`).

A block ends where its curly brackets balance, so of a line its readers see the brackets, and
whether it ends in a semicolon, which ends a declaration that opens none. That is the weight of
the line. Lines of the same weights make the same blocks, whatever else stands on them; the
weight does not ask whether a line stands in a comment.

Where the comment is set apart from the code around it (`SetApart`), the text changes no name, no
line and no line count (`sameSkeleton_of_commentText`): the scans of the two files run side by
side, in alike states. In front of the comment what is read declares the same and reaches as far
with either text, for which lines of the same weights are enough where only blocks reach over the
comment (`setApart_of_weight`); behind it the lines are the same. On the comment itself the
invariant is that the scan is inside of a comment from its second line on; it is why nothing may
end between its lines, for the scan would go on there and take text for code.
-/
import CodeAtlas.Scan.Brace
import CodeAtlas.Proofs.Scan.Alike
import CodeAtlas.Proofs.Text.Lines

set_option autoImplicit false

namespace CodeAtlas

/-! ## What the readers of blocks see of a line -/

section

structure Weight where
  braces : BraceCount
  semicolon : Bool
  deriving DecidableEq, Repr

def weight (l : Line) : Weight := ⟨braceCount l, endsIn ';' l⟩

variable {ls ls' : List Line}

theorem weight_headD (h : ls.map weight = ls'.map weight) :
    weight (ls.headD []) = weight (ls'.headD []) := by
  have hhead (ls : List Line) : weight (ls.headD []) = (ls.map weight).headD (weight []) := by
    cases ls <;> rfl
  rw [hhead, hhead, h]

theorem weight_drop (h : ls.map weight = ls'.map weight) (n : Nat) :
    (ls.drop n).map weight = (ls'.drop n).map weight := by
  rw [List.map_drop, List.map_drop, h]

theorem netDelta_of_weight (h : ls.map weight = ls'.map weight) : netDelta ls = netDelta ls' := by
  have hsum (ls : List Line) : netDelta ls = sumOf (·.braces.delta) (ls.map weight) :=
    (sumOf_map (fun w : Weight => w.braces.delta) weight ls).symm
  rw [hsum, hsum, h]

theorem braceExtentFrom_of_weight (opened : Bool) (balance : Int) (read : Nat)
    (h : ls.map weight = ls'.map weight) :
    braceExtentFrom opened balance read ls = braceExtentFrom opened balance read ls' := by
  induction ls generalizing ls' opened balance read with
  | nil =>
    rw [List.map_nil, eq_comm, List.map_eq_nil_iff] at h
    rw [h]
  | cons l ls ih =>
    cases ls' with
    | nil => cases h
    | cons l' ls' =>
      obtain ⟨hfirst, hrest⟩ := List.cons.inj h
      have hbraces : braceCount l = braceCount l' := congrArg Weight.braces hfirst
      have hsemicolon : endsIn ';' l = endsIn ';' l' := congrArg Weight.semicolon hfirst
      rw [braceExtentFrom, braceExtentFrom]
      simp only [hbraces, hsemicolon, fun o b r => ih o b r hrest]

theorem braceExtent_of_weight (h : ls.map weight = ls'.map weight) :
    braceExtent ls = braceExtent ls' :=
  braceExtentFrom_of_weight false 0 0 h

theorem blockExtent_of_weight (h : ls.map weight = ls'.map weight) (further : Nat) :
    Brace.blockExtent further ls = Brace.blockExtent further ls' := by
  have hlast := congrArg Weight.braces (weight_headD (weight_drop h further))
  simp only [weight] at hlast
  rw [Brace.blockExtent, Brace.blockExtent, hlast, braceExtent_of_weight h]

end

/-! ## Side by side -/

structure Moment.Alike (m m' : Moment) : Prop where
  scan : m.scan.Alike m'.scan
  index : m.index = m'.index
  items : m.items.map Item.skeleton = m'.items.map Item.skeleton

/-- The last of the calls is made where the others have led. -/
theorem Moment.after_succ (file : List Line) (calls : Nat) (m : Moment) :
    after file (calls + 1) m =
      if (after file calls m).index < file.length then (after file calls m).next file
      else after file calls m := by
  induction calls generalizing m with
  | zero => rfl
  | succ calls ih =>
    rw [after]
    by_cases hlt : m.index < file.length
    · rw [if_pos hlt, ih, after, if_pos hlt]
    · have hstay : after file (calls + 1) m = m := by rw [after, if_neg hlt]
      rw [if_neg hlt, hstay, if_neg hlt]

/-- A moment of a loop comes after some number of calls, and of no more than there are to do. -/
theorem Moment.Reached.exists_after {file : List Line} {first m : Moment}
    (h : Reached file first m) : ∃ calls ≤ first.toDo file, m = after file calls first := by
  induction h with
  | first => exact ⟨0, Nat.zero_le _, rfl⟩
  | next hreached hlt ih =>
    obtain ⟨calls, hle, rfl⟩ := ih
    refine ⟨calls + 1, ?_, by rw [after_succ, if_pos hlt]⟩
    by_contra hmore
    have hend : file.length ≤ (after file calls first).index :=
      length_le_index_after calls (by omega)
    omega

namespace Brace

variable {file file' : List Line} {m m' : Moment} {step step' : Step}

theorem follow_alike (h : m.Alike m') (hstep : Step.Alike step step') :
    (m.follow step).Alike (m'.follow step') := by
  cases hstep with
  | done further hs hitems =>
    exact {
      scan := hs
      index := by simp only [Moment.follow, h.index]
      items := by simp only [Moment.follow, List.map_append, h.items, hitems] }

/-- A call on lines that are read alike. -/
theorem next_alike (h : m.Alike m')
    (hfirst : (file.drop m.index).headD [] = (file'.drop m.index).headD [])
    (hread : ReadAlike (file.drop m.index) (file'.drop m.index))
    (hbalance : Does (Balanced (file.drop m.index) (file'.drop m.index))
      (m.scan.step m.index (file.drop m.index))) :
    (m.next file).Alike (m'.next file') := by
  have hscope := h.scan.scope
  generalize hleft : m.scan.scope = left at hscope
  generalize hright : m'.scan.scope = right at hscope
  cases hscope with
  | none =>
    simp only [Scan.step, hleft, Scan.outsideStep, h.scan.left.family] at hbalance
    rw [next_eq_of_outside h.scan.left.family hleft,
      next_eq_of_outside h.scan.right.family hright, ← h.index]
    exact follow_alike h (outsideStep_alike h.scan hfirst hread m.index hbalance)
  | some hc =>
    simp only [Scan.step, hleft, Scan.insideStep, h.scan.left.family] at hbalance
    rw [next_eq_of_inside h.scan.left.family hleft,
      next_eq_of_inside h.scan.right.family hright, ← h.index]
    exact follow_alike h (insideStep_alike h.scan hc hfirst hread m.index hbalance)

/-! ## On the comment -/

/-- On a comment line a class goes on as it is, its last line included if that is read inside
of a comment. -/
theorem insideLine_comment {s s₁ : Scan} {c : ClassScope} {at_ : Nat} {ls : List Line}
    (hcomment : commentLine? s (firstTrimmed ls) = some s₁) :
    insideLine s c at_ ls = if c.stop ≤ at_ then (s, c, 0) else (s₁, c, 0) := by
  unfold insideLine
  simp only [hcomment]

/-- A call on lines of two comments: each scan is inside of one, or both comments begin. -/
theorem comment_alike (file file' : List Line) (h : m.Alike m')
    (hcloses : DocBuffer.closes (firstTrimmed (file.drop m.index)) =
      DocBuffer.closes (firstTrimmed (file'.drop m.index)))
    (hmark : m.scan.inside = true ∨
      (Text.starts "/*" (firstTrimmed (file.drop m.index)) = true ∧
        Text.starts "/*" (firstTrimmed (file'.drop m.index)) = true))
    (hstop : ∀ c ∈ m.scan.scope, c.stop ≤ m.index → m.scan.inside = true) :
    (m.next file).Alike (m'.next file') ∧ (m.next file).index = m.index + 1 ∧
      (DocBuffer.closes (firstTrimmed (file.drop m.index)) = false →
        (m.next file).scan.inside = true) := by
  -- both lines are comment lines, and leave alike states behind
  have hleft : m.scan.inside = true ∨ Text.starts "/*" (firstTrimmed (file.drop m.index)) = true :=
    hmark.imp_right And.left
  obtain ⟨s₁, hs₁⟩ := exists_commentLine? m.scan _ hleft
  have hpassed := passed_of_commentLine? h.scan.left hs₁ hleft
  have hline := commentLine?_alike h.scan hcloses (.inr hmark)
  rw [hs₁] at hline
  generalize hs₂ : commentLine? m'.scan (firstTrimmed (file'.drop m.index)) = right at hline
  cases hline with
  | @some _ s₂ halike =>
    have hscope := h.scan.scope
    generalize hscope₁ : m.scan.scope = left at hscope hstop
    generalize hscope₂ : m'.scan.scope = right at hscope
    cases hscope with
    | none =>
      rw [next_eq_of_outside h.scan.left.family hscope₁,
        next_eq_of_outside h.scan.right.family hscope₂, ← h.index]
      simp only [outsideStep, hs₁, hs₂]
      refine ⟨follow_alike h (.done 0 halike rfl), rfl, fun hopen => ?_⟩
      simp only [Moment.follow, hpassed.inside, hopen, Bool.not_false]
    | @some c c' hc =>
      rw [next_eq_of_inside h.scan.left.family hscope₁,
        next_eq_of_inside h.scan.right.family hscope₂,
        ← h.index, insideStep_eq, insideStep_eq, insideLine_comment hs₁, insideLine_comment hs₂,
        ← hc.stop]
      -- the last line of a class is passed unread, so that only the bound keeps a comment open over
      -- it
      by_cases hlast : c.stop ≤ m.index
      · rw [if_pos hlast, if_pos hlast]
        have hline : LineAlike (m.scan, c, 0) (m'.scan, c', 0) := ⟨h.scan, hc, rfl⟩
        have hend := endLine_alike hline m.index
        refine ⟨follow_alike h hend, ?_, fun _ => ?_⟩
        · split <;> rfl
        · have hin := hstop c rfl hlast
          split <;> exact hin
      · rw [if_neg hlast, if_neg hlast]
        have hline : LineAlike (s₁, c, 0) (s₂, c', 0) := ⟨halike, hc, rfl⟩
        have hend := endLine_alike hline m.index
        refine ⟨follow_alike h hend, ?_, fun hopen => ?_⟩
        · split <;> rfl
        · have hin : s₁.inside = true := by rw [hpassed.inside, hopen, Bool.not_false]
          split <;> exact hin

/-- The lines of a block comment: the first one begins it, and the last one alone ends it. -/
structure IsBlock (comment : List Line) : Prop where
  begins : Text.starts "/*" (firstTrimmed comment) = true
  ends : ∀ k < comment.length, DocBuffer.closes (firstTrimmed (comment.drop k)) =
    decide (k + 1 = comment.length)

instance (comment : List Line) : Decidable (IsBlock comment) :=
  decidable_of_iff (Text.starts "/*" (firstTrimmed comment) = true ∧
      ∀ k < comment.length, DocBuffer.closes (firstTrimmed (comment.drop k)) =
        decide (k + 1 = comment.length))
    ⟨fun ⟨hbegins, hends⟩ => ⟨hbegins, hends⟩, fun h => ⟨h.begins, h.ends⟩⟩

/-- The comment is set apart from the code around it, as the scan of the file shows, whichever
of the two texts it has. -/
structure SetApart (path : String) (front comment other rest : List Line) : Prop where
  /-- What a line in front of the comment declares does not depend on the text, nor how far it
  reaches. -/
  read : ∀ m, Moment.Reached (front ++ comment ++ rest) (.start path .brace) m →
    m.index < front.length →
    ReadAlike ((front ++ comment ++ rest).drop m.index) ((front ++ other ++ rest).drop m.index)
  /-- It ends in front of the comment, or reaches over all of it, and then the curly brackets of
  both texts balance alike. -/
  whole : ∀ m, Moment.Reached (front ++ comment ++ rest) (.start path .brace) m →
    m.index < front.length →
    (m.next (front ++ comment ++ rest)).index ≤ front.length ∨
      (front.length + comment.length ≤ (m.next (front ++ comment ++ rest)).index ∧
        netDelta comment = netDelta other)
  /-- The first line of the comment is not the last one of a class, which is passed unread. -/
  first : ∀ m, Moment.Reached (front ++ comment ++ rest) (.start path .brace) m →
    m.index = front.length → ∀ c ∈ m.scan.scope, front.length < c.stop

/-! ## Texts of the same weights -/

/-- How far the expression reaches of a function whose header stands on the first line. -/
def expressionEnd? (ls : List Line) : Option Nat :=
  match firstHit outside ls with
  | some (_, .function head) =>
    if head.body = .expression then some (expressionExtent head.further ls) else none
  | _ => none

/-- Blocks reach as far over lines of the same weights; expressions are read otherwise. -/
theorem readAlike_of_weight {ls ls' : List Line} (hweights : ls.map weight = ls'.map weight)
    (houtside : firstHit outside ls = firstHit outside ls')
    (hinside : firstHit inside ls = firstHit inside ls')
    (hexpression : expressionEnd? ls = expressionEnd? ls') : ReadAlike ls ls' := by
  have hblock := blockExtent_of_weight hweights
  have hextent := braceExtent_of_weight hweights
  have hdelta : braceDelta (ls.headD []) = braceDelta (ls'.headD []) :=
    congrArg (·.braces.delta) (weight_headD hweights)
  refine ⟨houtside, hinside, ?_, ?_⟩
  · unfold expressionEnd? at hexpression
    unfold outsideExtent
    rw [← houtside] at hexpression ⊢
    cases hhit : firstHit outside ls with
    | none => rfl
    | some hit =>
      obtain ⟨name, c⟩ := hit
      rw [hhit] at hexpression
      cases c with
      -- a block is measured by its weights; an expression is cut at characters
      | function head =>
        dsimp only [bodyExtent]
        cases hbody : head.body with
        | block => exact hblock head.further
        | expression =>
          simp only [hbody, if_true] at hexpression
          exact Option.some.inj hexpression
      | classHead | interface => exact hextent
      | type =>
        dsimp only
        rw [hdelta, hextent]
      | _ => rfl
  · unfold insideExtent
    rw [← hinside]
    split
    case h_1 head _ => exact hblock head.further
    case h_2 => rfl

/-- Of texts of the same weights it is enough to know that no header and no expression is read
together with them, and that no block ends between their lines. -/
theorem setApart_of_weight {path : String} {front comment other rest : List Line}
    (hweights : comment.map weight = other.map weight)
    (hread : ∀ m, Moment.Reached (front ++ comment ++ rest) (.start path .brace) m →
      m.index < front.length →
      firstHit outside ((front ++ comment ++ rest).drop m.index) =
          firstHit outside ((front ++ other ++ rest).drop m.index) ∧
        firstHit inside ((front ++ comment ++ rest).drop m.index) =
          firstHit inside ((front ++ other ++ rest).drop m.index) ∧
        expressionEnd? ((front ++ comment ++ rest).drop m.index) =
          expressionEnd? ((front ++ other ++ rest).drop m.index))
    (hwhole : ∀ m, Moment.Reached (front ++ comment ++ rest) (.start path .brace) m →
      m.index < front.length →
      (m.next (front ++ comment ++ rest)).index ≤ front.length ∨
        front.length + comment.length ≤ (m.next (front ++ comment ++ rest)).index)
    (hfirst : ∀ m, Moment.Reached (front ++ comment ++ rest) (.start path .brace) m →
      m.index = front.length → ∀ c ∈ m.scan.scope, front.length < c.stop) :
    SetApart path front comment other rest where
  read := fun m hreached hfront => by
    obtain ⟨houtside, hinside, hexpression⟩ := hread m hreached hfront
    have hfile : (front ++ comment ++ rest).map weight = (front ++ other ++ rest).map weight := by
      simp only [List.map_append, hweights]
    exact readAlike_of_weight (weight_drop hfile m.index) houtside hinside hexpression
  whole := fun m hreached hfront =>
    (hwhole m hreached hfront).imp_right fun hover => ⟨hover, netDelta_of_weight hweights⟩
  first := hfirst

/-! ## The run -/

section

variable {path : String} {front comment other rest : List Line}

theorem firstTrimmed_drop_comment (front rest : List Line) {k : Nat} (hk : k < comment.length) :
    firstTrimmed ((front ++ comment ++ rest).drop (front.length + k)) =
      firstTrimmed (comment.drop k) := by
  have hdrop : (front ++ comment ++ rest).drop (front.length + k) = comment.drop k ++ rest := by
    rw [List.append_assoc, ← List.drop_drop, List.drop_left,
      List.drop_append_of_le_length (Nat.le_of_lt hk)]
  obtain ⟨l, ls, hcons⟩ := List.exists_cons_of_ne_nil (Moment.drop_ne_nil hk)
  rw [hdrop, hcons]
  rfl

theorem headD_drop_front {i : Nat} (hi : i < front.length) (behind : List Line) :
    ((front ++ behind).drop i).headD [] = (front.drop i).headD [] := by
  obtain ⟨l, ls, hcons⟩ := List.exists_cons_of_ne_nil (Moment.drop_ne_nil hi)
  rw [List.drop_append_of_le_length (by omega), hcons]
  rfl

/-- The lines that a call does in front of the comment, or over all of it. -/
theorem balanced_drop (hlength : comment.length = other.length) {i further : Nat}
    (hi : i < front.length)
    (h : i + further + 1 ≤ front.length ∨
      (front.length + comment.length ≤ i + further + 1 ∧ netDelta comment = netDelta other)) :
    Balanced ((front ++ comment ++ rest).drop i) ((front ++ other ++ rest).drop i) further := by
  have hdrop (c : List Line) : (front ++ c ++ rest).drop i = front.drop i ++ (c ++ rest) := by
    rw [List.append_assoc, List.drop_append_of_le_length (Nat.le_of_lt hi)]
  have hleft : (front.drop i).length = front.length - i := List.length_drop
  rw [Balanced, hdrop, hdrop, window, window]
  obtain hshort | ⟨hlong, hsum⟩ := h
  · rw [List.take_append_of_le_length (by omega), List.take_append_of_le_length (by omega)]
  · have htake (c : List Line) (hc : c.length = comment.length) :
        netDelta ((front.drop i ++ (c ++ rest)).take (further + 1)) =
          netDelta (front.drop i) + (netDelta c +
            netDelta (rest.take (further + 1 - (front.length - i) - comment.length))) := by
      rw [List.take_append, List.take_append, List.take_of_length_le (by omega),
        List.take_of_length_le (by omega), netDelta_append, netDelta_append, hleft, hc]
    rw [htake comment rfl, htake other hlength.symm, hsum]

theorem does_step_of_index {P : Nat → Prop} {file : List Line} {m : Moment}
    (h : ∀ further, (m.next file).index = m.index + further + 1 → P further) :
    Does P (m.scan.step m.index (file.drop m.index)) := by
  cases hstep : m.scan.step m.index (file.drop m.index) with
  | done s items further => exact h further (by simp only [Moment.next, hstep, Moment.follow])
  | again s items => trivial

/-- From the second line of the comment to its last one the scan is inside of a comment. -/
def InsideWithin (front comment : List Line) (m : Moment) : Prop :=
  front.length < m.index → m.index < front.length + comment.length → m.scan.inside = true

/-- One call of both scans. -/
theorem alike_next (hblock : IsBlock comment) (hblock' : IsBlock other)
    (hlength : comment.length = other.length)
    (hapart : SetApart path front comment other rest)
    (hreached : Moment.Reached (front ++ comment ++ rest) (.start path .brace) m)
    (halike : m.Alike m') (hin : InsideWithin front comment m)
    (hlt : m.index < (front ++ comment ++ rest).length) :
    (m.next (front ++ comment ++ rest)).Alike (m'.next (front ++ other ++ rest)) ∧
      InsideWithin front comment (m.next (front ++ comment ++ rest)) := by
  obtain hfront | ⟨k, hk, hindex⟩ | ⟨k, hindex⟩ : m.index < front.length ∨
      (∃ k < comment.length, m.index = front.length + k) ∨
      ∃ k, m.index = front.length + comment.length + k := by
    by_cases hfront : m.index < front.length
    · exact .inl hfront
    · by_cases hcomment : m.index < front.length + comment.length
      · exact .inr (.inl ⟨m.index - front.length, by omega, by omega⟩)
      · exact .inr (.inr ⟨m.index - (front.length + comment.length), by omega⟩)
  · have hwhole := hapart.whole m hreached hfront
    refine ⟨next_alike halike ?_ (hapart.read m hreached hfront) ?_, fun hlow hhigh => ?_⟩
    · rw [List.append_assoc, List.append_assoc, headD_drop_front hfront, headD_drop_front hfront]
    · refine does_step_of_index fun further hindex => balanced_drop hlength hfront ?_
      rwa [hindex] at hwhole
    · omega
  · have htext := firstTrimmed_drop_comment front rest hk
    have htext' := firstTrimmed_drop_comment front rest (hlength ▸ hk)
    have hbehind : 0 < k → m.scan.inside = true := fun hpos => hin (by omega) (by omega)
    have hcall := comment_alike (front ++ comment ++ rest) (front ++ other ++ rest) halike
      (by rw [hindex, htext, htext', hblock.ends k hk, hblock'.ends k (hlength ▸ hk), hlength])
      (by
        rcases Nat.eq_zero_or_pos k with rfl | hpos
        · rw [hindex, htext, htext']
          exact .inr ⟨hblock.begins, hblock'.begins⟩
        · exact .inl (hbehind hpos))
      (fun c hc hstop => by
        rcases Nat.eq_zero_or_pos k with rfl | hpos
        · have hfirst := hapart.first m hreached hindex c hc
          omega
        · exact hbehind hpos)
    refine ⟨hcall.1, fun _ hhigh => hcall.2.2 ?_⟩
    rw [hcall.2.1] at hhigh
    rw [hindex, htext, hblock.ends k hk, decide_eq_false (by omega)]
  · have hdrop (c : List Line) : (front ++ c ++ rest).drop (front.length + c.length + k) =
        rest.drop k := by
      rw [← List.length_append, ← List.drop_drop, List.drop_left]
    have hsame : (front ++ comment ++ rest).drop m.index =
        (front ++ other ++ rest).drop m.index := by
      rw [hindex, hdrop comment, hlength, hdrop other]
    refine ⟨next_alike halike (by rw [hsame]) (hsame ▸ ReadAlike.refl _)
      (does_step_of_index fun _ _ => by rw [Balanced, hsame]), fun _ hhigh => ?_⟩
    -- no call goes back
    rcases Moment.next_cases hlt with ⟨_, _, _, -, hnext, -⟩ | ⟨-, _, _, -, hnext, -⟩ <;>
      · rw [hnext] at hhigh
        dsimp only at hhigh
        omega

/-- After any number of calls. -/
theorem alike_after (hblock : IsBlock comment) (hblock' : IsBlock other)
    (hlength : comment.length = other.length)
    (hapart : SetApart path front comment other rest) (calls : Nat) :
    Moment.Alike ((Moment.start path .brace).after (front ++ comment ++ rest) calls)
        ((Moment.start path .brace).after (front ++ other ++ rest) calls) ∧
      InsideWithin front comment
        ((Moment.start path .brace).after (front ++ comment ++ rest) calls) := by
  have htotal : (front ++ comment ++ rest).length = (front ++ other ++ rest).length := by
    simp only [List.length_append, hlength]
  induction calls with
  | zero =>
    have hbrace : (Moment.start path .brace).scan.IsBrace := ⟨rfl, fun h => nomatch h⟩
    refine ⟨⟨⟨hbrace, hbrace, rfl, rfl, .none⟩, rfl, rfl⟩, fun hlow _ => ?_⟩
    exact absurd hlow (Nat.not_lt_zero _)
  | succ calls ih =>
    obtain ⟨halike, hin⟩ := ih
    rw [Moment.after_succ, Moment.after_succ, ← halike.index, ← htotal]
    split
    case isTrue hlt =>
      exact alike_next hblock hblock' hlength hapart (Moment.reached_after .first calls) halike
        hin hlt
    case isFalse => exact ⟨halike, hin⟩

/-- What both scans have recorded in the end. -/
theorem skeletons_allItems (hblock : IsBlock comment) (hblock' : IsBlock other)
    (hlength : comment.length = other.length)
    (hapart : SetApart path front comment other rest) :
    (Moment.last path .brace (front ++ comment ++ rest)).allItems.map Item.skeleton =
      (Moment.last path .brace (front ++ other ++ rest)).allItems.map Item.skeleton := by
  have htotal : (front ++ comment ++ rest).length = (front ++ other ++ rest).length := by
    simp only [List.length_append, hlength]
  have halike := (alike_after hblock hblock' hlength hapart
    (2 * (front ++ comment ++ rest).length)).1
  rw [Moment.last, Moment.last, ← htotal, Moment.allItems, Moment.allItems, List.map_append,
    List.map_append, halike.items]
  have hscope := halike.scan.scope
  congr 1
  generalize (Moment.after (front ++ comment ++ rest) _ _).scan.scope = left at hscope ⊢
  generalize (Moment.after (front ++ other ++ rest) _ _).scan.scope = right at hscope ⊢
  cases hscope with
  | none => rfl
  | some hc => simp only [Option.map_some, Option.toList_some, List.map_cons, List.map_nil,
      closed_alike hc]

end

end Brace

/-! ## Outlines -/

/-- The names, the lines and the line counts of all that two outlines hold. -/
structure Outline.SameSkeleton (o o' : Outline) : Prop where
  functions : o.functions.map (·.skeleton) = o'.functions.map (·.skeleton)
  classes : o.classes.map (·.skeleton) = o'.classes.map (·.skeleton)
  interfaces : o.interfaces.map (·.skeleton) = o'.interfaces.map (·.skeleton)
  types : o.types.map (·.skeleton) = o'.types.map (·.skeleton)
  constants : o.constants.map (·.skeleton) = o'.constants.map (·.skeleton)
  imports : o.imports = o'.imports
  exports : o.exports = o'.exports

/-- The items of one kind have the skeletons of that kind. -/
theorem map_filterMap_of_skeleton {α β : Type} (kind? : Item → Option α) (skeleton : α → β)
    (ofSkeleton? : Skeleton → Option β)
    (hkind : ∀ i : Item, (kind? i).map skeleton = ofSkeleton? i.skeleton)
    {items items' : List Item} (h : items.map Item.skeleton = items'.map Item.skeleton) :
    (items.filterMap kind?).map skeleton = (items'.filterMap kind?).map skeleton := by
  have hskeletons (items : List Item) :
      (items.filterMap kind?).map skeleton = (items.map Item.skeleton).filterMap ofSkeleton? := by
    rw [List.map_filterMap, List.filterMap_map]
    exact List.filterMap_congr fun i _ => hkind i
  rw [hskeletons, hskeletons, h]

theorem Outline.sameSkeleton_of_holds {o o' : Outline} {items items' : List Item}
    (hitems : o.Holds items) (hitems' : o'.Holds items')
    (h : items.map Item.skeleton = items'.map Item.skeleton) : o.SameSkeleton o' where
  functions := by
    rw [hitems.functions, hitems'.functions]
    exact map_filterMap_of_skeleton _ _ (fun | .function s => some s | _ => none)
      (fun i => by cases i <;> rfl) h
  classes := by
    rw [hitems.classes, hitems'.classes]
    exact map_filterMap_of_skeleton _ _ (fun | .classItem s => some s | _ => none)
      (fun i => by cases i <;> rfl) h
  interfaces := by
    rw [hitems.interfaces, hitems'.interfaces]
    exact map_filterMap_of_skeleton _ _ (fun | .interface s => some s | _ => none)
      (fun i => by cases i <;> rfl) h
  types := by
    rw [hitems.types, hitems'.types]
    exact map_filterMap_of_skeleton _ _ (fun | .type s => some s | _ => none)
      (fun i => by cases i <;> rfl) h
  constants := by
    rw [hitems.constants, hitems'.constants]
    exact map_filterMap_of_skeleton _ _ (fun | .constant s => some s | _ => none)
      (fun i => by cases i <;> rfl) h
  imports := by
    rw [hitems.imports, hitems'.imports, ← List.map_id (items.filterMap _),
      ← List.map_id (items'.filterMap _)]
    exact map_filterMap_of_skeleton _ _ (fun | .importItem r => some r | _ => none)
      (fun i => by cases i <;> rfl) h
  exports := by
    rw [hitems.exports, hitems'.exports, ← List.map_id (items.filterMap _),
      ← List.map_id (items'.filterMap _)]
    exact map_filterMap_of_skeleton _ _ (fun | .exportItem r => some r | _ => none)
      (fun i => by cases i <;> rfl) h

/-- Where a block comment is set apart from the code around it, at any level, its text may be
replaced: the outline holds the same names on the same lines with the same line counts. -/
theorem Outline.sameSkeleton_of_commentText {path : String} {content content' : List Char}
    {front comment other rest : List Line} (hfile : Text.lines content = front ++ comment ++ rest)
    (hother : Text.lines content' = front ++ other ++ rest) (hblock : Brace.IsBlock comment)
    (hblock' : Brace.IsBlock other) (hlength : comment.length = other.length)
    (hapart : Brace.SetApart path front comment other rest) :
    (Outline.build path content .brace).SameSkeleton (Outline.build path content' .brace) := by
  have hitems := Outline.holds_build path content .brace
  have hitems' := Outline.holds_build path content' .brace
  rw [hfile] at hitems
  rw [hother] at hitems'
  exact sameSkeleton_of_holds hitems hitems'
    (Brace.skeletons_allItems hblock hblock' hlength hapart)

/-! ## A comment in a class -/

def classFront : List Line := ["class A \x7b".toList]

def classRest : List Line := ["  m() \x7b\x7d".toList, "\x7d".toList]

/-- A comment with a second line that is given. -/
def noteWith (text : String) : List Line := ["  /* note".toList, text.toList, "  */".toList]

/-- A class with a comment in front of its method. -/
def commentedClass (text : String) : List Char :=
  Text.terminated (classFront ++ noteWith text ++ classRest)

theorem setApart_hiddenBracket : Brace.SetApart "a.ts" classFront (noteWith "  it is so")
    (noteWith "  it's so \x7d") classRest := by
  refine Brace.setApart_of_weight ?_ ?_ ?_ ?_
  · decide +kernel
  -- a loop has no more moments than calls
  all_goals
    intro m hm hindex
    obtain ⟨calls, hle, rfl⟩ := hm.exists_after
    clear hm
    revert calls
    decide +kernel

/-- An apostrophe hides the bracket behind it, so the class is read as with any other text. -/
theorem sameSkeleton_hiddenBracket :
    (Outline.build "a.ts" (commentedClass "  it is so") .brace).SameSkeleton
      (Outline.build "a.ts" (commentedClass "  it's so \x7d") .brace) := by
  refine Outline.sameSkeleton_of_commentText ?_ ?_ ?_ ?_ ?_ setApart_hiddenBracket
  all_goals decide +kernel

/-- A bracket that nothing hides ends the class on the line of the comment, and the method behind
the comment is lost. -/
theorem cutShort_byComment :
    Brace.IsBlock (noteWith "  so") ∧ Brace.IsBlock (noteWith "  \x7d") ∧
      Text.lines (commentedClass "  so") = classFront ++ noteWith "  so" ++ classRest ∧
      Text.lines (commentedClass "  \x7d") = classFront ++ noteWith "  \x7d" ++ classRest ∧
      (Outline.build "a.ts" (commentedClass "  so") .brace).classes.map (·.skeleton) =
        [(("A", 1, 6), [("m", 5, 1)], [])] ∧
      (Outline.build "a.ts" (commentedClass "  \x7d") .brace).classes.map (·.skeleton) =
        [(("A", 1, 3), [], [])] := by
  refine ⟨?_, ?_, ?_, ?_, ?_, ?_⟩
  all_goals decide +kernel

end CodeAtlas
