/-
Doc blocks, and what may stand between a block and what it documents.

A buffer takes up a doc block line by line and keeps it until a declaration takes it out.
Nothing but the lines themselves decides what becomes of it: `IsDocBlock` says which runs of
lines are a block, and `commentBehind?` runs over the lines behind the block and fails at the
first one that is neither a comment nor a decorator.

The scan leaves some lines unread, so a run of lines is one of those that are read (`Reads`).
`Buffered` says what a buffer holds in front of a line, and `Attached` what a declaration on
that line takes from it.
-/
import CodeAtlas.Proofs.Header.Name
import CodeAtlas.Scan.Brace

set_option autoImplicit false

namespace CodeAtlas

/-! ## Runs of lines -/

/-- The lines from `first` on and in front of line `n`, in their order and trimmed; those that
may be left unread may be missing. -/
inductive Reads (file : List Line) (unread : Nat → Prop) (first : Nat) : Nat → List Line → Prop
  | start : Reads file unread first first []
  | read {n : Nat} {ls : List Line} : Reads file unread first n ls →
      Reads file unread first (n + 1) (ls ++ [Text.trim (lineAt file n)])
  | pass {n : Nat} {ls : List Line} : Reads file unread first n ls → unread n →
      Reads file unread first (n + 1) ls

/-- All lines from `first` on and in front of line `n`, trimmed. -/
def trimmedLines (file : List Line) (first n : Nat) : List Line :=
  (List.range' first (n - first)).map fun k => Text.trim (lineAt file k)

theorem trimmedLines_succ (file : List Line) {first n : Nat} (hle : first ≤ n) :
    trimmedLines file first (n + 1) = trimmedLines file first n ++ [Text.trim (lineAt file n)] := by
  rw [trimmedLines, trimmedLines, Nat.succ_sub hle, List.range'_concat, List.map_append,
    Nat.one_mul, Nat.add_sub_cancel' hle]
  rfl

/-- No line is left unread. -/
def nowhere : Nat → Prop := fun _ => False

namespace Reads

variable {file : List Line} {unread unread' : Nat → Prop} {first n : Nat} {ls : List Line}

theorem first_le (h : Reads file unread first n ls) : first ≤ n := by
  induction h with
  | start => exact Nat.le_refl _
  | read _ ih => exact Nat.le_succ_of_le ih
  | pass _ _ ih => exact Nat.le_succ_of_le ih

theorem mono (h : Reads file unread first n ls) (hunread : ∀ k, unread k → unread' k) :
    Reads file unread' first n ls := by
  induction h with
  | start => exact .start
  | read _ ih => exact ih.read
  | pass _ hpass ih => exact ih.pass (hunread _ hpass)

/-- Where nothing is left unread, the lines are all lines. -/
theorem eq_trimmedLines (h : Reads file unread first n ls)
    (hread : ∀ k, first ≤ k → k < n → ¬ unread k) : ls = trimmedLines file first n := by
  induction h with
  | start => simp [trimmedLines]
  | @read n ls hreads ih =>
    have hle := hreads.first_le
    have hall := ih fun k hk hlt => hread k hk (Nat.lt_succ_of_lt hlt)
    rw [trimmedLines_succ file hle, ← hall]
  | pass hreads hpass => exact absurd hpass (hread _ hreads.first_le (Nat.lt_succ_self _))

end Reads

/-! ## Blocks -/

/-- The lines begin with the mark of a doc comment, and the last of them is the first that
ends a comment. -/
structure IsDocBlock (ls : List Line) : Prop where
  opens : ∃ l rest, ls = l :: rest ∧ Text.starts "/**" l = true
  closes : ∃ front l, ls = front ++ [l] ∧ DocBuffer.closes l = true ∧
    ∀ k ∈ front, DocBuffer.closes k = false

/-- The lines begin a doc block that is still open behind them. -/
structure OpensDocBlock (ls : List Line) : Prop where
  opens : ∃ l rest, ls = l :: rest ∧ Text.starts "/**" l = true
  unclosed : ∀ k ∈ ls, DocBuffer.closes k = false

theorem OpensDocBlock.ends {ls : List Line} {l : Line} (h : OpensDocBlock ls)
    (hcloses : DocBuffer.closes l = true) : IsDocBlock (ls ++ [l]) := by
  obtain ⟨k, rest, rfl, hstarts⟩ := h.opens
  exact ⟨⟨k, rest ++ [l], rfl, hstarts⟩, _, l, rfl, hcloses, h.unclosed⟩

theorem OpensDocBlock.goes_on {ls : List Line} {l : Line} (h : OpensDocBlock ls)
    (hopen : DocBuffer.closes l = false) : OpensDocBlock (ls ++ [l]) := by
  obtain ⟨k, rest, rfl, hstarts⟩ := h.opens
  refine ⟨⟨k, rest ++ [l], rfl, hstarts⟩, List.forall_mem_append.mpr ⟨h.unclosed, ?_⟩⟩
  exact List.forall_mem_singleton.mpr hopen

/-- Is a comment open behind the line? The line stands behind a doc block; nothing if it is
neither a comment nor a decorator, or begins another doc block. -/
def commentBehind? (inComment : Bool) (t : Line) : Option Bool :=
  if inComment then some (!DocBuffer.closes t)
  else if Text.starts "/**" t then none
  else if Text.starts "/*" t then some (!DocBuffer.closes t)
  else if Text.starts "//" t || Text.starts "@" t then some false
  else none

/-- The doc comment of a block. -/
def docOfBlock (block : List Line) : Doc := Doc.ofBlock (['\n'].intercalate block)

/-- Behind line `above` there is a doc block whose comment is as it should be, and up to line
`n` there is nothing behind the block but comments and decorators, lines left unread apart. -/
def Attached (file : List Line) (unread : Nat → Prop) (above n : Nat) (agrees : Doc → Prop) :
    Prop :=
  ∃ first block between, above < first ∧ Reads file unread first n (block ++ between) ∧
    IsDocBlock block ∧ between.foldlM commentBehind? false = some false ∧
    agrees (docOfBlock block)

theorem Attached.mono {file : List Line} {unread unread' : Nat → Prop} {above n : Nat}
    {agrees agrees' : Doc → Prop} (h : Attached file unread above n agrees)
    (hunread : ∀ k, unread k → unread' k) (hagrees : ∀ d, agrees d → agrees' d) :
    Attached file unread' above n agrees' := by
  obtain ⟨first, block, between, habove, hreads, hblock, hbetween, hdoc⟩ := h
  exact ⟨first, block, between, habove, hreads.mono hunread, hblock, hbetween, hagrees _ hdoc⟩

/-! ## Buffers -/

/-- What a buffer holds in front of line `n`, where no block is looked for up to line
`above`: nothing, a block that is being read, or a block behind which the declaration is
still to come. -/
inductive Buffered (file : List Line) (unread : Nat → Prop) (above n : Nat) :
    DocBuffer → Bool → Prop
  | empty (inComment : Bool) : Buffered file unread above n {} inComment
  | reading {first : Nat} {block : List Line} : above < first →
      Reads file unread first n block → OpensDocBlock block →
      Buffered file unread above n { back := block.reverse, isOpen := true } false
  | complete {first : Nat} {block between : List Line} {inComment : Bool} : above < first →
      Reads file unread first n (block ++ between) → IsDocBlock block →
      between.foldlM commentBehind? false = some inComment →
      Buffered file unread above n { back := block.reverse, isOpen := false } inComment

namespace Buffered

variable {file : List Line} {unread unread' : Nat → Prop} {above above' n : Nat} {b : DocBuffer}
  {inComment inComment' : Bool}

theorem mono (h : Buffered file unread above n b inComment)
    (hunread : ∀ k, unread k → unread' k) (hle : above' ≤ above) :
    Buffered file unread' above' n b inComment := by
  cases h with
  | empty => exact .empty _
  | reading habove hreads hblock =>
    exact .reading (Nat.lt_of_le_of_lt hle habove) (hreads.mono hunread) hblock
  | complete habove hreads hblock hbetween =>
    exact .complete (Nat.lt_of_le_of_lt hle habove) (hreads.mono hunread) hblock hbetween

/-- A line that is left unread changes nothing. -/
theorem pass (h : Buffered file unread above n b inComment) (hpass : unread n) :
    Buffered file unread above (n + 1) b inComment := by
  cases h with
  | empty => exact .empty _
  | reading habove hreads hblock => exact .reading habove (hreads.pass hpass) hblock
  | complete habove hreads hblock hbetween =>
    exact .complete habove (hreads.pass hpass) hblock hbetween

/-- A block behind which nothing was read. -/
theorem closed {first : Nat} {block : List Line} (habove : above < first)
    (hreads : Reads file unread first n block) (hblock : IsDocBlock block) :
    Buffered file unread above n { back := block.reverse, isOpen := false } false := by
  rw [← List.append_nil block] at hreads
  exact .complete habove hreads hblock rfl

/-- A new block begins. -/
theorem start (habove : above < n)
    (hstarts : Text.starts "/**" (Text.trim (lineAt file n)) = true) :
    Buffered file unread above (n + 1) (DocBuffer.start (Text.trim (lineAt file n))) false := by
  have hreads : Reads file unread n (n + 1) [Text.trim (lineAt file n)] := Reads.start.read
  unfold DocBuffer.start
  cases hcloses : DocBuffer.closes (Text.trim (lineAt file n)) with
  | false =>
    refine .reading habove hreads ⟨⟨_, [], rfl, hstarts⟩, ?_⟩
    exact List.forall_mem_singleton.mpr hcloses
  | true =>
    have hblock : IsDocBlock [Text.trim (lineAt file n)] :=
      ⟨⟨_, [], rfl, hstarts⟩, [], _, rfl, hcloses, fun k hk => by simp at hk⟩
    exact closed habove hreads hblock

/-- A line of the block that is being read. -/
theorem push (h : Buffered file unread above n b inComment) (hopen : b.isOpen = true) :
    Buffered file unread above (n + 1) (b.push (Text.trim (lineAt file n))) inComment := by
  cases h with
  | empty => cases hopen
  | complete => cases hopen
  | @reading first block habove hreads hblock =>
    have hback : Text.trim (lineAt file n) :: block.reverse =
        (block ++ [Text.trim (lineAt file n)]).reverse := by
      rw [List.reverse_append]
      rfl
    simp only [DocBuffer.push, hback, Bool.true_and]
    cases hcloses : DocBuffer.closes (Text.trim (lineAt file n)) with
    | false => exact .reading habove hreads.read (hblock.goes_on hcloses)
    | true => exact closed habove hreads.read (hblock.ends hcloses)

/-- A comment or a decorator behind the block. -/
theorem behind (h : Buffered file unread above n b inComment) (hclosed : b.isOpen = false)
    (hline : commentBehind? inComment (Text.trim (lineAt file n)) = some inComment') :
    Buffered file unread above (n + 1) b inComment' := by
  cases h with
  | empty => exact .empty _
  | reading => cases hclosed
  | complete habove hreads hblock hbetween =>
    have hread := hreads.read
    rw [List.append_assoc] at hread
    refine .complete habove hread hblock ?_
    rw [List.foldlM_append, hbetween]
    simpa using hline

/-- A comment that says something is that of a block. -/
theorem attached (h : Buffered file unread above n b false) {d : Doc} (hdoc : b.doc? = some d) :
    Attached file unread above n (· = d) := by
  cases h with
  | empty => cases hdoc
  | reading => simp [DocBuffer.doc?] at hdoc
  | @complete first block between _ habove hreads hblock hbetween =>
    refine ⟨first, block, between, habove, hreads, hblock, hbetween, ?_⟩
    unfold DocBuffer.doc? at hdoc
    simp only [List.reverse_reverse] at hdoc
    split at hdoc
    · cases hdoc
    · split at hdoc
      · cases hdoc
      · exact Option.some.inj hdoc

end Buffered

end CodeAtlas
