/-
Reading back what is written.

A value is written over lines, and the reader puts it together on a stack. Two facts
meet in `Writes`: the text of a value has certain tokens whatever follows it, and these
tokens bring a reader that waits for a value to where the value itself would bring it
(`Reads`), whatever is open around it. Neither says how deep the value stands, so the
induction on the value needs no count of levels; the layout only adds blanks.

Numbers with a point are left out (`Exact`): their shortest form is rounded when it is
read, by operations that nothing can be proved about. Nor does the reader have a limit
here; with one, a value is read back as long as it is not too deep.
-/
import CodeAtlas.Json.Reader
import CodeAtlas.Proofs.Json.Spelling

set_option autoImplicit false

namespace CodeAtlas.Json

/-! ## Values that are written exactly -/

/-- All numbers in the value are integers of sixty-four bits, with or without a sign. -/
inductive Exact : Json → Prop
  | null : Exact .null
  | bool (b : Bool) : Exact (.bool b)
  | int {n : Int} (hlow : -(Nat.pow 2 63 : Int) ≤ n) (hhigh : n ≤ maxWord) : Exact (.int n)
  | str (s : String) : Exact (.str s)
  | arr {items : List Json} (h : ∀ j ∈ items, Exact j) : Exact (.arr items)
  | obj {fields : List (String × Json)} (h : ∀ f ∈ fields, Exact f.2) : Exact (.obj fields)

/-! ## Tokens and the reader -/

namespace Reader

theorem readAll_cons (r : Reader) (token : Token) (ts : List Token) :
    r.readAll (token :: ts) = (r.read token).bind (·.readAll ts) := by
  rw [readAll]
  cases r.read token <;> rfl

theorem read_literal {r : Reader} {token : Token} {j : Json} (hwants : r.wantsValue = true)
    (hliteral : literal? token = some j) : r.read token = r.complete j := by
  have hread : (if r.wantsValue then (literal? token).bind r.complete else none) =
      r.complete j := by
    rw [if_pos hwants, hliteral, Option.bind_some]
  cases token with
  | openArr | openObj | closeArr | closeObj | comma | colon => cases hliteral
  | int n | float bits | bool b | null => exact hread
  | str s =>
    obtain ⟨frames, want, result, limit⟩ := r
    -- a text may also be a key, but not where a value may stand
    cases want with
    | key | keyOrEnd => cases hwants
    | value | valueOrEnd | colon | commaOrEnd => exact hread

end Reader

/-- The tokens bring a reader that waits for a value to where the value brings it. -/
def Reads (ts : List Token) (j : Json) : Prop :=
  ∀ (r : Reader) (more : List Token), r.wantsValue = true → r.limit = none →
    r.readAll (ts ++ more) = (r.complete j).bind (·.readAll more)

/-- The tokens bring a reader that waits for an item of an array to where all the items
have been read. -/
def ReadsItems (ts : List Token) (items : List Json) : Prop :=
  ∀ (r : Reader) (seen : List Json) (outer : List Frame) (more : List Token),
    r.frames = .arr seen :: outer → r.wantsValue = true → r.limit = none →
      r.readAll (ts ++ more) =
        { r with frames := .arr (items.reverse ++ seen) :: outer, want := .commaOrEnd }.readAll more

/-- The tokens bring a reader that waits for a field of an object to where all the fields
have been read. -/
def ReadsFields (ts : List Token) (fields : List (String × Json)) : Prop :=
  ∀ (r : Reader) (seen : List (String × Json)) (outer : List Frame) (more : List Token),
    r.frames = .obj seen none :: outer → r.want = .key ∨ r.want = .keyOrEnd → r.limit = none →
      r.readAll (ts ++ more) =
        { r with
          frames := .obj (fields.reverse ++ seen) none :: outer, want := .commaOrEnd }.readAll more

theorem reads_literal {token : Token} {j : Json} (h : Reader.literal? token = some j) :
    Reads [token] j := by
  intro r more hwants _
  rw [List.singleton_append, Reader.readAll_cons, Reader.read_literal hwants h]

/-! ## Arrays -/

theorem Reads.item {ts : List Token} {j : Json} (h : Reads ts j) : ReadsItems ts [j] := by
  intro r seen outer more hframes hwants hlimit
  rw [h r more hwants hlimit, Reader.complete, hframes]
  rfl

theorem Reads.cons_item {ts ts' : List Token} {j : Json} {items : List Json} (h : Reads ts j)
    (h' : ReadsItems ts' items) : ReadsItems (ts ++ .comma :: ts') (j :: items) := by
  intro r seen outer more hframes hwants hlimit
  have htail := h' { r with frames := .arr (j :: seen) :: outer, want := .value } (j :: seen) outer
    more rfl rfl hlimit
  have hreverse : (j :: items).reverse ++ seen = items.reverse ++ j :: seen := by simp
  rw [List.append_assoc, h.item r seen outer _ hframes hwants hlimit, List.cons_append,
    Reader.readAll_cons, hreverse]
  exact htail

theorem Reader.read_openArr {r : Reader} (hwants : r.wantsValue = true) (hlimit : r.limit = none) :
    r.read .openArr = some { r with frames := .arr [] :: r.frames, want := .valueOrEnd } := by
  rw [Reader.read, if_pos hwants, Reader.enter, hlimit]
  rfl

theorem reads_emptyArr : Reads [.openArr, .closeArr] (.arr []) := by
  intro r more hwants hlimit
  rw [List.cons_append, Reader.readAll_cons, Reader.read_openArr hwants hlimit, Option.bind_some,
    List.singleton_append, Reader.readAll_cons]
  rfl

theorem ReadsItems.arr {ts : List Token} {items : List Json} (h : ReadsItems ts items) :
    Reads (.openArr :: (ts ++ [.closeArr])) (.arr items) := by
  intro r more hwants hlimit
  have hitems := h { r with frames := .arr [] :: r.frames, want := .valueOrEnd } [] r.frames
    (.closeArr :: more) rfl rfl hlimit
  rw [List.cons_append, Reader.readAll_cons, Reader.read_openArr hwants hlimit, Option.bind_some,
    List.append_assoc, List.singleton_append, hitems, Reader.readAll_cons, List.append_nil]
  simp only [Reader.read, Reader.leave, List.reverse_reverse]
  rfl

/-! ## Objects -/

theorem Reads.field {ts : List Token} {j : Json} (h : Reads ts j) (k : String) :
    ReadsFields (.str k :: .colon :: ts) [(k, j)] := by
  intro r seen outer more hframes hwant hlimit
  have hkey : r.read (.str k) =
      some { r with frames := .obj seen (some k) :: outer, want := .colon } := by
    obtain ⟨frames, want, result, limit⟩ := r
    obtain rfl : frames = _ := hframes
    rcases hwant with rfl | rfl <;> rfl
  have hvalue := h { r with frames := .obj seen (some k) :: outer, want := .value } more rfl hlimit
  rw [List.cons_append, Reader.readAll_cons, hkey, Option.bind_some, List.cons_append,
    Reader.readAll_cons]
  exact hvalue

theorem Reads.cons_field {ts ts' : List Token} {j : Json} {fields : List (String × Json)}
    (h : Reads ts j) (k : String) (h' : ReadsFields ts' fields) :
    ReadsFields (.str k :: .colon :: (ts ++ .comma :: ts')) ((k, j) :: fields) := by
  intro r seen outer more hframes hwant hlimit
  have hfield := h.field k r seen outer (.comma :: (ts' ++ more)) hframes hwant hlimit
  have htail := h' { r with frames := .obj ((k, j) :: seen) none :: outer, want := .key }
    ((k, j) :: seen) outer more rfl (.inl rfl) hlimit
  have hreverse : ((k, j) :: fields).reverse ++ seen = fields.reverse ++ (k, j) :: seen := by simp
  have hassoc : .str k :: .colon :: (ts ++ .comma :: ts') ++ more =
      .str k :: .colon :: ts ++ .comma :: (ts' ++ more) := by simp
  rw [hassoc, hfield, Reader.readAll_cons, hreverse]
  exact htail

theorem Reader.read_openObj {r : Reader} (hwants : r.wantsValue = true) (hlimit : r.limit = none) :
    r.read .openObj = some { r with frames := .obj [] none :: r.frames, want := .keyOrEnd } := by
  rw [Reader.read, if_pos hwants, Reader.enter, hlimit]
  rfl

theorem reads_emptyObj : Reads [.openObj, .closeObj] (.obj []) := by
  intro r more hwants hlimit
  rw [List.cons_append, Reader.readAll_cons, Reader.read_openObj hwants hlimit, Option.bind_some,
    List.singleton_append, Reader.readAll_cons]
  rfl

theorem ReadsFields.obj {ts : List Token} {fields : List (String × Json)}
    (h : ReadsFields ts fields) : Reads (.openObj :: (ts ++ [.closeObj])) (.obj fields) := by
  intro r more hwants hlimit
  have hfields := h { r with frames := .obj [] none :: r.frames, want := .keyOrEnd } [] r.frames
    (.closeObj :: more) rfl (.inr rfl) hlimit
  rw [List.cons_append, Reader.readAll_cons, Reader.read_openObj hwants hlimit, Option.bind_some,
    List.append_assoc, List.singleton_append, hfields, Reader.readAll_cons, List.append_nil]
  simp only [Reader.read, Reader.leave, List.reverse_reverse]
  rfl

/-! ## The layout -/

/-- The text writes the value: it has tokens that the reader takes for the value. -/
def Writes (w : List Char) (j : Json) : Prop := ∃ ts, Lexes w ts ∧ Reads ts j

theorem Writes.read? {w : List Char} {j : Json} (h : Writes w j) :
    Json.read? none w = some j := by
  obtain ⟨ts, hlexes, hreads⟩ := h
  have hall := hreads {} [] rfl rfl
  rw [List.append_nil] at hall
  rw [Json.read?, hlexes.tokens?, Option.bind_eq_bind, Option.bind_some, hall]
  rfl

theorem writes_literal {w : List Char} {token : Token} {j : Json} (hlexes : Lexes w [token])
    (h : Reader.literal? token = some j) : Writes w j :=
  ⟨[token], hlexes, reads_literal h⟩

theorem newLine_toList (level : Nat) :
    (newLine level).toList = '\n' :: List.replicate (2 * level) ' ' := by
  simp [newLine]

/-- The indentation of a line does not count. -/
theorem Lexes.indented {w : List Char} {ts : List Token} (h : Lexes w ts) (level : Nat) :
    Lexes ((newLine level).toList ++ w) ts := by
  refine h.blanks fun c hc => ?_
  rw [newLine_toList] at hc
  rcases List.mem_cons.mp hc with rfl | hc
  · rfl
  · obtain rfl : c = ' ' := List.eq_of_mem_replicate hc
    rfl

/-- What stands in brackets, the closing one on a line of its own. -/
theorem Lexes.bracketed {w : List Char} {ts : List Token} {a b : Char} {opening closing : Token}
    (hopen : ∀ t, readToken (a :: t) = some (opening, t))
    (hclose : ∀ t, readToken (b :: t) = some (closing, t)) (h : Lexes w ts) (level : Nat) :
    Lexes (a :: (w ++ ((newLine level).toList ++ [b])))
      (opening :: (ts ++ [closing])) := by
  have hend := (Lexes.cons hclose .nil).indented level
  rw [newLine_toList, List.cons_append] at hend ⊢
  exact .cons hopen (h.append (by decide) hend)

/-- A comma between two pieces. -/
theorem Lexes.comma {w w' : List Char} {ts ts' : List Token} (h : Lexes w ts)
    (h' : Lexes w' ts') : Lexes (w ++ ',' :: w') (ts ++ .comma :: ts') :=
  h.append (by decide) (.cons (fun _ => rfl) h')

theorem writes_items {level : Nat} {j : Json} {items : List Json}
    (h : ∀ i ∈ j :: items, Writes (prettyAt level i).toList i) :
    ∃ ts, Lexes (",".intercalate (prettyItems level (j :: items))).toList ts ∧
      ReadsItems ts (j :: items) := by
  induction items generalizing j with
  | nil =>
    obtain ⟨ts, hlexes, hreads⟩ := h j List.mem_cons_self
    refine ⟨ts, ?_, hreads.item⟩
    simp only [prettyItems, String.intercalate_singleton, String.toList_append]
    exact hlexes.indented level
  | cons i items ih =>
    obtain ⟨ts, hlexes, hreads⟩ := h j List.mem_cons_self
    obtain ⟨rest, hrest, hreadsRest⟩ := ih fun i hi => h i (List.mem_cons_of_mem _ hi)
    refine ⟨ts ++ .comma :: rest, ?_, hreads.cons_item hreadsRest⟩
    have hlexesAll := (hlexes.indented level).comma hrest
    simp only [prettyItems, String.intercalate_cons_cons, String.toList_append] at hlexesAll ⊢
    simpa using hlexesAll

/-- A field on a line of its own. -/
theorem Lexes.field {w : List Char} {ts : List Token} (h : Lexes w ts) (level : Nat) (k : String) :
    Lexes (newLine level ++ quote k ++ ": " ++ String.ofList w).toList
      (.str k :: .colon :: ts) := by
  have hblank : ∀ c ∈ [' '], isSpace c = true := by
    intro c hc
    rw [List.mem_singleton.mp hc]
    rfl
  have hvalue : Lexes (':' :: ([' '] ++ w)) (.colon :: ts) :=
    .cons (fun _ => rfl) (h.blanks hblank)
  have hfield := ((lexes_quote k).append (by decide) hvalue).indented level
  simpa using hfield

theorem writes_fields {level : Nat} {f : String × Json} {fields : List (String × Json)}
    (h : ∀ g ∈ f :: fields, Writes (prettyAt level g.2).toList g.2) :
    ∃ ts, Lexes (",".intercalate (prettyFields level (f :: fields))).toList ts ∧
      ReadsFields ts (f :: fields) := by
  induction fields generalizing f with
  | nil =>
    obtain ⟨ts, hlexes, hreads⟩ := h f List.mem_cons_self
    refine ⟨.str f.1 :: .colon :: ts, ?_, hreads.field f.1⟩
    have hfield := hlexes.field level f.1
    rw [String.ofList_toList] at hfield
    simpa only [prettyFields, String.intercalate_singleton] using hfield
  | cons g fields ih =>
    obtain ⟨ts, hlexes, hreads⟩ := h f List.mem_cons_self
    obtain ⟨rest, hrest, hreadsRest⟩ := ih fun g hg => h g (List.mem_cons_of_mem _ hg)
    refine ⟨.str f.1 :: .colon :: (ts ++ .comma :: rest), ?_, hreads.cons_field f.1 hreadsRest⟩
    have hlexesAll := (hlexes.field level f.1).comma hrest
    rw [String.ofList_toList] at hlexesAll
    simp only [prettyFields, String.intercalate_cons_cons, String.toList_append] at hlexesAll ⊢
    simpa using hlexesAll

/-! ## Reading back -/

theorem Exact.writes {j : Json} (h : Exact j) (level : Nat) :
    Writes (prettyAt level j).toList j := by
  -- the layout of a value at one level is made of those of its parts at the next one
  induction h generalizing level with
  | null =>
    have hlexes : Lexes (prettyAt level .null).toList [.null] := by
      refine lexes_of_readToken fun rest _ => ?_
      simp [prettyAt, compact, readToken]
    exact writes_literal hlexes rfl
  | bool b =>
    have hlexes : Lexes (prettyAt level (.bool b)).toList [.bool b] := by
      refine lexes_of_readToken fun rest _ => ?_
      cases b <;> simp [prettyAt, compact, readToken]
    exact writes_literal hlexes rfl
  | int hlow hhigh =>
    simp only [prettyAt, compact]
    exact writes_literal (lexes_int hlow hhigh) rfl
  | str s =>
    simp only [prettyAt, compact]
    exact writes_literal (lexes_quote s) rfl
  | @arr items _ ih =>
    cases items with
    | nil =>
      refine ⟨[.openArr, .closeArr], ?_, reads_emptyArr⟩
      have hall := Lexes.cons (c := '[') (fun _ => rfl) (.cons (c := ']') (fun _ => rfl) .nil)
      simpa [prettyAt] using hall
    | cons j items =>
      obtain ⟨ts, hlexes, hreads⟩ := writes_items fun i hi => ih i hi (level + 1)
      refine ⟨.openArr :: (ts ++ [.closeArr]), ?_, hreads.arr⟩
      have hall := hlexes.bracketed (a := '[') (b := ']') (fun _ => rfl) (fun _ => rfl) level
      simpa [prettyAt] using hall
  | @obj fields _ ih =>
    cases fields with
    | nil =>
      refine ⟨[.openObj, .closeObj], ?_, reads_emptyObj⟩
      have hall :=
        Lexes.cons (c := '\x7b') (fun _ => rfl) (.cons (c := '\x7d') (fun _ => rfl) .nil)
      simpa [prettyAt] using hall
    | cons f fields =>
      obtain ⟨ts, hlexes, hreads⟩ := writes_fields fun g hg => ih g hg (level + 1)
      refine ⟨.openObj :: (ts ++ [.closeObj]), ?_, hreads.obj⟩
      have hall := hlexes.bracketed (a := '\x7b') (b := '\x7d') (fun _ => rfl) (fun _ => rfl) level
      simpa [prettyAt] using hall

/-- A value that is written over lines is read back. -/
theorem read?_pretty {j : Json} (h : Exact j) : read? none j.pretty.toList = some j :=
  (h.writes 0).read?

end CodeAtlas.Json
