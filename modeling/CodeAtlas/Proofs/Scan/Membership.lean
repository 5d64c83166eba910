/-
Which class a function belongs to, in the indentation family.

The body of a class is the run of lines behind its header that are blank or indented deeper
(`InBody`). A scan does not look for the end of that run. It leaves a class at a line that is
not indented deeper and begins a definition, a class, a decorator or a constant, and it
leaves a class too where another class begins inside of it, and does not come back. So a
function that stands in the body of a class, behind a class that is nested there, is read as
one of the file: `membership_against_indentation`.

What holds of all files is said in `membership_build`. A method whose line begins with `def`
or `async def` is indented deeper than the line of its class; and a function of the file does
not stand in the body of the last class in front of it, so that in whatever body it stands, a
class is nested there and is over.

The invariant is `Moment.Tracks`. It carries along the lines on which classes were opened, the
newest last, and what makes a line outside classes be read as one: either the newest class
has been left behind, or the line is the header of the next one.
-/
import CodeAtlas.Proofs.Header.Name
import CodeAtlas.Proofs.Scan.Origin
import Mathlib.Data.Nat.Find

set_option autoImplicit false

namespace CodeAtlas

/-! ## Bodies -/

/-- Does line `n` stand in the body of the class whose header is line `l`? Every line behind
the header and up to line `n` is blank or indented deeper than the header. -/
structure InBody (file : List Line) (l n : Nat) : Prop where
  behind : l < n
  deeper : ∀ k, l < k → k ≤ n → Text.isBlank (lineAt file k) = true ∨
    Text.indentation (lineAt file l) < Text.indentation (lineAt file k)

instance (file : List Line) (l n : Nat) : Decidable (InBody file l n) :=
  decidable_of_iff
    (l < n ∧ ∀ k < n + 1, l < k → Text.isBlank (lineAt file k) = true ∨
      Text.indentation (lineAt file l) < Text.indentation (lineAt file k))
    ⟨fun h => ⟨h.1, fun k hk hkn => h.2 k (Nat.lt_succ_of_le hkn) hk⟩,
      fun h => ⟨h.behind, fun k hkn hk => h.deeper k hk (Nat.le_of_lt_succ hkn)⟩⟩

theorem InBody.mono {file : List Line} {l n n' : Nat} (h : InBody file l n') (hl : l < n)
    (hn : n ≤ n') : InBody file l n :=
  ⟨hl, fun k hk hkn => h.deeper k hk (Nat.le_trans hkn hn)⟩

/-- Line `n` does not stand in the body of the last of the classes in front of it; the list
has the lines of their headers. -/
def LeftBehind (file : List Line) (lines : List Nat) (n : Nat) : Prop :=
  ∀ l ∈ lines, l < n → (∀ l' ∈ lines, l' < n → l' ≤ l) → ¬ InBody file l n

theorem LeftBehind.mono {file : List Line} {lines : List Nat} {n n' : Nat}
    (h : LeftBehind file lines n) (hlines : ∀ l ∈ lines, l < n) (hn : n ≤ n') :
    LeftBehind file lines n' := by
  intro l hl _ hlast hbody
  refine h l hl (hlines l hl) (fun l' hl' _ => hlast l' hl' ?_) (hbody.mono (hlines l hl) hn)
  exact Nat.lt_of_lt_of_le (hlines l' hl') hn

/-- A class behind the line changes nothing. -/
theorem LeftBehind.append {file : List Line} {lines : List Nat} {n k : Nat}
    (h : LeftBehind file lines n) (hk : n ≤ k) : LeftBehind file (lines ++ [k]) n := by
  intro l hl hlt hlast
  have hmem : ∀ {l' : Nat}, l' ∈ lines ++ [k] → l' < n → l' ∈ lines := by
    intro l' hl' hlt'
    rcases List.mem_append.mp hl' with hold | hnew
    · exact hold
    · have heq := List.mem_singleton.mp hnew
      omega
  exact h l (hmem hl hlt) hlt fun l' hl' hlt' => hlast l' (List.mem_append_left _ hl') hlt'

theorem Docstring.opening?_eq_none {t : List Char} (hdouble : t.head? ≠ some '"')
    (hsingle : t.head? ≠ some '\'') : opening? t = none := by
  unfold opening?
  split
  · exact absurd rfl hdouble
  · exact absurd rfl hsingle
  · rfl

/-- A text that begins with no mark and no quotation mark opens no docstring. -/
theorem Docstring.opening?_of_head? {t : List Char} {c : Char} (h : t.head? = some c)
    (hquote : c ≠ '"' ∧ c ≠ '\'') (hmark : isMark c = false) :
    opening? (t.dropWhile isMark) = none := by
  obtain ⟨rest, rfl⟩ := List.head?_eq_some_iff.mp h
  rw [List.dropWhile_cons_of_neg (Bool.eq_false_iff.mp hmark)]
  exact opening?_eq_none (mt Option.some.inj hquote.1) (mt Option.some.inj hquote.2)

namespace Indent

/-- A line that begins with no mark of a comment or of a docstring is code. -/
theorem isCode_of_head? {ls : List Line} {c : Char} (h : (firstTrimmed ls).head? = some c)
    (hcomment : c ≠ '#') (hquote : c ≠ '"' ∧ c ≠ '\'') (hmark : Docstring.isMark c = false) :
    saysNothing (firstTrimmed ls) = false ∧ Docstring.at? ls = none := by
  constructor
  · obtain ⟨rest, hrest⟩ := List.head?_eq_some_iff.mp h
    simp [hrest, saysNothing, hcomment]
  · cases ls with
    | nil => rfl
    | cons l ls =>
      have hopening : Docstring.opening? ((Text.trim l).dropWhile Docstring.isMark) = none :=
        Docstring.opening?_of_head? h hquote hmark
      simp only [Docstring.at?, hopening, Option.bind_eq_bind, Option.bind_none]

/-- Does the line begin a definition, with one blank behind each keyword? -/
def beginsDef (l : Line) : Bool :=
  Text.starts "def " (Text.trim l) || Text.starts "async def " (Text.trim l)

/-- Methods whose lines begin a definition are indented deeper than `base`. -/
def MethodsDeeper (file : List Line) (base : Nat) (methods : List FunctionRecord) : Prop :=
  ∀ f ∈ methods, beginsDef (lineAt file f.line) = true →
    base < Text.indentation (lineAt file f.line)

/-! ## Lines that end a class -/

/-- A line that ends a class does not belong to its body. -/
theorem outdented_of_closesClass {base : Nat} {l : Line} (h : closesClass base l = true) :
    Text.isBlank l = false ∧ Text.indentation l ≤ base := by
  simp only [closesClass, Bool.and_eq_true, decide_eq_true_eq] at h
  obtain ⟨⟨hne, hle⟩, -⟩ := h
  refine ⟨Bool.eq_false_iff.mpr fun hblank => ?_, hle⟩
  rw [Text.trim_eq_nil_of_isBlank hblank] at hne
  cases hne

theorem ne_nil_of_starts {lead : String} {t : List Char} (h : Text.starts lead t = true)
    (hlead : lead.toList ≠ []) : t ≠ [] := by
  rintro rfl
  have hprefix : lead.toList <+: [] := List.isPrefixOf_iff_prefix.mp h
  exact hlead (List.prefix_nil.mp hprefix)

/-- A definition that does not end a class is indented deeper than its line. -/
theorem lt_indentation_of_beginsDef {base : Nat} {l : Line} (hkeeps : closesClass base l = false)
    (hdef : beginsDef l = true) : base < Text.indentation l := by
  by_contra hle
  have hle : Text.indentation l ≤ base := Nat.le_of_not_lt hle
  have hne : Text.trim l ≠ [] := by
    rcases Bool.or_eq_true_iff.mp hdef with h | h
    · exact ne_nil_of_starts h (by decide)
    · exact ne_nil_of_starts h (by decide)
  have hcloses : closesClass base l = true := by
    rw [beginsDef] at hdef
    simp only [closesClass, hdef, hle, Bool.true_or, Bool.and_true, decide_true,
      Bool.not_eq_true', List.isEmpty_eq_false_iff]
    exact hne
  rw [hcloses] at hkeeps
  cases hkeeps

/-! ## Headers of classes -/

open Pattern

/-- A text that a pattern matches begins with the word that the pattern begins with. -/
theorem head?_of_match? {w : String} {t : List Char} {b : Pattern} {c : Char} {m : Match}
    (h : (seq (lit w) b).match? t = some m) (hw : w.toList.head? = some c) : t.head? = some c := by
  obtain ⟨m', ms, ms', hword, -⟩ := (matches_append_iff (a := lit w)).mp (matches_of_match? h)
  have ht : t = w.toList ++ m'.rest := hword.rest_of_lit
  rw [ht, List.head?_append, hw]
  rfl

/-- A pattern that begins with a word refuses a text that begins otherwise. -/
theorem match?_eq_none_of_head? {w : String} {t : List Char} {b : Pattern} {c d : Char}
    (ht : t.head? = some d) (hw : w.toList.head? = some c) (hne : c ≠ d) :
    (seq (lit w) b).match? t = none := by
  refine Option.eq_none_iff_forall_ne_some.mpr fun m hm => hne ?_
  rw [head?_of_match? hm hw] at ht
  exact Option.some.inj ht

theorem importStatement?_eq_none_of_head? {ls : List Line} {d : Char}
    (h : (firstTrimmed ls).head? = some d) (hfrom : 'f' ≠ d) (himport : 'i' ≠ d) :
    importStatement? ls = none := by
  have hnames : fromImport.match? (firstTrimmed ls) = none :=
    match?_eq_none_of_head? (w := "from") h (by decide) hfrom
  have hplain : plainImport.match? (firstTrimmed ls) = none :=
    match?_eq_none_of_head? (w := "import") h (by decide) himport
  simp only [importStatement?, hnames, hplain, Option.bind_eq_bind, Option.bind_none]

theorem decorator?_eq_none_of_head? {ls : List Line} {d : Char}
    (h : (firstTrimmed ls).head? = some d) (hne : '@' ≠ d) : decorator? ls = none := by
  have hmark : decoratorHeader.match? (firstTrimmed ls) = none :=
    match?_eq_none_of_head? (w := "@") h (by decide) hne
  simp only [decorator?, hmark, Option.bind_eq_bind, Option.bind_none]

theorem classDeclaration?_eq_none_of_head? {ls : List Line} {d : Char}
    (h : (firstTrimmed ls).head? = some d) (hne : 'c' ≠ d) : classDeclaration? ls = none := by
  have hclass : classHeader.match? (firstTrimmed ls) = none :=
    match?_eq_none_of_head? (w := "class") h (by decide) hne
  simp only [classDeclaration?, hclass, Option.bind_eq_bind, Option.bind_none]

/-- The lines begin with the header of a class, for a scan that is outside classes. -/
structure ReadsClass (ls : List Line) : Prop where
  speaks : saysNothing (firstTrimmed ls) = false
  code : Docstring.at? ls = none
  hit : ∃ head, classDeclaration? ls = some (.classHead head)

theorem head?_of_classDeclaration? {ls : List Line} {c : Construct}
    (h : classDeclaration? ls = some c) : (firstTrimmed ls).head? = some 'c' := by
  simp only [classDeclaration?, Option.bind_eq_bind, Option.bind_eq_some_iff] at h
  obtain ⟨m, hm, -⟩ := h
  exact head?_of_match? (w := "class") hm (by decide)

/-- The header of a class is nothing else. -/
theorem firstHit_of_classDeclaration? {ls : List Line} {c : Construct}
    (h : classDeclaration? ls = some c) : firstHit outside ls = some ("class", c) := by
  have hhead := head?_of_classDeclaration? h
  have himport := importStatement?_eq_none_of_head? hhead (by decide) (by decide)
  have hdecorator := decorator?_eq_none_of_head? hhead (by decide)
  simp only [firstHit, outside, List.findSome?_cons, himport, hdecorator, h, Option.map_none,
    Option.map_some]

/-- Outside classes such a line opens a class. -/
theorem outsideStep_of_readsClass {ls : List Line} (h : ReadsClass ls) (s : Scan) (at_ : Nat) :
    ∃ head, outsideStep s at_ ls = openClass s head at_ ls := by
  obtain ⟨head, hit⟩ := h.hit
  have hhead := head?_of_classDeclaration? hit
  have hall := Text.not_starts_of_head? "__all__" hhead rfl (by decide)
  refine ⟨head, ?_⟩
  simp only [outsideStep, h.speaks, h.code, hall, firstHit_of_classDeclaration? hit,
    Bool.false_eq_true, if_false]
  rfl

/-- Inside a class, too, only the row of classes answers with a class. -/
theorem classDeclaration?_of_inside {ls : List Line} {name : String} {head : ClassHead}
    (h : firstHit inside ls = some (name, .classHead head)) :
    classDeclaration? ls = some (.classHead head) := by
  obtain ⟨recognise, hmem, hrow⟩ := exists_row_of_firstHit h
  simp only [inside, List.mem_cons, List.not_mem_nil, or_false, Prod.mk.injEq] at hmem
  rcases hmem with ⟨-, rfl⟩ | ⟨-, rfl⟩ | ⟨-, rfl⟩ | ⟨-, rfl⟩
  · simp [decorator?, Option.bind_eq_some_iff] at hrow
  · exact hrow
  · simp [defDeclaration?, Option.bind_eq_some_iff] at hrow
  · simp only [attribute?] at hrow
    split at hrow
    · cases hrow
    · simp at hrow

end Indent

/-! ## What a moment has seen -/

namespace Moment

/-- The lines on which classes were opened, in their order. -/
def classLines (m : Moment) : List Nat := (m.allItems.filterMap Item.class?).map (·.line)

/-- The lines of the functions that were recorded outside classes. -/
def functionLines (m : Moment) : List Nat := (m.allItems.filterMap Item.function?).map (·.line)

theorem classLines_eq (m : Moment) :
    m.classLines = (m.items.filterMap Item.class?).map (·.line) ++
      (m.scan.scope.map (·.record.line)).toList := by
  rw [classLines, allItems, List.filterMap_append, List.map_append]
  cases m.scan.scope with
  | none => rfl
  | some c => rfl

theorem functionLines_eq (m : Moment) :
    m.functionLines = (m.items.filterMap Item.function?).map (·.line) := by
  rw [functionLines, allItems, List.filterMap_append, List.map_append]
  cases m.scan.scope with
  | none => exact List.append_nil _
  | some c => exact List.append_nil _

end Moment

namespace Indent

/-- What a scan keeps of the classes and functions it has met. -/
structure Tracks (file : List Line) (m : Moment) : Prop where
  begun : ∀ l ∈ m.classLines, l ≤ m.index
  newest : ∀ c, m.scan.scope = some c → ∀ l ∈ m.classLines, l ≤ c.record.line
  left : m.scan.scope = none →
    ReadsClass (file.drop m.index) ∨ LeftBehind file m.classLines (m.index + 1)
  functions : ∀ n ∈ m.functionLines, n ≤ m.index ∧ LeftBehind file m.classLines n
  methods : ∀ c, m.scan.scope = some c → MethodsDeeper file c.indent c.record.methods
  classes : ∀ r ∈ m.items.filterMap Item.class?,
    MethodsDeeper file (Text.indentation (lineAt file r.line)) r.methods

namespace Tracks

variable {file : List Line} {m : Moment} {c c' : ClassScope} {s' : Scan} {items : List Item}
  {further : Nat}

/-- The classes stay in front of the line that is read next. -/
theorem begun_of_eq (h : Tracks file m) {m' : Moment} (hindex : m.index ≤ m'.index)
    (hclasses : m'.classLines = m.classLines) : ∀ l ∈ m'.classLines, l ≤ m'.index := by
  rw [hclasses]
  exact fun l hl => Nat.le_trans (h.begun l hl) hindex

/-- What is true of the functions stays true where no function comes, and where a class comes
behind them. -/
theorem functions_of_eq (h : Tracks file m) {m' : Moment} (hindex : m.index ≤ m'.index)
    (hclasses : m'.classLines = m.classLines ∨ m'.classLines = m.classLines ++ [m.index + 1])
    (hfunctions : m'.functionLines = m.functionLines) :
    ∀ n ∈ m'.functionLines, n ≤ m'.index ∧ LeftBehind file m'.classLines n := by
  rw [hfunctions]
  intro n hn
  obtain ⟨hle, hbehind⟩ := h.functions n hn
  refine ⟨Nat.le_trans hle hindex, ?_⟩
  rcases hclasses with hsame | hmore
  · rw [hsame]
    exact hbehind
  · rw [hmore]
    exact hbehind.append (Nat.le_succ_of_le hle)

/-- A line outside classes is passed, with what it declares: functions stand on that line. -/
theorem passes (h : Tracks file m) (hnone : m.scan.scope = none)
    (hleft : LeftBehind file m.classLines (m.index + 1)) (hnone' : s'.scope = none)
    (hclasses : items.filterMap Item.class? = [])
    (hfunctions : ∀ r ∈ items.filterMap Item.function?, r.line = m.index + 1) :
    Tracks file (m.follow (.done s' items further)) := by
  have hindex : m.index + 1 ≤ (m.follow (.done s' items further)).index := by
    simp only [Moment.follow]
    omega
  have hsame : (m.follow (.done s' items further)).classLines = m.classLines := by
    simp only [Moment.classLines_eq, Moment.follow, List.filterMap_append, hclasses, hnone,
      hnone', List.append_nil]
  refine ⟨h.begun_of_eq (Nat.le_of_succ_le hindex) hsame, fun c hc => ?_, fun _ => .inr ?_, ?_,
    fun c hc => ?_, ?_⟩
  · simp [Moment.follow, hnone'] at hc
  · rw [hsame]
    exact hleft.mono (fun l hl => Nat.lt_succ_of_le (h.begun l hl)) (Nat.le_succ_of_le hindex)
  -- functions that were recorded keep the class lines in front of them
  · rw [hsame, Moment.functionLines_eq]
    simp only [Moment.follow, List.filterMap_append, List.map_append]
    intro n hn
    rcases List.mem_append.mp hn with hold | hnew
    · rw [← Moment.functionLines_eq] at hold
      obtain ⟨hle, hbehind⟩ := h.functions n hold
      exact ⟨by omega, hbehind⟩
    · obtain ⟨r, hr, rfl⟩ := List.mem_map.mp hnew
      rw [hfunctions r hr]
      exact ⟨by omega, hleft⟩
  · simp [Moment.follow, hnone'] at hc
  · simp only [Moment.follow, List.filterMap_append, hclasses, List.append_nil]
    exact h.classes

/-- A class is opened on the line. -/
theorem opens (h : Tracks file m) (hnone : m.scan.scope = none) (hsome : s'.scope = some c)
    (hline : c.record.line = m.index + 1) (hmethods : c.record.methods = []) :
    Tracks file (m.follow (.done s' [] further)) := by
  have hindex : m.index + 1 ≤ (m.follow (.done s' [] further)).index := by
    simp only [Moment.follow]
    omega
  -- the class is listed while it is open, so its line comes behind all others
  have hmore : (m.follow (.done s' [] further)).classLines = m.classLines ++ [m.index + 1] := by
    simp only [Moment.classLines_eq, Moment.follow, hnone, hsome, List.append_nil,
      Option.map_none, Option.toList_none, Option.map_some, Option.toList_some, hline]
  have hfunctions : (m.follow (.done s' [] further)).functionLines = m.functionLines := by
    simp only [Moment.functionLines_eq, Moment.follow, List.append_nil]
  have hbound : ∀ l ∈ m.classLines ++ [m.index + 1], l ≤ m.index + 1 := by
    intro l hl
    rcases List.mem_append.mp hl with hold | hnew
    · exact Nat.le_succ_of_le (h.begun l hold)
    · exact Nat.le_of_eq (List.mem_singleton.mp hnew)
  have hscope : ∀ d, (m.follow (.done s' [] further)).scan.scope = some d → d = c := by
    intro d hd
    simp only [Moment.follow, hsome, Option.some.injEq] at hd
    exact hd.symm
  refine ⟨?_, fun d hd => ?_, fun hd => ?_,
    h.functions_of_eq (Nat.le_of_succ_le hindex) (.inr hmore) hfunctions, fun d hd => ?_, ?_⟩
  · rw [hmore]
    exact fun l hl => Nat.le_trans (hbound l hl) hindex
  · rw [hmore, hscope d hd, hline]
    exact hbound
  · simp [Moment.follow, hsome] at hd
  · rw [hscope d hd, hmethods]
    exact fun f hf => by simp at hf
  · simp only [Moment.follow, List.append_nil]
    exact h.classes

/-- A line of a class is passed; the class stays open. -/
theorem stays (h : Tracks file m) (hsome : m.scan.scope = some c) (hsome' : s'.scope = some c')
    (hopening : c'.opening = c.opening) (hmethods : MethodsDeeper file c.indent c'.record.methods) :
    Tracks file (m.follow (.done s' [] further)) := by
  have hline : c'.record.line = c.record.line := congrArg (·.record.line) hopening
  have hindent : c'.indent = c.indent := congrArg ClassOpening.indent hopening
  have hindex : m.index ≤ (m.follow (.done s' [] further)).index := by
    simp only [Moment.follow]
    omega
  -- a class that stays open keeps its line in the list
  have hsame : (m.follow (.done s' [] further)).classLines = m.classLines := by
    simp only [Moment.classLines_eq, Moment.follow, hsome, hsome', List.append_nil,
      Option.map_some, hline]
  have hfunctions : (m.follow (.done s' [] further)).functionLines = m.functionLines := by
    simp only [Moment.functionLines_eq, Moment.follow, List.append_nil]
  have hscope : ∀ d, (m.follow (.done s' [] further)).scan.scope = some d → d = c' := by
    intro d hd
    simp only [Moment.follow, hsome', Option.some.injEq] at hd
    exact hd.symm
  refine ⟨h.begun_of_eq hindex hsame, fun d hd => ?_, fun hd => ?_,
    h.functions_of_eq hindex (.inl hsame) hfunctions, fun d hd => ?_, ?_⟩
  · rw [hsame, hscope d hd, hline]
    exact h.newest c hsome
  · simp [Moment.follow, hsome'] at hd
  · rw [hscope d hd, hindent]
    exact hmethods
  · simp only [Moment.follow, List.append_nil]
    exact h.classes

/-- A class is left, and its line is read again outside of it. -/
theorem leaves (h : Tracks file m) (hsome : m.scan.scope = some c) (stop : Nat)
    (hindent : c.indent = Text.indentation (lineAt file c.record.line))
    (hleft : ReadsClass (file.drop m.index) ∨ LeftBehind file m.classLines (m.index + 1)) :
    Tracks file (m.follow (.again m.scan.leaveClass [.closed { c with stop := stop }])) := by
  generalize hnext : m.follow (.again m.scan.leaveClass [.closed { c with stop := stop }]) = m'
  have hindex : m'.index = m.index := by rw [← hnext]; rfl
  have hnone : m'.scan.scope = none := by rw [← hnext]; rfl
  have hitems : m'.items = m.items ++ [.closed { c with stop := stop }] := by rw [← hnext]; rfl
  -- the class is the same one, recorded now and not open any more
  have hsame : m'.classLines = m.classLines := by
    rw [Moment.classLines_eq, Moment.classLines_eq, hnone, hsome, hitems, List.filterMap_append,
      List.map_append]
    exact List.append_nil _
  have hfunctions : m'.functionLines = m.functionLines := by
    rw [Moment.functionLines_eq, Moment.functionLines_eq, hitems, List.filterMap_append,
      List.map_append]
    exact List.append_nil _
  refine ⟨h.begun_of_eq (Nat.le_of_eq hindex.symm) hsame, fun d hd => ?_, fun _ => ?_,
    h.functions_of_eq (Nat.le_of_eq hindex.symm) (.inl hsame) hfunctions, fun d hd => ?_, ?_⟩
  · simp [hnone] at hd
  · rw [hindex, hsame]
    exact hleft
  · simp [hnone] at hd
  · rw [hitems, List.filterMap_append]
    refine List.forall_mem_append.mpr ⟨h.classes, ?_⟩
    intro r hr
    have hclosed : r = { c with stop := stop }.finish := List.mem_singleton.mp hr
    rw [hclosed]
    show MethodsDeeper file (Text.indentation (lineAt file c.record.line)) c.record.methods
    rw [← hindent]
    exact h.methods c hsome

end Tracks

/-! ## Calls -/

variable {path : String} {file : List Line} {m : Moment} {c : ClassScope}

theorem exists_openClass_eq (s : Scan) (head : ClassHead) (at_ : Nat) (ls : List Line) :
    ∃ doc further, openClass s head at_ ls =
      .done { s with scope := some (openedScope s head at_ ls doc further),
                     pending := s.pending.dropDecorators } [] further := by
  unfold openClass
  cases Docstring.within? (Text.indentation (ls.headD [])) (ls.drop 1) with
  | none => exact ⟨_, _, rfl⟩
  | some d => exact ⟨_, _, rfl⟩

/-- Outside classes the header of a class opens it. -/
theorem exists_next_of_readsClass (hfamily : m.scan.family = .indent)
    (hnone : m.scan.scope = none) (hreads : ReadsClass (file.drop m.index)) :
    ∃ head doc further, m.next file = m.follow
      (.done { m.scan with
          scope := some (openedScope m.scan head m.index (file.drop m.index) doc further),
          pending := m.scan.pending.dropDecorators } [] further) := by
  obtain ⟨head, hstep⟩ := outsideStep_of_readsClass hreads m.scan m.index
  obtain ⟨doc, further, hopen⟩ := exists_openClass_eq m.scan head m.index (file.drop m.index)
  exact ⟨head, doc, further, by rw [next_eq_of_outside hfamily hnone, hstep, hopen]⟩

theorem tracks_outside (h : Tracks file m) (hfamily : m.scan.family = .indent)
    (hnone : m.scan.scope = none) : Tracks file (m.next file) := by
  rcases h.left hnone with hreads | hleft
  · -- the line that ended the last class is the header of the next one
    obtain ⟨head, doc, further, hnext⟩ := exists_next_of_readsClass hfamily hnone hreads
    rw [hnext]
    exact h.opens hnone rfl rfl rfl
  · obtain ⟨step, hcase, hnext⟩ := next_outside file hfamily hnone
    rw [hnext]
    cases hcase with
    | silent | docstring | decorator | nothing =>
      exact h.passes hnone hleft hnone rfl fun r hr => by simp at hr
    -- exports and imports are neither classes nor functions
    | exports =>
      refine h.passes hnone hleft hnone ?_ fun r hr => ?_
      · simp [List.filterMap_map, Function.comp_def, Item.class?]
      · simp [List.filterMap_map, Function.comp_def, Item.function?] at hr
    | imports =>
      refine h.passes hnone hleft hnone ?_ fun r hr => ?_
      · simp [List.filterMap_map, Function.comp_def, Item.class?]
      · simp [List.filterMap_map, Function.comp_def, Item.function?] at hr
    | classHead => exact h.opens hnone rfl rfl rfl
    | function =>
      refine h.passes hnone hleft hnone rfl fun r hr => ?_
      rw [List.mem_singleton.mp hr]
      rfl
    | constant => exact h.passes hnone hleft hnone rfl fun r hr => by simp [Item.function?] at hr

/-- Where a line ends the class that is open, the class is left behind. -/
theorem leftBehind_of_closesClass (h : Tracks file m) (hsome : m.scan.scope = some c)
    (hindent : c.indent = Text.indentation (lineAt file c.record.line))
    (hcloses : closesClass c.indent (lineAt file (m.index + 1)) = true) :
    LeftBehind file m.classLines (m.index + 1) := by
  intro l hl hlt hlast hbody
  have hmem : c.record.line ∈ m.classLines := by
    rw [Moment.classLines_eq, hsome]
    exact List.mem_append_right _ (List.mem_singleton.mpr rfl)
  have hge := hlast _ hmem (Nat.lt_succ_of_le (h.begun _ hmem))
  have hle := h.newest c hsome l hl
  obtain rfl : l = c.record.line := Nat.le_antisymm hle hge
  obtain ⟨hsolid, hout⟩ := outdented_of_closesClass hcloses
  rcases hbody.deeper _ hlt (Nat.le_refl _) with hblank | hdeeper
  · rw [hblank] at hsolid
    cases hsolid
  · omega

/-- The class that is open knows the indentation of its line. -/
theorem indent_of_hasOrigin (h : c.HasOrigin path .indent file) :
    c.indent = Text.indentation (lineAt file c.record.line) := by
  obtain ⟨i, head, doc, decorators, -, hopening⟩ := h.opened
  have hline : c.record.line = i + 1 := congrArg (·.record.line) hopening
  have hindent : c.indent = Text.indentation ((file.drop i).headD []) :=
    congrArg ClassOpening.indent hopening
  rw [hline, lineAt_succ, hindent]

theorem tracks_inside (h : Tracks file m) (hfamily : m.scan.family = .indent)
    (hsome : m.scan.scope = some c) (horigin : c.HasOrigin path .indent file) :
    Tracks file (m.next file) := by
  have hindent := indent_of_hasOrigin horigin
  have hmethods := h.methods c hsome
  obtain ⟨step, hcase, hnext⟩ := next_inside file hfamily hsome
  rw [hnext]
  cases hcase with
  | silent | docstring | decorator | nothing => exact h.stays hsome rfl rfl hmethods
  | closes hcloses =>
    rw [← lineAt_succ] at hcloses
    exact h.leaves hsome c.stop hindent (.inr (leftBehind_of_closesClass h hsome hindent hcloses))
  | classHead hit hspeaks hcode _ =>
    refine h.leaves hsome m.index hindent (.inl ⟨hspeaks, hcode, ?_⟩)
    exact ⟨_, classDeclaration?_of_inside hit⟩
  | function hit hkeeps =>
    refine h.stays hsome rfl (opening_addMethod _ _ _ _ _) fun f hf hdef => ?_
    rw [methods_addMethod] at hf
    rcases List.mem_append.mp hf with hold | hnew
    · exact hmethods f hold hdef
    · -- the method that is added stands on the line, which did not end the class
      have hline : f.line = m.index + 1 := by
        rw [List.mem_singleton.mp hnew]
        rfl
      rw [hline] at hdef ⊢
      rw [← lineAt_succ] at hkeeps
      exact lt_indentation_of_beginsDef hkeeps hdef
  | property =>
    refine h.stays hsome rfl (ClassScope.opening_addProperty _ _) ?_
    rw [ClassScope.addProperty_methods]
    exact hmethods

/-- At every moment of a scan. -/
theorem tracks_of_reached (h : Moment.Reached file (.start path .indent) m) : Tracks file m := by
  induction h with
  | first =>
    exact ⟨fun l hl => by simp [Moment.start, Moment.classLines, Moment.allItems] at hl,
      fun c hc => by simp [Moment.start] at hc,
      fun _ => .inr fun l hl => by simp [Moment.start, Moment.classLines, Moment.allItems] at hl,
      fun n hn => by simp [Moment.start, Moment.functionLines, Moment.allItems] at hn,
      fun c hc => by simp [Moment.start] at hc, fun r hr => by simp [Moment.start] at hr⟩
  | @next m hreached hlt ih =>
    have hfamily := hreached.sameFile.2
    cases hscope : m.scan.scope with
    | none => exact tracks_outside ih hfamily hscope
    | some c => exact tracks_inside ih hfamily hscope (hreached.allOrigin.scope c hscope)

/-! ## Outlines -/

/-- Of the lines in front of line `n` there is a last one. -/
theorem exists_last_lt {lines : List Nat} {l n : Nat} (hl : l ∈ lines) (hlt : l < n) :
    ∃ k ∈ lines, k < n ∧ ∀ l' ∈ lines, l' < n → l' ≤ k := by
  have hspec :=
    Nat.findGreatest_spec (P := fun k => k ∈ lines ∧ k < n) (Nat.le_of_lt hlt) ⟨hl, hlt⟩
  exact ⟨_, hspec.1, hspec.2, fun l' hl' hlt' => Nat.le_findGreatest (Nat.le_of_lt hlt') ⟨hl', hlt'⟩⟩

/-- What of class membership follows from indentation. -/
structure FollowsIndentation (file : List Line) (o : Outline) : Prop where
  /-- a method whose line begins a definition is indented deeper than the line of its class -/
  methods : ∀ c ∈ o.classes, ∀ f ∈ c.methods, beginsDef (lineAt file f.line) = true →
    Text.indentation (lineAt file c.line) < Text.indentation (lineAt file f.line)
  /-- a function that stands in the body of a class stands behind a class that is nested in
  that body and is over -/
  functions : ∀ f ∈ o.functions, ∀ c ∈ o.classes, InBody file c.line f.line →
    ∃ c' ∈ o.classes, InBody file c.line c'.line ∧ c'.line < f.line ∧
      ¬ InBody file c'.line f.line

/-- Every method that is written as one is indented deeper than its class, and a function
stands in the body of a class only behind a nested class. -/
theorem membership_build (path : String) (content : List Char) :
    FollowsIndentation (Text.lines content) (Outline.build path content .indent) := by
  have hholds := Outline.holds_build path content .indent
  generalize Outline.build path content .indent = o at hholds ⊢
  generalize Text.lines content = file at hholds ⊢
  have hreached := Moment.reached_last path .indent file
  have htracks := tracks_of_reached hreached
  constructor
  · intro c hc
    rw [hholds.classes, Moment.allItems, List.filterMap_append] at hc
    rcases List.mem_append.mp hc with hrecorded | hopen
    · exact htracks.classes c hrecorded
    · -- the end of the file closed the class
      cases hscope : (Moment.last path .indent file).scan.scope with
      | none => simp [hscope] at hopen
      | some scope =>
        rw [hscope] at hopen
        rw [List.mem_singleton.mp hopen]
        have hindent := indent_of_hasOrigin (hreached.allOrigin.scope scope hscope)
        have hmethods := htracks.methods scope hscope
        rw [hindent] at hmethods
        exact hmethods
  · intro f hf c hc hbody
    have hclasses : o.classes.map (·.line) = (Moment.last path .indent file).classLines := by
      rw [hholds.classes, Moment.classLines]
    have hfunctions : o.functions.map (·.line) = (Moment.last path .indent file).functionLines := by
      rw [hholds.functions, Moment.functionLines]
    have hmem : c.line ∈ o.classes.map (·.line) := List.mem_map_of_mem hc
    obtain ⟨k, hk, hlt, hlast⟩ := exists_last_lt hmem hbody.behind
    have hline : f.line ∈ (Moment.last path .indent file).functionLines := by
      rw [← hfunctions]
      exact List.mem_map_of_mem hf
    have hbehind := (htracks.functions _ hline).2
    rw [← hclasses] at hbehind
    have hout := hbehind k hk hlt hlast
    obtain ⟨c', hc', rfl⟩ := List.mem_map.mp hk
    refine ⟨c', hc', hbody.mono ?_ (Nat.le_of_lt hlt), hlt, hout⟩
    -- the last class is another one, because the function is in the body of the first
    refine Nat.lt_of_le_of_ne (hlast _ hmem hbody.behind) fun heq => hout ?_
    rw [← heq]
    exact hbody

/-- A class with a method, a class inside of it and a method behind that. -/
def nestedClass : List Char :=
  "class Outer:\n    def a(self):\n        pass\n    class Inner:\n        x = 1\n    def m(self):\n        pass\n".toList

def nestedOutline : Outline := Outline.build "a.py" nestedClass .indent

/-- In this class the first method is one of the class, and the one behind the nested class
is read outside of it. -/
theorem membership_nestedClass :
    (∃ c ∈ nestedOutline.classes, ∃ f ∈ c.methods,
      beginsDef (lineAt (Text.lines nestedClass) f.line) = true ∧
        Text.indentation (lineAt (Text.lines nestedClass) c.line) <
          Text.indentation (lineAt (Text.lines nestedClass) f.line)) ∧
    ∃ f ∈ nestedOutline.functions, ∃ c ∈ nestedOutline.classes,
      InBody (Text.lines nestedClass) c.line f.line ∧
        ∃ c' ∈ nestedOutline.classes, InBody (Text.lines nestedClass) c.line c'.line ∧
          c'.line < f.line ∧ ¬ InBody (Text.lines nestedClass) c'.line f.line := by
  have hfollows : FollowsIndentation (Text.lines nestedClass) nestedOutline :=
    membership_build "a.py" nestedClass
  have hmethod : ∃ c ∈ nestedOutline.classes, ∃ f ∈ c.methods,
      beginsDef (lineAt (Text.lines nestedClass) f.line) = true := by
    decide +kernel
  have hfunction : ∃ f ∈ nestedOutline.functions, ∃ c ∈ nestedOutline.classes,
      InBody (Text.lines nestedClass) c.line f.line := by
    decide +kernel
  constructor
  · obtain ⟨c, hc, f, hf, hdef⟩ := hmethod
    exact ⟨c, hc, f, hf, hdef, hfollows.methods c hc f hf hdef⟩
  · obtain ⟨f, hf, c, hc, hbody⟩ := hfunction
    exact ⟨f, hf, c, hc, hbody, hfollows.functions f hf c hc hbody⟩

/-- A class, and a definition of the file with two blanks between its keywords. -/
def spacedAsync : List Char := "class A:\n    x = 1\nasync  def f():\n    pass\n".toList

def spacedOutline : Outline := Outline.build "a.py" spacedAsync .indent

/-- A method that stands behind a nested class is a function of the file, though it stands in
the body of its class; and a definition of the file that is not written as a class expects it
is a method, though it is not indented. -/
theorem membership_against_indentation :
    (∃ f ∈ nestedOutline.functions, ∃ c ∈ nestedOutline.classes,
      InBody (Text.lines nestedClass) c.line f.line) ∧
    ∃ c ∈ spacedOutline.classes, ∃ f ∈ c.methods,
      ¬ Text.indentation (lineAt (Text.lines spacedAsync) c.line) <
        Text.indentation (lineAt (Text.lines spacedAsync) f.line) := by
  constructor
  · decide +kernel
  · decide +kernel

end Indent

end CodeAtlas
