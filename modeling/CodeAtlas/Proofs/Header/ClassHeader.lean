/-
Headers of classes.

A class has words in front of its name, type parameters, a base with type arguments, and
interfaces. Its words and its name are read as they are written. The clauses are looked for
behind the first closing angle bracket of the parameters, and the interfaces behind the first
one of the arguments of the base: they are read where that bracket is the last one, and lost
where the arguments are nested (`ClassText.ReadsClauses`).
-/
import CodeAtlas.Proofs.Header.TypeHeader

set_option autoImplicit false

namespace CodeAtlas.Brace

open Pattern

/-! ## Headers as they are written -/

/-- The type that a class extends. -/
structure BaseText where
  name : List Char
  args : List (List Char)
  isName : IsNameOf Text.isNameStart (fun c => Text.isNameChar c || c = '.') name
  isArgs : ∀ t ∈ args, IsType t

/-- The header of a class. -/
structure ClassText where
  exported : Bool
  byDefault : Bool
  abstracted : Bool
  name : List Char
  params : List (List Char)
  base : Option BaseText
  interfaces : List (List Char)
  isName : IsNameOf Text.isNameStart Text.isNameChar name
  isParams : ∀ t ∈ params, IsType t
  isInterfaces : ∀ t ∈ interfaces, IsType t

namespace ClassText

variable (x : ClassText)

/-- The type arguments of the base. -/
def args : List (List Char) := (x.base.map BaseText.args).getD []

/-- The header behind the base. -/
def fromInterfaces : List Char := listClause "implements" x.interfaces ++ " \x7b".toList

/-- The header behind the parameters. -/
def fromBase : List Char :=
  match x.base with
  | none => x.fromInterfaces
  | some b => clause "extends" (b.name ++ (angled b.args ++ x.fromInterfaces))

def text : List Char :=
  wordIf x.exported "export" ++ (wordIf x.byDefault "default" ++ (wordIf x.abstracted "abstract" ++
    ("class ".toList ++ (x.name ++ (angled x.params ++ x.fromBase)))))

end ClassText

/-! ## The header as it is read -/

def extendsClause : Pattern :=
  opt (keptClause "extends" .base Text.isNameStart (fun c => Text.isNameChar c || c = '.') ++
    typeArguments)

def implementsClause : Pattern :=
  opt (keptClause "implements" .bases (noneOf "\x7b") (noneOf "\x7b"))

/-- The header of a class up to its name. -/
def classFront : Pattern :=
  flag .exported "export" ++ flag .byDefault "default" ++ opt (word "declare") ++
    flag .abstracted "abstract" ++ word "class" ++ keep .name name

theorem classHeader_eq :
    classHeader = classFront ++ (typeArguments ++ (extendsClause ++ implementsClause)) := rfl

namespace ClassText

variable (x : ClassText)

theorem follows_fromInterfaces : Follows x.fromInterfaces :=
  follows_listClause (by decide) (by decide) x.interfaces

theorem follows_fromBase : Follows x.fromBase := by
  rw [fromBase]
  split
  · exact x.follows_fromInterfaces
  · exact ⟨'e', _, rfl, by decide, by decide⟩

/-- What is read of the base and of the interfaces: nothing is lost up to arguments with a
closing angle bracket inside, and nothing is found behind them. -/
structure ReadsClauses (base : Option String) (interfaces : List String) : Prop where
  base_eq : '>' ∉ listed x.params → base = x.base.map fun b => textOf b.name
  interfaces_eq : '>' ∉ listed x.params → '>' ∉ listed x.args →
    interfaces = x.interfaces.map textOf
  behindParams : '>' ∈ listed x.params → GoesOnPlainly (listed x.params) →
    base = none ∧ interfaces = []
  behindArgs : '>' ∉ listed x.params → '>' ∈ listed x.args → GoesOnPlainly (listed x.args) →
    interfaces = []

theorem not_goesOnWith_fromInterfaces : ¬ GoesOnWith "extends" x.fromInterfaces := by
  rw [fromInterfaces, listClause]
  split
  · exact not_goesOnWith_brace (by decide) (by decide)
  · exact not_goesOnWith_clause (by decide) (by decide)

/-- The base is found in front of the interfaces. -/
theorem exists_finds_extends {m : Spot} (hexact : m.Exact) (hm : m.rest = x.fromBase) :
    ∃ m' ms, Finds extendsClause m m' ms ∧ Keeps .base (x.base.map BaseText.name) ms ∧
      m'.rest = behindAngle x.args x.fromInterfaces := by
  rw [fromBase] at hm
  cases hbase : x.base with
  | none =>
    rw [hbase] at hm
    have hnone : ¬ GoesOnWith "extends" m.rest := by
      rw [hm]
      exact x.not_goesOnWith_fromInterfaces
    refine ⟨m, [], finds_clause_nothing hnone, .nothing, ?_⟩
    rw [hm, args, hbase]
    rfl
  | some b =>
    rw [hbase] at hm
    have hblack : b.name.head?.any Text.isBlankChar = false := by
      obtain ⟨c, v, hname, hc, -⟩ := b.isName
      rw [hname]
      exact Text.isBlankChar_of_isNameChar (Text.isNameChar_of_isNameStart hc)
    have hrest : (angled b.args ++ x.fromInterfaces).head?.any
        (fun c => Text.isNameChar c || c = '.') = false :=
      head?_angled rfl rfl x.follows_fromInterfaces
    obtain ⟨m₁, ms, hclause, hkeeps, hm₁⟩ :=
      exists_finds_clause (s := .base) b.isName hblack hrest (by decide) hexact hm
    obtain ⟨m₂, hargs, hm₂⟩ :=
      exists_finds_typeArguments b.isArgs hm₁ x.follows_fromInterfaces
    have hall := (hclause.append hargs).opt
    rw [List.append_nil] at hall
    refine ⟨m₂, ms, hall, hkeeps, ?_⟩
    rw [hm₂, args, hbase]
    rfl

/-- Behind what `extends` leaves, the interfaces are looked for. -/
theorem exists_run_clauses {m m' : Spot} {ms : List (Slot × Spot)} {kept : Option (List Char)}
    (hexact : m.Exact) (hfinds : Finds extendsClause m m' ms) (hkeeps : Keeps .base kept ms) :
    ∃ r, (extendsClause ++ implementsClause).run (fun m => some (.done m)) m = some r ∧
      r.part? .base = kept ∧
      (m'.rest = x.fromInterfaces → r.part? .bases = keptList x.interfaces) ∧
      (¬ GoesOnWith "implements" m'.rest → r.part? .bases = none) := by
  obtain ⟨r, hrun, hread, hnone⟩ := exists_run_listClause (w := "implements") (by decide)
    (by decide) x.isInterfaces (hfinds.matches.exact hexact)
  have hbases : Slot.bases ∉ ms.map (·.1) := by
    cases hkeeps <;> simp
  have hbase : Slot.base ∉ r.marks.map (·.1) := mt (mem_slots_of_run hrun) (by decide)
  refine ⟨Match.after ms r, ?_, ?_, ?_, ?_⟩
  · rw [run_append]
    exact hfinds hrun
  · exact hkeeps.part? (u := []) rfl (by simp) hbase
  · intro hm'
    rw [Match.part?_after hbases, hread hm']
  · intro hm'
    rw [Match.part?_after hbases, hnone hm']

/-- The clauses as they are read behind the parameters. -/
theorem exists_run_fromBase {m : Spot} (hexact : m.Exact)
    (hm : m.rest = behindAngle x.params x.fromBase) :
    ∃ r, (extendsClause ++ implementsClause).run (fun m => some (.done m)) m = some r ∧
      x.ReadsClauses ((r.part? .base).map textOf) (typeList (r.part? .bases)) := by
  -- a closing bracket in the parameters ends them too soon, and what is left is no clause
  by_cases hparams : '>' ∈ listed x.params
  · obtain ⟨u, v, hsplit, hu, hbehind⟩ := behindAngle_of_mem hparams
    -- both clauses are optional, so that they are read in any case
    have htotal := (total_opt (keptClause "extends" .base Text.isNameStart
      (fun c => Text.isNameChar c || c = '.') ++ typeArguments)).append
      (total_opt (keptClause "implements" .bases (noneOf "\x7b") (noneOf "\x7b")))
    obtain ⟨r, hr⟩ := Option.isSome_iff_exists.mp
      (htotal (k := fun m => some (.done m)) (fun _ => rfl) m)
    refine ⟨r, hr, ?_⟩
    constructor
    · exact fun h => absurd hparams h
    · exact fun h => absurd hparams h
    · intro _ hplain
      obtain ⟨hextends, himplements⟩ := hplain u v hsplit hu
      rw [hbehind] at hm
      have hextends : ¬ GoesOnWith "extends" m.rest := by
        rw [hm]
        exact fun h => hextends (h.of_append_angle (by decide))
      have himplements : ¬ GoesOnWith "implements" m.rest := by
        rw [hm]
        exact fun h => himplements (h.of_append_angle (by decide))
      obtain ⟨r', hr', hbase, -, hbases⟩ :=
        x.exists_run_clauses hexact (finds_clause_nothing hextends) .nothing
      obtain rfl := Option.some.inj (hr'.symm.trans hr)
      rw [hbase, hbases himplements]
      exact ⟨rfl, rfl⟩
    · exact fun h => absurd hparams h
  · rw [behindAngle_of_not_mem hparams] at hm
    obtain ⟨m', ms, hfinds, hkeeps, hm'⟩ := x.exists_finds_extends hexact hm
    obtain ⟨r, hr, hbase, hread, hnone⟩ := x.exists_run_clauses hexact hfinds hkeeps
    refine ⟨r, hr, ?_⟩
    constructor
    · intro _
      rw [hbase, Option.map_map]
      rfl
    · intro _ hargs
      rw [behindAngle_of_not_mem hargs] at hm'
      rw [hread hm', typeList_keptList x.isInterfaces]
    · exact fun h => absurd h hparams
    · intro _ hargs hplain
      obtain ⟨u, v, hsplit, hu, hbehind⟩ := behindAngle_of_mem hargs
      have himplements : ¬ GoesOnWith "implements" m'.rest := by
        rw [hm', hbehind]
        exact fun h => (hplain u v hsplit hu).2 (h.of_append_angle (by decide))
      rw [hnone himplements]
      rfl

/-! What is left of the header from a word on. -/

def fromName : List Char := x.name ++ (angled x.params ++ x.fromBase)

def fromClass : List Char := "class ".toList ++ x.fromName

def fromAbstract : List Char := wordIf x.abstracted "abstract" ++ x.fromClass

def fromDefault : List Char := wordIf x.byDefault "default" ++ x.fromAbstract

/-- The words and the name are found as they are written. -/
theorem exists_finds_front : ∃ m ms, Finds classFront (.start x.text) m ms ∧
    m.rest = angled x.params ++ x.fromBase ∧
    ∀ r : Match, (Match.after ms r).part .name = x.name ∧
      (r.has .exported = false → (Match.after ms r).has .exported = x.exported) ∧
      (r.has .byDefault = false → (Match.after ms r).has .byDefault = x.byDefault) ∧
      (r.has .abstracted = false → (Match.after ms r).has .abstracted = x.abstracted) := by
  have hclass : IsWord "class" "class ".toList := isWord_space "class"
  have hexported := mayBeWord_wordIf x.exported "export"
  have hdefault := mayBeWord_wordIf x.byDefault "default"
  have habstracted := mayBeWord_wordIf x.abstracted "abstract"
  have hbegins : Begins ["class"] x.fromClass := hclass.begins _
  have hbegins' : Begins ["abstract", "class"] x.fromAbstract := hbegins.mayBeWord habstracted
  have hbegins'' : Begins ["default", "abstract", "class"] x.fromDefault :=
    hbegins'.mayBeWord hdefault
  have hends : (angled x.params ++ x.fromBase).head?.any Text.isNameChar = false :=
    head?_angled rfl rfl x.follows_fromBase
  -- one spot behind each word
  let m₁ := (Spot.start x.text).behind (wordIf x.exported "export") x.fromDefault
  let m₂ := m₁.behind (wordIf x.byDefault "default") x.fromAbstract
  let m₃ := m₂.behind (wordIf x.abstracted "abstract") x.fromClass
  let m₄ := m₃.behind "class ".toList x.fromName
  have h₁ : Finds (flag .exported "export") (.start x.text) m₁ _ :=
    finds_flag hexported rfl (hbegins''.head? (by decide)) (hbegins''.after? (by decide))
  have h₂ : Finds (flag .byDefault "default") m₁ m₂ _ :=
    finds_flag hdefault rfl (hbegins'.head? (by decide)) (hbegins'.after? (by decide))
  have hdeclared : Finds (opt (word "declare")) m₂ m₂ [] :=
    finds_opt_nothing fun _ => run_append_of_lit (m := m₂) (hbegins'.after? (by decide))
  have h₃ : Finds (flag .abstracted "abstract") m₂ m₃ _ :=
    finds_flag habstracted rfl (hbegins.head? (by decide)) (hbegins.after? (by decide))
  have h₄ : Finds (word "class") m₃ m₄ [] :=
    finds_word hclass rfl (isBlankChar_head?_of_isName x.isName)
  have hname := (finds_name (m := m₄) x.isName rfl hends).keep .name
  have hwords := (((h₁.append h₂).append hdeclared).append h₃).append h₄
  refine ⟨_, _, hwords.append hname, rfl, ?_⟩
  intro r
  refine ⟨?_, ?_, ?_, ?_⟩
  · refine part_of_marks (a := m₄) ?_ (mt hwords.matches.mem_slots (by decide))
      (hwords.matches.exact rfl) rfl
    exact List.prefix_append _ _
  all_goals
    intro hnone
    rw [Match.has] at hnone
    simp [Match.has, Match.after, hnone, any_wordMarks]

/-- The header of a class is read with its name and its words, and with its clauses as far as
they can be found. -/
theorem exists_classDeclaration? {ls : List Line} (h : firstTrimmed ls = x.text) :
    ∃ base interfaces, classDeclaration? ls = some (.classHead
      { name := textOf x.name, base, interfaces, isAbstract := x.abstracted,
        exported := x.exported, defaultExport := x.byDefault }) ∧
      x.ReadsClauses base interfaces := by
  obtain ⟨m, ms, hfront, hm, hwords⟩ := x.exists_finds_front
  obtain ⟨m₁, hparams, hm₁⟩ := exists_finds_typeArguments x.isParams hm x.follows_fromBase
  have hexact : m₁.Exact := hparams.matches.exact (hfront.matches.exact rfl)
  obtain ⟨r, hrun, hreads⟩ := x.exists_run_fromBase hexact hm₁
  obtain ⟨hname, hexported, hdefault, habstracted⟩ := hwords r
  have hmatch : classHeader.match? (firstTrimmed ls) = some (Match.after ms r) := by
    rw [h, match?_eq_run, classHeader_eq, run_append]
    refine hfront ?_
    rw [run_append, hparams hrun]
    simp [Match.after]
  have hnone : ∀ s, s ∉ slots (extendsClause ++ implementsClause) → r.has s = false :=
    fun s hs => has_eq_false_of_run hrun hs
  -- the words in front have no marks of the clauses, nor the clauses of the words
  have hclauses : ∀ s, s ∈ slots (extendsClause ++ implementsClause) →
      (Match.after ms r).part? s = r.part? s := by
    intro s hs
    refine Match.part?_after (mt hfront.matches.mem_slots ?_) r
    have hapart : ∀ s ∈ slots (extendsClause ++ implementsClause), s ∉ slots classFront := by
      decide
    exact hapart s hs
  refine ⟨_, _, ?_, hreads⟩
  simp only [classDeclaration?, hmatch, hname, hexported (hnone _ (by decide)),
    hdefault (hnone _ (by decide)), habstracted (hnone _ (by decide)),
    hclauses .base (by decide), hclauses .bases (by decide), Option.bind_eq_bind,
    Option.bind_some]
  rfl

end ClassText

end CodeAtlas.Brace
