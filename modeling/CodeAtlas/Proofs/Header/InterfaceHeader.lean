/-
Headers of interfaces.

An interface has type parameters and bases. Its parameters are kept up to the first closing
angle bracket, so that they are what is written exactly if none of them has one. The bases are
read behind that bracket.

The pattern takes all blanks behind the name before it looks for parameters. Where there are
none, the blank in front of `extends` is gone, and the clause is not found.
-/
import CodeAtlas.Proofs.Header.ClassHeader

set_option autoImplicit false

namespace CodeAtlas.Brace

open Pattern

/-! ## Headers as they are written -/

/-- The header of an interface. -/
structure InterfaceText where
  exported : Bool
  name : List Char
  params : List (List Char)
  bases : List (List Char)
  isName : IsNameOf Text.isNameStart Text.isNameChar name
  isParams : ∀ t ∈ params, IsType t
  isBases : ∀ t ∈ bases, IsType t

namespace InterfaceText

variable (x : InterfaceText)

/-- The header behind the parameters. -/
def fromBases : List Char := listClause "extends" x.bases ++ " \x7b".toList

def text : List Char :=
  wordIf x.exported "export" ++
    ("interface ".toList ++ (x.name ++ (angled x.params ++ x.fromBases)))

end InterfaceText

/-! ## The header as it is read -/

/-- The header of an interface up to its name. -/
def interfaceFront : Pattern :=
  flag .exported "export" ++ opt (word "default") ++ opt (word "declare") ++ word "interface" ++
    keep .name name

def keptParams : Pattern :=
  opt (lit "<" ++ keep .params (few (noneOf "\x7b")) ++ lit ">")

def extendsList : Pattern :=
  opt (keptClause "extends" .bases (noneOf "\x7b") (noneOf "\x7b"))

theorem interfaceHeader_eq :
    interfaceHeader = interfaceFront ++ (blanks ++ (keptParams ++ extendsList)) := rfl

namespace InterfaceText

variable (x : InterfaceText)

/-- What is read of the parameters and the bases. -/
structure ReadsTypes (params bases : List String) : Prop where
  params_eq_iff : params = x.params.map textOf ↔ '>' ∉ listed x.params
  bases_eq : '>' ∉ listed x.params → x.params ≠ [] → bases = x.bases.map textOf
  withoutParams : x.params = [] → bases = []
  behindParams : '>' ∈ listed x.params → GoesOnPlainly (listed x.params) → bases = []

theorem follows_fromBases : Follows x.fromBases :=
  follows_listClause (by decide) (by decide) x.bases

/-- The parameters are kept as they are written exactly if none has a closing angle bracket. -/
theorem typeList_params_iff {u : List Char} (hu : '>' ∉ u)
    (hwhole : '>' ∉ listed x.params → u = listed x.params) :
    typeList (some u) = x.params.map textOf ↔ '>' ∉ listed x.params := by
  constructor
  · intro hsame hmem
    have htexts : splitOuter ',' u = x.params :=
      List.map_injective_iff.mpr (fun _ _ => String.ofList_injective) hsame
    obtain ⟨t, ht, hangle⟩ := mem_of_mem_listed (by decide) (by decide) hmem
    rw [← htexts] at ht
    exact hu ((sublist_of_mem_splitOuter ht).subset hangle)
  · intro hnone
    have hsplit := splitOuter_listed (fun t ht => (x.isParams t ht).toIsPiece) (g := []) rfl
    rw [List.append_nil] at hsplit
    rw [hwhole hnone, typeList, hsplit]

theorem not_goesOnWith_of_head? {w : String} {t : List Char}
    (h : t.head?.any Text.isBlankChar = false) : ¬ GoesOnWith w t := by
  rintro ⟨g, v, rest, hne, hg, -, rfl⟩
  obtain ⟨b, g, rfl⟩ := List.exists_cons_of_ne_nil hne
  have hb : Text.isBlankChar b = false := h
  rw [hg b List.mem_cons_self] at hb
  cases hb

/-- The header behind the name, where there are no parameters: the blank in front of the clause
is taken, and with it the clause is lost. -/
theorem exists_run_types_of_nil {m : Spot} (hnil : x.params = []) (hm : m.rest = x.fromBases) :
    ∃ r, (blanks ++ (keptParams ++ extendsList)).run (fun m => some (.done m)) m = some r ∧
      x.ReadsTypes (typeList (r.part? .params)) (typeList (r.part? .bases)) := by
  obtain ⟨c, u, hfollows, hc, hne⟩ := x.follows_fromBases
  have hrest : m.rest = [' '] ++ c :: u := by
    rw [hm]
    exact hfollows
  have hblanks : Finds blanks m (m.behind [' '] (c :: u)) [] :=
    finds_many hrest isBlankChar_space hc
  have hparams : Finds keptParams (m.behind [' '] (c :: u)) (m.behind [' '] (c :: u)) [] := by
    apply finds_opt_nothing
    intro k
    rw [run_append (lit "<" ++ _), run_append_of_lit]
    exact if_neg (Ne.symm hne)
  -- a clause begins with a blank of its own, and none is left
  have hbases : Finds extendsList (m.behind [' '] (c :: u)) (m.behind [' '] (c :: u)) [] :=
    finds_clause_nothing (not_goesOnWith_of_head? hc)
  have hall := hblanks.append (hparams.append hbases)
  refine ⟨_, hall (k := fun m => some (.done m)) rfl, ?_⟩
  constructor
  · rw [hnil]
    exact iff_of_true rfl List.not_mem_nil
  · exact fun _ h => absurd hnil h
  · exact fun _ => rfl
  · exact fun _ _ => rfl

/-- The header behind the name, where there are parameters: they are read up to the first
closing angle bracket, and the clause is looked for behind it. -/
theorem exists_run_types_of_ne_nil {m : Spot} (hnil : x.params ≠ []) (hexact : m.Exact)
    (hm : m.rest = angled x.params ++ x.fromBases) :
    ∃ r, (blanks ++ (keptParams ++ extendsList)).run (fun m => some (.done m)) m = some r ∧
      x.ReadsTypes (typeList (r.part? .params)) (typeList (r.part? .bases)) := by
  obtain ⟨u, hu, hangled, hbegin, hwhole⟩ := exists_angled hnil x.fromBases
  have hbrace : ∀ c ∈ u, noneOf "\x7b" c = true :=
    noneOf_brace fun hmem => noBrace_listed x.isParams (hbegin.subset hmem)
  rw [hangled] at hm
  let m₁ := m.behind [] ('<' :: (u ++ '>' :: behindAngle x.params x.fromBases))
  let m₂ := m₁.behind "<".toList (u ++ '>' :: behindAngle x.params x.fromBases)
  let m₃ := (m₂.behind u ('>' :: behindAngle x.params x.fromBases)).behind ['>']
    (behindAngle x.params x.fromBases)
  have hblanks : Finds blanks m m₁ [] := finds_many hm (by simp) rfl
  have hopen : Finds (lit "<") m₁ m₂ [] := finds_lit rfl
  have hclose := (finds_few_sign (s := ">") rfl (m := m₂) rfl hbrace hu .params).2
  have hfront : Finds (blanks ++ keptParams) m m₃ [(.params, m₂),
      (.params, m₂.behind u ('>' :: behindAngle x.params x.fromBases))] :=
    hblanks.append (hopen.append hclose).opt
  obtain ⟨r, hrun, hread, hnone⟩ := exists_run_listClause (w := "extends") (by decide)
    (by decide) x.isBases (hfront.matches.exact hexact)
  have hall : (blanks ++ (keptParams ++ extendsList)).run (fun m => some (.done m)) m =
      some (Match.after _ r) :=
    (run_append (blanks ++ keptParams) extendsList _ _).trans (hfront hrun)
  refine ⟨_, hall, ?_⟩
  have hparams := part?_of_marks (s := .params) (b := []) (a := m₂)
    (r := Match.after [(.params, m₂),
      (.params, m₂.behind u ('>' :: behindAngle x.params x.fromBases))] r)
    (List.prefix_append _ _) List.not_mem_nil ((hblanks.append hopen).matches.exact hexact) rfl
  rw [hparams, Match.part?_after (by simp)]
  constructor
  · exact x.typeList_params_iff hu hwhole
  · intro hangle _
    have hm₃ : m₃.rest = x.fromBases := behindAngle_of_not_mem hangle _
    rw [hread hm₃, typeList_keptList x.isBases]
  · exact fun h => absurd h hnil
  · -- the bracket that was found is one of the list, and the list goes on behind it
    intro hangle hplain
    obtain ⟨u', v, hsplit, hu', hbehind⟩ := behindAngle_of_mem hangle
    have hm₃ : m₃.rest = v ++ '>' :: x.fromBases := hbehind _
    have hextends : ¬ GoesOnWith "extends" m₃.rest := by
      rw [hm₃]
      exact fun h => (hplain u' v hsplit hu').1 (h.of_append_angle (by decide))
    rw [hnone hextends]
    rfl

/-- The header behind the name. -/
theorem exists_run_types {m : Spot} (hexact : m.Exact)
    (hm : m.rest = angled x.params ++ x.fromBases) :
    ∃ r, (blanks ++ (keptParams ++ extendsList)).run (fun m => some (.done m)) m = some r ∧
      x.ReadsTypes (typeList (r.part? .params)) (typeList (r.part? .bases)) := by
  by_cases hnil : x.params = []
  · rw [hnil] at hm
    exact x.exists_run_types_of_nil hnil hm
  · exact x.exists_run_types_of_ne_nil hnil hexact hm

/-- What is left of the header from the keyword on. -/
def fromInterface : List Char :=
  "interface ".toList ++ (x.name ++ (angled x.params ++ x.fromBases))

/-- The words and the name are found as they are written. -/
theorem exists_finds_front : ∃ m ms, Finds interfaceFront (.start x.text) m ms ∧
    m.rest = angled x.params ++ x.fromBases ∧
    ∀ r : Match, (Match.after ms r).part .name = x.name ∧
      (r.has .exported = false → (Match.after ms r).has .exported = x.exported) := by
  have hinterface : IsWord "interface" "interface ".toList := isWord_space "interface"
  have hexported := mayBeWord_wordIf x.exported "export"
  have hbegins : Begins ["interface"] x.fromInterface := hinterface.begins _
  have hends : (angled x.params ++ x.fromBases).head?.any Text.isNameChar = false :=
    head?_angled rfl rfl x.follows_fromBases
  let m₁ := (Spot.start x.text).behind (wordIf x.exported "export") x.fromInterface
  let m₂ := m₁.behind "interface ".toList (x.name ++ (angled x.params ++ x.fromBases))
  have h₁ : Finds (flag .exported "export") (.start x.text) m₁ _ :=
    finds_flag hexported rfl (hbegins.head? (by decide)) (hbegins.after? (by decide))
  have hdefault : Finds (opt (word "default")) m₁ m₁ [] :=
    finds_opt_nothing fun _ => run_append_of_lit (m := m₁) (hbegins.after? (by decide))
  have hdeclared : Finds (opt (word "declare")) m₁ m₁ [] :=
    finds_opt_nothing fun _ => run_append_of_lit (m := m₁) (hbegins.after? (by decide))
  have h₂ : Finds (word "interface") m₁ m₂ [] :=
    finds_word hinterface rfl (isBlankChar_head?_of_isName x.isName)
  have hname := (finds_name (m := m₂) x.isName rfl hends).keep .name
  have hwords := ((h₁.append hdefault).append hdeclared).append h₂
  refine ⟨_, _, hwords.append hname, rfl, ?_⟩
  intro r
  constructor
  · refine part_of_marks (a := m₂) ?_ (mt hwords.matches.mem_slots (by decide))
      (hwords.matches.exact rfl) rfl
    exact List.prefix_append _ _
  · intro hnone
    rw [Match.has] at hnone
    simp [Match.has, Match.after, hnone, any_wordMarks]

/-- The header of an interface is read with its name, and with its parameters and bases as far
as they can be found. -/
theorem exists_interfaceDeclaration? {ls : List Line} (h : firstTrimmed ls = x.text) :
    ∃ record, interfaceDeclaration? ls = some (.interface record) ∧
      record.name = textOf x.name ∧ record.exported = x.exported ∧
      x.ReadsTypes record.typeParams record.bases := by
  obtain ⟨m, ms, hfront, hm, hwords⟩ := x.exists_finds_front
  obtain ⟨r, hrun, hreads⟩ := x.exists_run_types (hfront.matches.exact rfl) hm
  obtain ⟨hname, hexported⟩ := hwords r
  have hmatch : interfaceHeader.match? (firstTrimmed ls) = some (Match.after ms r) := by
    rw [h, match?_eq_run, interfaceHeader_eq, run_append]
    exact hfront hrun
  have hparams : (Match.after ms r).part? .params = r.part? .params :=
    Match.part?_after (mt hfront.matches.mem_slots (by decide)) r
  have hbases : (Match.after ms r).part? .bases = r.part? .bases :=
    Match.part?_after (mt hfront.matches.mem_slots (by decide)) r
  -- the members leave what the header says
  obtain ⟨properties, methods, hmembers⟩ := exists_addMembers
    { name := textOf x.name, line := 1, exported := x.exported,
      typeParams := typeList (r.part? .params), bases := typeList (r.part? .bases) }
    (braceDelta (ls.headD [])) 2 ((window (braceExtent ls) ls).drop 1)
  refine ⟨{ name := textOf x.name, line := 1, exported := x.exported,
            typeParams := typeList (r.part? .params), bases := typeList (r.part? .bases),
            properties := properties, methods := methods }, ?_, rfl, rfl, hreads⟩
  simp only [interfaceDeclaration?, hmatch, hname,
    hexported (has_eq_false_of_run hrun (by decide)), hparams, hbases, hmembers,
    Option.bind_eq_bind, Option.bind_some]
  rfl

end InterfaceText

/-! ## Both kinds of headers -/

/-- Headers of classes and interfaces are recognised with their names and words, however deep
their types are nested. The rest is read as it is written up to the first arguments that have a
closing angle bracket inside; no clause behind these is found, nor one of an interface without
parameters. -/
theorem typeHeaders (x : ClassText) (y : InterfaceText) (ls : List Line) :
    (firstTrimmed ls = x.text →
      ∃ base interfaces, classDeclaration? ls = some (.classHead
        { name := textOf x.name, base, interfaces, isAbstract := x.abstracted,
          exported := x.exported, defaultExport := x.byDefault }) ∧
        x.ReadsClauses base interfaces) ∧
    (firstTrimmed ls = y.text →
      ∃ record, interfaceDeclaration? ls = some (.interface record) ∧
        record.name = textOf y.name ∧ record.exported = y.exported ∧
        y.ReadsTypes record.typeParams record.bases) :=
  ⟨x.exists_classDeclaration?, y.exists_interfaceDeclaration?⟩

/-- A class and an interface whose types are not nested. -/
theorem typeHeaders_flat :
    classDeclaration? ["export class A<T> extends b.B<K, V> implements C<T[]>, D \x7b".toList] =
      some (.classHead { name := "A", base := some "b.B", interfaces := ["C<T[]>", "D"],
                         isAbstract := false, exported := true, defaultExport := false }) ∧
    ∃ record, interfaceDeclaration? ["interface A<K, V> extends B<K>, C \x7b".toList] =
      some (.interface record) ∧ record.name = "A" ∧ record.exported = false ∧
      record.typeParams = ["K", "V"] ∧ record.bases = ["B<K>", "C"] := by
  let x : ClassText :=
    { exported := true, byDefault := false, abstracted := false, name := "A".toList,
      params := ["T".toList],
      base := some { name := "b.B".toList, args := ["K".toList, "V".toList],
                     isName := ⟨'b', ".B".toList, rfl, by decide, List.all_eq_true.mp rfl⟩,
                     isArgs := by decide },
      interfaces := ["C<T[]>".toList, "D".toList], isName := isNameOf_singleton (by decide),
      isParams := by decide, isInterfaces := by decide }
  let y : InterfaceText :=
    { exported := false, name := "A".toList, params := ["K".toList, "V".toList],
      bases := ["B<K>".toList, "C".toList], isName := isNameOf_singleton (by decide),
      isParams := by decide, isBases := by decide }
  constructor
  · obtain ⟨base, interfaces, hclass, hreads⟩ := (typeHeaders x y
      ["export class A<T> extends b.B<K, V> implements C<T[]>, D \x7b".toList]).1 (by decide)
    rw [hclass, hreads.base_eq (by decide), hreads.interfaces_eq (by decide) (by decide)]
    rfl
  · obtain ⟨record, hinterface, hname, hexported, hreads⟩ := (typeHeaders x y
      ["interface A<K, V> extends B<K>, C \x7b".toList]).2 (by decide)
    exact ⟨record, hinterface, hname, hexported, hreads.params_eq_iff.mpr (by decide),
      hreads.bases_eq (by decide) (by decide)⟩

/-- The clauses behind nested parameters are lost, and so is the clause of an interface without
parameters. -/
theorem typeHeaders_lostClauses :
    classDeclaration?
        ["class A<T extends Map<string, number>> extends B implements C \x7b".toList] =
      some (.classHead { name := "A", base := none, interfaces := [], isAbstract := false,
                         exported := false, defaultExport := false }) ∧
    interfaceDeclaration? ["interface A extends B \x7b".toList] =
      some (.interface { name := "A", bases := [], line := 1 }) := by
  decide +kernel

end CodeAtlas.Brace
