/-
Where exports land.

The root of an export is the nearest directory upward in which both markers are, or the directory
in which it is started. The directory of the version stands below it, and the output file is
joined to that. The names that a plan makes up have one part: profiles, packages and projects have
no slash in their names. So they land in the directory of the version. A name that is given is
joined as it is, and lands there exactly if it is a single name (`isChild_outputFile_iff`). Another
one may lead to any file, and with leave to replace files, running the plan replaces it
(`resolve_upward`).
-/
import CodeAtlas.Proofs.Export.Run
import CodeAtlas.Proofs.Files.PathName
import CodeAtlas.Proofs.Text.Trim

set_option autoImplicit false

namespace CodeAtlas

/-- No name in the tree has a slash. -/
def Tree.IsSlashless (t : Tree) : Prop :=
  ∀ row ∈ t.entries, ∀ name ∈ row.1, '/' ∉ name.toList

instance (t : Tree) : Decidable t.IsSlashless :=
  inferInstanceAs (Decidable (∀ row ∈ t.entries, ∀ name ∈ row.1, '/' ∉ name.toList))

/-! ## Names that hold a time -/

namespace Clock

variable {c : Char} {w n : Nat}

theorem toList_toString (n : Nat) : (toString n).toList = Nat.toDigits 10 n := String.toList_ofList

theorem isDigit_of_mem_padded (h : c ∈ (padded w n).toList) : c.isDigit = true := by
  rw [padded, String.toList_append, String.toList_ofList, toList_toString, List.mem_append] at h
  rcases h with hzero | hdigit
  · rw [(List.mem_replicate.mp hzero).2]
    rfl
  · exact Nat.isDigit_of_mem_toDigits (by decide) (by decide) hdigit

theorem padded_ne_nil (w n : Nat) : (padded w n).toList ≠ [] := by
  intro h
  rw [padded, String.toList_append, toList_toString, List.append_eq_nil_iff] at h
  exact Nat.toDigits_ne_nil h.2

theorem ne_slash_of_isDigit (h : c.isDigit = true) : c ≠ '/' := by
  rintro rfl
  exact absurd h (by decide)

theorem slash_notMem_padded (w n : Nat) : '/' ∉ (padded w n).toList := fun h =>
  ne_slash_of_isDigit (isDigit_of_mem_padded h) rfl

theorem slash_notMem_yearText (y : Int) : '/' ∉ (yearText y).toList := by
  unfold yearText
  split
  · exact slash_notMem_padded _ _
  · rw [String.toList_append, List.mem_append, not_or]
    refine ⟨?_, slash_notMem_padded _ _⟩
    split <;> decide

theorem slash_notMem_date (now : Clock) : '/' ∉ now.date.toList := by
  simp only [date, String.toList_append, List.mem_append, not_or]
  exact ⟨⟨⟨⟨slash_notMem_yearText _, by decide⟩, slash_notMem_padded _ _⟩, by decide⟩,
    slash_notMem_padded _ _⟩

theorem isDigit_of_mem_time {now : Clock} (h : c ∈ now.time.toList) : c.isDigit = true := by
  rw [time, String.toList_append, List.mem_append] at h
  exact h.elim isDigit_of_mem_padded isDigit_of_mem_padded

theorem slash_notMem_time (now : Clock) : '/' ∉ now.time.toList := fun h =>
  ne_slash_of_isDigit (isDigit_of_mem_time h) rfl

theorem time_ne_nil (now : Clock) : now.time.toList ≠ [] := by
  rw [time, String.toList_append]
  exact List.append_ne_nil_of_left_ne_nil (padded_ne_nil _ _) _

theorem date_ne_nil (now : Clock) : now.date.toList ≠ [] := by
  rw [date, String.toList_append]
  exact List.append_ne_nil_of_right_ne_nil _ (padded_ne_nil _ _)

end Clock

/-! ## Names without a slash -/

theorem slash_notMem_slug (t : List Char) : '/' ∉ slug t := by
  have hchar : ∀ c : Char, slugChar c ≠ '/' := by
    intro c
    unfold slugChar
    split
    case isTrue h =>
      rintro rfl
      exact absurd h (by decide)
    case isFalse => split <;> decide
  intro hmem
  have hmap := (List.dropWhile_suffix _).subset (Text.dropEndWhile_subset _ _ hmem)
  obtain ⟨c, -, hc⟩ := List.mem_map.mp hmap
  exact hchar c hc

theorem slash_notMem_projectName (t : Tree) (path : String) : '/' ∉ (projectName t path).toList := by
  have hslug : ∀ {last : Option String} {s : List Char},
      last.map (fun s => slug s.toList) = some s → '/' ∉ s := by
    intro last s hs
    obtain ⟨part, -, rfl⟩ := Option.map_eq_some_iff.mp hs
    exact slash_notMem_slug _
  unfold projectName
  dsimp only
  generalize Option.or _ _ = last
  split
  case h_1 => decide
  case h_2 => decide
  case h_3 s _ hs =>
    rw [String.toList_ofList]
    exact hslug hs

/-- The names in a directory are names of the tree. -/
theorem Tree.IsSlashless.slash_notMem {t : Tree} (h : t.IsSlashless) {root name : String}
    {names : List String} (hnames : t.names root = .ok names) (hname : name ∈ names) :
    '/' ∉ name.toList := by
  rw [Tree.names] at hnames
  cases hfind : t.find root with
  | error e => rw [hfind] at hnames; cases hnames
  | ok found =>
    obtain ⟨dir, _ | bytes⟩ := found
    · rw [hfind] at hnames
      obtain rfl := Except.ok.inj hnames
      rw [List.mem_mergeSort, List.mem_filterMap] at hname
      obtain ⟨⟨place, entry⟩, hrow, hlast⟩ := hname
      dsimp only at hlast
      split at hlast
      case isTrue => exact h _ hrow name (List.mem_of_getLast? hlast)
      case isFalse => cases hlast
    · rw [hfind] at hnames
      cases hnames

theorem slash_notMem_packagesIn {t : Tree} (h : t.IsSlashless) {root name : String}
    (hname : name ∈ packagesIn t root) : '/' ∉ name.toList := by
  unfold packagesIn at hname
  split at hname
  case h_1 => cases hname
  case h_2 names hnames => exact h.slash_notMem hnames (List.mem_filter.mp hname).1

theorem slash_notMem_profileName {packages : List String} {s : String} {p : Profile}
    (hpackages : ∀ name ∈ packages, '/' ∉ name.toList)
    (h : Profile.ofName? s packages = some p) : '/' ∉ p.name.toList := by
  unfold Profile.ofName? at h
  split at h
  case h_1 p' hfound =>
    obtain rfl := Option.some.inj h
    have hbuiltin : ∀ p ∈ Profile.builtin, '/' ∉ p.name.toList := by decide +kernel
    exact hbuiltin _ (List.mem_of_find?_eq_some hfound)
  case h_2 =>
    split at h
    case isTrue hmem =>
      obtain rfl := Option.some.inj h
      exact hpackages s (List.contains_iff_mem.mp hmem)
    case isFalse => cases h

namespace ExportPlan

open PathName

variable {t : Tree} {cwd profile root : String} {output : Option String} {now : Clock}
  {plan : ExportPlan} {target : ExportTarget} {tool : Tool} {force : Bool} {place : Place}

/-- The name that a plan makes up for its output is a single one. -/
theorem isSingle_defaultName (hnames : t.IsSlashless)
    (h : locate t cwd profile = .ok (root, target)) (now : Clock) :
    IsSingle (defaultName now target) := by
  -- the date, the time and the name of the profile or project are each without a slash
  have hfree : '/' ∉ (defaultName now target).toList := by
    have hdate := now.slash_notMem_date
    have htime := now.slash_notMem_time
    unfold locate at h
    split at h
    case h_1 root' _ =>
      dsimp only at h
      split at h
      case h_1 p hp =>
        obtain ⟨rfl, rfl⟩ := Prod.mk.inj (Except.ok.inj h)
        have hname := slash_notMem_profileName (fun name => slash_notMem_packagesIn hnames) hp
        simp [defaultName, hdate, htime, hname]
      case h_2 => cases h
    case h_2 =>
      obtain ⟨rfl, rfl⟩ := Prod.mk.inj (Except.ok.inj h)
      have hname := slash_notMem_projectName t cwd
      simp [defaultName, hdate, htime, hname]
  -- and the first character tells it from the names that lead elsewhere
  have hhead : (defaultName now target).toList.head? = some 'v' := by
    cases target <;> simp [defaultName]
  have hother : ∀ s : String, s.toList.head? ≠ some 'v' → defaultName now target ≠ s := by
    rintro s hs rfl
    exact hs hhead
  exact isSingle_of_noSlash hfree (hother "" (by decide)) (hother "." (by decide))
    (hother ".." (by decide))

/-! ## The directory of the version -/

theorem versionDirOf_eq (root : String) (now : Clock) :
    versionDirOf root now = join root (".neira/export_code/" ++ now.date ++ "/v" ++ now.time) := by
  have hdate : isAbsolute now.date = false := decide_eq_false fun h =>
    now.slash_notMem_date (List.mem_of_head? h)
  have hlast : (".neira/export_code/" ++ now.date).toList.getLast? ≠ some '/' := by
    rw [String.toList_append, List.getLast?_append_of_ne_nil _ now.date_ne_nil]
    exact fun h => now.slash_notMem_date (List.mem_of_getLast? h)
  have hne : ".neira/export_code/" ++ now.date ≠ "" := by
    intro h
    simpa using congrArg String.toList h
  have htwo : ".neira" ++ "/" ++ "export_code" = ".neira/export_code" := by decide
  have hthree : ".neira/export_code" ++ "/" = ".neira/export_code/" := by decide
  have hmark : "/" ++ "v" = "/v" := by decide
  calc versionDirOf root now
    _ = join (join (join (join root ".neira") "export_code") now.date) ("v" ++ now.time) := by
      simp only [versionDirOf, List.foldl_cons, List.foldl_nil]
    _ = join (join (join root ".neira/export_code") now.date) ("v" ++ now.time) := by
      rw [join_join root (by decide) (by decide) (by decide), htwo]
    _ = join (join root (".neira/export_code/" ++ now.date)) ("v" ++ now.time) := by
      rw [join_join root (by decide) (by decide) hdate, hthree]
    _ = join root (".neira/export_code/" ++ now.date ++ "/v" ++ now.time) := by
      rw [join_join root hne hlast (by simp [isAbsolute]), ← hmark]
      simp only [String.append_assoc]

/-- The directory of the version ends in a digit. -/
theorem isSettled_versionDirOf (root : String) (now : Clock) : IsSettled (versionDirOf root now) := by
  have hlast : (versionDirOf root now).toList.getLast? = now.time.toList.getLast? := by
    have hne : ".neira/export_code/" ++ now.date ++ "/v" ++ now.time ≠ "" := by
      intro h
      simpa using congrArg String.toList h
    rw [versionDirOf_eq, getLast?_join root hne, String.toList_append,
      List.getLast?_append_of_ne_nil _ now.time_ne_nil]
  have hdigit := Clock.isDigit_of_mem_time (List.getLast_mem now.time_ne_nil)
  rw [List.getLast?_eq_some_getLast now.time_ne_nil] at hlast
  refine isSettled_of_getLast? hlast (Clock.ne_slash_of_isDigit hdigit) fun hdot => ?_
  rw [hdot] at hdigit
  exact absurd hdigit (by decide)

/-! ## The root -/

/-- Are all markers in the directory? -/
def HasMarkers (t : Tree) (dir : String) : Prop :=
  ∀ m ∈ rootMarkers, t.isThere (join dir m) = true

/-- The nearest directory upward that has the markers, or the one of the start if none has. -/
def IsRoot (t : Tree) (cwd root : String) : Prop :=
  IsNearest (HasMarkers t) cwd root ∨
    (root = cwd ∧ ∀ dir, dir = cwd ∨ Above cwd dir → ¬ HasMarkers t dir)

theorem isRoot_of_locate (h : locate t cwd profile = .ok (root, target)) : IsRoot t cwd root := by
  have hmarkers : (fun dir => (rootMarkers.all fun m => t.isThere (join dir m)) = true) =
      HasMarkers t := funext fun dir => propext List.all_eq_true
  unfold locate at h
  split at h
  case h_1 root' hroot =>
    dsimp only at h
    split at h
    case h_1 =>
      obtain ⟨rfl, -⟩ := Prod.mk.inj (Except.ok.inj h)
      exact .inl (hmarkers ▸ isNearest_of_find? hroot)
    case h_2 => cases h
  case h_2 hnone =>
    obtain ⟨rfl, -⟩ := Prod.mk.inj (Except.ok.inj h)
    refine .inr ⟨rfl, fun dir hdir hhas => ?_⟩
    exact List.find?_eq_none.mp hnone dir (mem_ancestors.mpr hdir) (List.all_eq_true.mpr hhas)

/-! ## The output file -/

theorem resolve_eq_ok (h : resolve t cwd profile output now = .ok plan) :
    locate t cwd profile = .ok (plan.root, plan.target) ∧
      plan.versionDir = versionDirOf plan.root now ∧
      plan.outputFile = join plan.versionDir (output.getD (defaultName now plan.target)) := by
  unfold resolve at h
  cases hlocate : locate t cwd profile with
  | error e => rw [hlocate] at h; cases h
  | ok found =>
    obtain ⟨root, target⟩ := found
    simp only [hlocate, bind, Except.bind] at h
    cases hextra : exportIgnore t root with
    | error e => rw [hextra] at h; cases h
    | ok extra =>
      simp only [hextra, pure, Except.pure, Except.ok.injEq] at h
      subst h
      exact ⟨rfl, by dsimp only, by dsimp only⟩

/-- Does a name that is given lead into the directory? An absolute one is taken for itself. -/
def FitsIn (dir o : String) : Prop := if isAbsolute o then IsChild dir o else IsSingle o

/-- The output stands in the directory of the version exactly if the name that is given does; one
that is made up always does. -/
theorem isChild_outputFile_iff (hnames : t.IsSlashless)
    (h : resolve t cwd profile output now = .ok plan) :
    IsChild plan.versionDir plan.outputFile ↔ ∀ o, output = some o → FitsIn plan.versionDir o := by
  obtain ⟨hlocate, hdir, hfile⟩ := resolve_eq_ok h
  have hsettled : IsSettled plan.versionDir := hdir ▸ isSettled_versionDirOf plan.root now
  rw [hfile]
  cases output with
  | none =>
    have hsingle := isSingle_defaultName hnames hlocate now
    have habsolute : isAbsolute (defaultName now plan.target) = false := by
      cases plan.target <;> simp [isAbsolute, defaultName]
    refine iff_of_true ((isChild_join_iff hsettled habsolute).mpr hsingle) fun o ho => ?_
    cases ho
  | some o =>
    have hone : (∀ o', some o = some o' → FitsIn plan.versionDir o') ↔ FitsIn plan.versionDir o :=
      ⟨fun hall => hall o rfl, fun hfits o' ho' => Option.some.inj ho' ▸ hfits⟩
    rw [hone, FitsIn, Option.getD_some]
    by_cases habsolute : isAbsolute o = true
    · have hjoin : join plan.versionDir o = o := by rw [join, habsolute, Bool.true_or, if_pos rfl]
      rw [hjoin, if_pos habsolute]
    · rw [if_neg habsolute]
      exact isChild_join_iff hsettled (Bool.eq_false_iff.mpr habsolute)

/-- Running a plan changes no file but the output, and that one stands in the directory of the
version, as it is found afterwards. -/
theorem run_changes (hchild : IsChild plan.versionDir plan.outputFile) (hne : plan.versionDir ≠ "")
    (htool : tool.WritesOnlyOutput)
    (hfile : (∃ old, t.entry? place = some (.file old)) ∨
      ∃ new, Tree.entry? (plan.run t tool force).1 place = some (.file new))
    (hchanged : Tree.entry? (plan.run t tool force).1 place ≠ t.entry? place) :
    ∃ dir name, Tree.find (plan.run t tool force).1 plan.versionDir = .ok (dir, .dir) ∧
      fileName? plan.outputFile = some name ∧ place = dir ++ [name] := by
  have hadds := Tree.adds_makeDirectories t plan.versionDir
  -- making directories leaves files as they are
  have hmade : ∀ t' : Tree, t'.entry? place = Tree.entry? (t.makeDirectories plan.versionDir).1 place →
      ((∃ old, t.entry? place = some (.file old)) ∨ ∃ new, t'.entry? place = some (.file new)) →
      t'.entry? place = t.entry? place := by
    rintro t' hsame (⟨old, hold⟩ | ⟨new, hnew⟩)
    · rw [hsame, hold]
      exact (hadds.file place old).mpr hold
    · rw [hnew]
      exact ((hadds.file place new).mp (hsame ▸ hnew)).symm
  obtain hsame | ⟨-, ⟨e, hrun⟩ | ⟨result, hrun⟩⟩ := plan.run_cases t tool force
  · exact absurd (by rw [hsame]) hchanged
  · rw [hrun] at hfile hchanged
    exact absurd (hmade _ rfl hfile) hchanged
  · rw [hrun] at hfile hchanged ⊢
    dsimp only at hfile hchanged ⊢
    generalize (t.makeDirectories plan.versionDir).1 = t₁ at *
    obtain hleft | ⟨bytes, hwrite⟩ := htool.runIn plan t₁
    · rw [hleft] at hfile hchanged
      exact absurd (hmade _ rfl hfile) hchanged
    · obtain ⟨dir, name, htarget, -, hold, ht₂⟩ := Tree.writeBytes_eq_ok.mp hwrite
      rw [ht₂] at hfile hchanged ⊢
      obtain ⟨hdir, hname⟩ := Tree.find_parent_of_named hchild hne htarget
      refine ⟨dir, name, Tree.find_dir_of_kept (fun _ => Tree.dir_put hold _) hdir, hname, ?_⟩
      by_contra hplace
      have hput := Tree.entry?_put t₁ dir name (.file bytes) place
      rw [if_neg hplace] at hput
      exact hchanged (hmade _ hput hfile)

/-- Where exports land. The root and the directory of the version are as they should be for every
start, and the output is a child of that directory if its name is made up, or is a single one. For
such a child, running the plan in any tree, also with leave to replace files, changes no file but
one in that directory. -/
theorem resolve_lands (hnames : t.IsSlashless) (h : resolve t cwd profile output now = .ok plan) :
    IsRoot t cwd plan.root ∧
    plan.versionDir =
      join plan.root (".neira/export_code/" ++ now.date ++ "/v" ++ now.time) ∧
    (IsChild plan.versionDir plan.outputFile ↔
      ∀ o, output = some o → FitsIn plan.versionDir o) ∧
    (IsChild plan.versionDir plan.outputFile → ∀ (t₁ : Tree) (tool : Tool) (force : Bool),
      tool.WritesOnlyOutput → ∀ place,
        ((∃ old, t₁.entry? place = some (.file old)) ∨
          ∃ new, Tree.entry? (plan.run t₁ tool force).1 place = some (.file new)) →
        Tree.entry? (plan.run t₁ tool force).1 place ≠ t₁.entry? place →
        ∃ dir name, Tree.find (plan.run t₁ tool force).1 plan.versionDir = .ok (dir, .dir) ∧
          fileName? plan.outputFile = some name ∧ place = dir ++ [name]) := by
  obtain ⟨hlocate, hdir, -⟩ := resolve_eq_ok h
  have hne : plan.versionDir ≠ "" := by
    intro hempty
    have hsettled := isSettled_versionDirOf plan.root now
    rw [← hdir, hempty] at hsettled
    exact hsettled.ne_nil rfl
  refine ⟨isRoot_of_locate hlocate, ?_, isChild_outputFile_iff hnames h, ?_⟩
  · rw [hdir, versionDirOf_eq]
  · intro hchild t₁ tool force htool place hfile hchanged
    exact run_changes hchild hne htool hfile hchanged

/-- The export of a package, started below the root, with leave to replace files. -/
theorem resolve_lands_package :
    let t : Tree := ⟨[(["w"], .dir), (["w", "neira-cli-mcp"], .dir), (["w", "neira-core"], .dir),
      (["w", "neira-core", "a.ts"], .file "a".toUTF8), (["w", "neira-docs"], .dir),
      (["w", "neira-docs", "package.json"], .file "\x7b\x7d".toUTF8)]⟩
    let plan : ExportPlan :=
      { root := "/w", target := .superProject (.package "neira-docs") ["neira-docs"],
        versionDir := "/w/.neira/export_code/2024-05-01/v1403",
        outputFile := "/w/.neira/export_code/2024-05-01/v1403/" ++
          "v1403-2024-05-01-neira-docs-neira-super-app.md",
        extraExcludes := [] }
    t.IsSlashless ∧ (Tool.writing "dump").WritesOnlyOutput ∧
      resolve t "/w/neira-core" "neira-docs" none ⟨2024, 5, 1, 14, 3⟩ = .ok plan ∧
      IsRoot t "/w/neira-core" "/w" ∧ IsChild plan.versionDir plan.outputFile ∧
      Tree.entry? (plan.run t (Tool.writing "dump") true).1 ["w", "neira-core", "a.ts"] =
        some (.file "a".toUTF8) := by
  intro t plan
  have hnames : t.IsSlashless := by decide +kernel
  have hpackages : packagesIn t "/w" = ["neira-docs"] := by
    have hsort : ["neira-cli-mcp", "neira-core", "neira-docs"].mergeSort
        (fun a b => decide (a ≤ b)) = ["neira-cli-mcp", "neira-core", "neira-docs"] :=
      List.mergeSort_of_pairwise (by decide +kernel)
    have hall : t.names "/w" = .ok ["neira-cli-mcp", "neira-core", "neira-docs"] := by
      have hfind : t.find "/w" = .ok (["w"], .dir) := by decide +kernel
      rw [Tree.names, hfind]
      exact congrArg Except.ok hsort
    rw [packagesIn, hall]
    decide +kernel
  have hresolve : resolve t "/w/neira-core" "neira-docs" none ⟨2024, 5, 1, 14, 3⟩ = .ok plan := by
    have hroot : superRoot? t "/w/neira-core" = some "/w" := by decide +kernel
    have hlocate : locate t "/w/neira-core" "neira-docs" =
        .ok ("/w", .superProject (.package "neira-docs") ["neira-docs"]) := by
      simp only [locate, hroot, hpackages]
      decide +kernel
    rw [resolve, hlocate]
    decide +kernel
  obtain ⟨hroot, -, hchild, hrun⟩ := resolve_lands hnames hresolve
  have htool := Tool.writesOnlyOutput_writing "dump"
  have hmade : IsChild plan.versionDir plan.outputFile := by
    refine hchild.mpr fun o ho => ?_
    cases ho
  refine ⟨hnames, htool, hresolve, hroot, hmade, ?_⟩
  by_contra hchanged
  have hold : t.entry? ["w", "neira-core", "a.ts"] = some (.file "a".toUTF8) := by decide +kernel
  obtain ⟨dir, name, -, hname, hplace⟩ := hrun hmade t _ true htool
    ["w", "neira-core", "a.ts"] (.inl ⟨_, hold⟩) (hold ▸ hchanged)
  -- the file that is written has another name
  have hsplit : ["w", "neira-core"] ++ ["a.ts"] = dir ++ [name] := hplace
  obtain ⟨-, hlast⟩ := List.append_inj' hsplit rfl
  rw [← (List.cons.inj hlast).1] at hname
  exact absurd hname (by decide +kernel)

/-- A name that goes upward leads out of the directory of the version, to a file of the project,
and with leave to replace files this file is replaced. -/
theorem resolve_upward :
    let t : Tree := ⟨[(["w"], .dir), (["w", "README.md"], .file "keep\n".toUTF8)]⟩
    ∃ plan, resolve t "/w" "general" (some "../../../../README.md") ⟨2024, 5, 1, 14, 3⟩ = .ok plan ∧
      plan.versionDir = "/w/.neira/export_code/2024-05-01/v1403" ∧
      plan.outputFile = "/w/.neira/export_code/2024-05-01/v1403/../../../../README.md" ∧
      ¬ IsChild plan.versionDir plan.outputFile ∧
      t.readText "/w/README.md" = .ok "keep\n" ∧
      Tree.readText (plan.run t (Tool.writing "dump\n") true).1 "/w/README.md" = .ok "dump\n" := by
  intro t
  let plan : ExportPlan :=
    { root := "/w", target := .currentProject "w",
      versionDir := "/w/.neira/export_code/2024-05-01/v1403",
      outputFile := "/w/.neira/export_code/2024-05-01/v1403/../../../../README.md",
      extraExcludes := [] }
  have hresolve : resolve t "/w" "general" (some "../../../../README.md") ⟨2024, 5, 1, 14, 3⟩ =
      .ok plan := by
    decide +kernel
  have hchild : ¬ IsChild plan.versionDir plan.outputFile := fun h =>
    absurd h.parent (by decide +kernel)
  exact ⟨plan, hresolve, rfl, rfl, hchild, by decide +kernel, by decide +kernel⟩

end ExportPlan

end CodeAtlas
