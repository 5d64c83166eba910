/-
Which files the program may replace.

Without leave to replace, a path that leads somewhere is not written to. Over any calls of the
program, a file that is there then keeps its bytes (`kept_afterAll`), but for one case: the test
whether the path leads somewhere comes before the missing directories are made, so a path that
goes up from a missing directory leads nowhere when it is tested, and to a file that was there
when it is written to (`Call.Replaces`, `replaced_behindMissing`).
-/
import CodeAtlas.Proofs.Command.Effect
import CodeAtlas.Proofs.Export.Run
import CodeAtlas.Proofs.Report.Save

set_option autoImplicit false

namespace CodeAtlas.Command

/-- One call of the program, and the circumstances in which it is called. -/
structure Call where
  tool : Tool
  cwd : String
  stamp : String
  now : Clock
  args : List String

namespace Call

/-- The tree behind a call. -/
def after (c : Call) (t : Tree) : Tree := (run c.tool t c.cwd c.stamp c.now c.args).tree

/-- May the call replace files? -/
def isForced (c : Call) : Bool :=
  match parse c.args with
  | .ok (.map r) => r.force
  | .ok (.export_ r) => r.force
  | .error _ => false

/-- Where the result of the call goes. -/
def output? (c : Call) (t : Tree) : Option String :=
  match parse c.args with
  | .ok (.map r) =>
    match Settings.load t (PathName.join c.cwd r.root) with
    | .ok loaded => some (mapPath (loaded.overlay r.settings) r.json c.cwd)
    | .error _ => none
  | .ok (.export_ r) =>
    match ExportPlan.resolve t c.cwd r.profile r.output c.now with
    | .ok plan => some plan.outputFile
    | .error _ => none
  | .error _ => none

/-- The output path goes upward and leads nowhere, but behind the call to this file. -/
def Replaces (c : Call) (t : Tree) (place : Place) : Prop :=
  ∃ path bytes, c.output? t = some path ∧ ".." ∈ PathName.parts path ∧
    t.isThere path = false ∧ (c.after t).find path = .ok (place, .file bytes)

variable {c : Call} {t : Tree}

/-- A call saves a report, runs a plan, or leaves the files as they are. -/
theorem after_cases (c : Call) (t : Tree) :
    c.after t = t ∨
    (∃ path text, c.output? t = some path ∧
      c.after t = (Report.save t path text c.isForced).1) ∨
    ∃ plan : ExportPlan, c.output? t = some plan.outputFile ∧
      c.after t = (plan.run t c.tool c.isForced).1 := by
  simp only [after, run, output?, isForced]
  cases parse c.args with
  | error stop => cases stop <;> exact .inl rfl
  | ok request =>
    cases request with
    | map r =>
      obtain hsame | ⟨loaded, text, hloaded, hsave⟩ :=
        tree_ofAction (leaves_runMap c.cwd c.stamp r t)
      · exact .inl hsame
      · exact .inr (.inl ⟨_, text, by dsimp only; rw [hloaded], hsave⟩)
    | export_ r =>
      obtain hsame | ⟨plan, hplan, hrun⟩ := tree_ofAction (leaves_runExport c.tool c.cwd c.now r t)
      · exact .inl hsame
      · exact .inr (.inr ⟨plan, by dsimp only; rw [hplan], hrun⟩)

theorem isClosed_after (hclosed : t.IsClosed) (htool : c.tool.WritesOnlyOutput) :
    (c.after t).IsClosed := by
  obtain hsame | ⟨path, text, -, hsave⟩ | ⟨plan, -, hrun⟩ := c.after_cases t
  · rwa [hsame]
  · rw [hsave]
    exact Report.isClosed_save hclosed path text c.isForced
  · rw [hrun]
    exact ExportPlan.isClosed_run hclosed htool plan c.isForced

/-- One call keeps a file that is there, or replaces it. -/
theorem kept_after {place : Place} {old : ByteArray} (hclosed : t.IsClosed)
    (hforce : c.isForced = false) (htool : c.tool.WritesOnlyOutput)
    (hold : t.entry? place = some (.file old)) :
    Tree.entry? (c.after t) place = some (.file old) ∨ c.Replaces t place := by
  obtain hsame | ⟨path, text, hpath, hsave⟩ | ⟨plan, hpath, hrun⟩ := c.after_cases t
  · exact .inl (by rwa [hsame])
  · rw [hforce] at hsave
    rw [Replaces, hsave]
    exact (Report.save_kept hclosed hold).imp_right
      fun ⟨hup, habsent, hfind⟩ => ⟨path, _, hpath, hup, habsent, hfind⟩
  · rw [hforce] at hrun
    rw [Replaces, hrun]
    exact (ExportPlan.run_kept hclosed htool hold).imp_right
      fun ⟨hup, habsent, bytes, hfind⟩ => ⟨_, bytes, hpath, hup, habsent, hfind⟩

end Call

/-- The tree behind calls that are made one after another. -/
def afterAll (t : Tree) (calls : List Call) : Tree := calls.foldl (fun t c => c.after t) t

/-- Over any calls without leave to replace, a file keeps its bytes until one of them replaces
it by going up from a directory that is missing. -/
theorem kept_afterAll {t : Tree} {calls : List Call} (hclosed : t.IsClosed)
    (hcalls : ∀ c ∈ calls, c.isForced = false ∧ c.tool.WritesOnlyOutput) {place : Place}
    {old : ByteArray} (hold : t.entry? place = some (.file old)) :
    Tree.entry? (afterAll t calls) place = some (.file old) ∨
      ∃ earlier c later, calls = earlier ++ c :: later ∧
        c.Replaces (afterAll t earlier) place := by
  induction calls generalizing t with
  | nil => exact .inl hold
  | cons c calls ih =>
    obtain ⟨hforce, htool⟩ := hcalls c List.mem_cons_self
    obtain hkept | hreplaced := c.kept_after hclosed hforce htool hold
    · obtain hall | ⟨earlier, c', later, rfl, hreplaced⟩ :=
        ih (c.isClosed_after hclosed htool) (fun c' hc' => hcalls c' (List.mem_cons_of_mem _ hc'))
          hkept
      · exact .inl hall
      · exact .inr ⟨c :: earlier, c', later, rfl, hreplaced⟩
    · exact .inr ⟨[], c, calls, rfl, hreplaced⟩

/-- What is kept and what may be added: for saving a report, for running a plan, and for any
calls of the program. -/
structure Guarded (t : Tree) : Prop where
  save : ∀ path text force, Report.SaveFrame t path text force
  run : ∀ plan tool force, ExportPlan.RunFrame plan t tool force
  calls : t.IsClosed → ∀ calls : List Call,
    (∀ c ∈ calls, c.isForced = false ∧ c.tool.WritesOnlyOutput) →
    ∀ place old, t.entry? place = some (.file old) →
      Tree.entry? (afterAll t calls) place = some (.file old) ∨
        ∃ earlier c later, calls = earlier ++ c :: later ∧
          c.Replaces (afterAll t earlier) place

theorem guarded (t : Tree) : Guarded t where
  save := fun path text force => Report.saveFrame t path text force
  run := fun plan tool force => ExportPlan.runFrame plan t tool force
  calls := fun hclosed _ hcalls _ _ hold => kept_afterAll hclosed hcalls hold

/-- An export and a map: the map that was there before stays. -/
theorem kept_besideExport :
    let t : Tree := ⟨[(["MAP.txt"], .file "old\n".toUTF8)]⟩
    let call (args : List String) : Call :=
      ⟨Tool.writing "exported", "/", "", ⟨2024, 5, 1, 14, 3⟩, args⟩
    Tree.entry? (afterAll t [call ["export", "-o", "all.md"], call ["map", "-o", "MAP.txt"]])
      ["MAP.txt"] = some (.file "old\n".toUTF8) := by
  intro t call
  obtain hkept | ⟨earlier, c, later, hcalls, path, -, hpath, hup, -⟩ :=
    (guarded t).calls (Tree.isClosed_of_entries (by decide +kernel))
      [call ["export", "-o", "all.md"], call ["map", "-o", "MAP.txt"]]
      (by
        intro c hc
        obtain rfl | rfl : c = _ ∨ c = _ := by simpa using hc
        · exact ⟨by decide +kernel, Tool.writesOnlyOutput_writing "exported"⟩
        · exact ⟨by decide +kernel, Tool.writesOnlyOutput_writing "exported"⟩)
      ["MAP.txt"] "old\n".toUTF8 (by decide +kernel)
  · exact hkept
  · exfalso
    rcases earlier with _ | ⟨first, _ | ⟨second, earlier⟩⟩
    · obtain ⟨rfl, -⟩ := List.cons.inj hcalls
      have hout : (call ["export", "-o", "all.md"]).output? t =
          some "/.neira/export_code/2024-05-01/v1403/all.md" := by decide +kernel
      have : path = "/.neira/export_code/2024-05-01/v1403/all.md" :=
        Option.some.inj (hpath.symm.trans hout)
      exact absurd (this ▸ hup) (by decide +kernel)
    · obtain ⟨rfl, hrest⟩ := List.cons.inj hcalls
      obtain ⟨rfl, -⟩ := List.cons.inj hrest
      have hout : (call ["map", "-o", "MAP.txt"]).output?
          (afterAll t [call ["export", "-o", "all.md"]]) = some "/MAP.txt" := by decide +kernel
      have : path = "/MAP.txt" := Option.some.inj (hpath.symm.trans hout)
      exact absurd (this ▸ hup) (by decide +kernel)
    · simp at hcalls

/-- The exception is real: a map that goes up from a missing directory replaces one that was
there, without leave to replace. -/
theorem replaced_behindMissing :
    let t : Tree := ⟨[(["MAP.txt"], .file "old\n".toUTF8)]⟩
    let c : Call := ⟨Tool.absent "code2prompt", "/", "", ⟨2024, 5, 1, 14, 3⟩,
      ["map", "--json", "-o", "gone/../MAP.txt"]⟩
    t.IsClosed ∧ c.isForced = false ∧ c.tool.WritesOnlyOutput ∧
      t.readText "/MAP.txt" = .ok "old\n" ∧ (c.after t).readText "/MAP.txt" = .ok "[]" :=
  ⟨Tree.isClosed_of_entries (by decide +kernel), by decide +kernel,
    Tool.writesOnlyOutput_absent "code2prompt", by decide +kernel, by decide +kernel⟩

end CodeAtlas.Command
