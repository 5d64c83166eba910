/-
What an export leaves of the files.

The tool is another program, so what a run of it does is up to it. A result that is there keeps
it from being run at all: nothing depends on what the run would do (`ExportPlan.runFrame`). Where
it is run, all that is asked of it is that it writes to no file but the one it is told
(`Tool.WritesOnlyOutput`).
-/
import CodeAtlas.Export.Run
import CodeAtlas.Proofs.Files.Tree

set_option autoImplicit false

namespace CodeAtlas

/-- Told what a plan says, the tool leaves the files as they are or writes the output file. -/
def Tool.WritesOnlyOutput (tool : Tool) : Prop :=
  ∀ (plan : ExportPlan) (t t' : Tree) (exit : ToolExit),
    tool.run t plan.root plan.args = .ok (t', exit) →
      t' = t ∨ ∃ bytes, t.writeBytes plan.outputFile bytes = .ok t'

/-- A tool that writes a text, as the real one does where all goes well. -/
def Tool.writing (text : String) : Tool where
  name := "code2prompt"
  version := .ok {}
  run t _ args :=
    match t.writeText (args.getD 3 "") text with
    | .ok t' => .ok (t', {})
    | .error _ => .ok (t, { code := 1 })

theorem ExportPlan.getD_args (plan : ExportPlan) : plan.args.getD 3 "" = plan.outputFile := by
  rw [args]
  cases plan.target <;> rfl

theorem Tool.writesOnlyOutput_writing (text : String) : (writing text).WritesOnlyOutput := by
  intro plan t t' exit hrun
  simp only [writing, plan.getD_args] at hrun
  split at hrun
  case h_1 t' hwrite =>
    cases hrun
    exact .inr ⟨_, hwrite⟩
  case h_2 =>
    cases hrun
    exact .inl rfl

theorem Tool.writesOnlyOutput_absent (name : String) : (absent name).WritesOnlyOutput :=
  fun _ _ _ _ hrun => nomatch hrun

variable {plan : ExportPlan} {t : Tree} {tool : Tool} {force : Bool}

/-! ## The tool -/

theorem Tool.runIn_cases (tool : Tool) (t : Tree) (dir : String) (args : List String) :
    (∃ cause, tool.runIn t dir args = (t, .error (.notStarted tool.name cause))) ∨
    ∃ t' exit, tool.run t dir args = .ok (t', exit) ∧
      tool.runIn t dir args = (t', if exit.code = 0 then .ok exit.stdout
        else .error (.failed exit.code (Tool.trimmed exit.stderr))) := by
  simp only [Tool.runIn]
  split
  case h_1 cause _ => exact .inl ⟨cause, rfl⟩
  case h_2 t' exit hstarted =>
    refine .inr ⟨t', exit, ?_, rfl⟩
    split at hstarted
    case isTrue => cases hstarted
    case isFalse =>
      cases hfind : t.find dir with
      | error e => rw [hfind] at hstarted; cases hstarted
      | ok found =>
        obtain ⟨place, _ | bytes⟩ := found
        · simp only [hfind, bind, Except.bind] at hstarted
          split at hstarted
          case isTrue => cases hstarted
          case isFalse => exact hstarted
        · rw [hfind] at hstarted
          cases hstarted

theorem Tool.runIn_ne_toolMissing (tool : Tool) (t : Tree) (dir name : String)
    (args : List String) : (tool.runIn t dir args).2 ≠ .error (.toolMissing name) := by
  intro h
  obtain ⟨cause, hrun⟩ | ⟨t', exit, -, hrun⟩ := tool.runIn_cases t dir args
  · rw [hrun] at h
    cases h
  · rw [hrun] at h
    dsimp only at h
    split at h <;> cases h

theorem Tool.WritesOnlyOutput.runIn (h : tool.WritesOnlyOutput) (plan : ExportPlan) (t : Tree) :
    (tool.runIn t plan.root plan.args).1 = t ∨
      ∃ bytes, t.writeBytes plan.outputFile bytes =
        .ok (tool.runIn t plan.root plan.args).1 := by
  obtain ⟨cause, hrun⟩ | ⟨t', exit, hstarted, hrun⟩ := tool.runIn_cases t plan.root plan.args
  · exact .inl (by rw [hrun])
  · rw [hrun]
    exact h plan t t' exit hstarted

/-! ## Running a plan -/

namespace ExportPlan

/-- What happens to the tree: nothing, or the directory of the version is made and perhaps the
tool is run behind that. -/
theorem run_cases (plan : ExportPlan) (t : Tree) (tool : Tool) (force : Bool) :
    (plan.run t tool force).1 = t ∨
    ((t.isThere plan.outputFile && !force) = false ∧
      ((∃ e, plan.run t tool force =
          ((t.makeDirectories plan.versionDir).1, .error (.io ⟨plan.versionDir, e⟩))) ∨
        ∃ result : String → Exported, plan.run t tool force =
          ((tool.runIn (t.makeDirectories plan.versionDir).1 plan.root plan.args).1,
            (tool.runIn (t.makeDirectories plan.versionDir).1 plan.root plan.args).2.map
              result))) := by
  rw [run]
  cases tool.check with
  | error e => exact .inl rfl
  | ok version =>
    dsimp only
    cases hguard : t.isThere plan.outputFile && !force with
    | true => exact .inl rfl
    | false =>
      rw [if_neg Bool.false_ne_true]
      refine .inr ⟨rfl, ?_⟩
      obtain ⟨t₁, _ | e⟩ := t.makeDirectories plan.versionDir
      · exact .inr ⟨_, rfl⟩
      · exact .inl ⟨e, rfl⟩

/-- What running a plan does to the tree. -/
structure RunFrame (plan : ExportPlan) (t : Tree) (tool : Tool) (force : Bool) : Prop where
  kept : t.isThere plan.outputFile = true → force = false → (plan.run t tool force).1 = t
  /-- The tool is not run: whatever it would do, the outcome is the same. -/
  notRun : t.isThere plan.outputFile = true → force = false →
    ∀ other : Tree → String → List String → Except FileError (Tree × ToolExit),
      plan.run t { tool with run := other } force = plan.run t tool force
  missing : ∀ name, (plan.run t tool force).2 = .error (.toolMissing name) →
    (plan.run t tool force).1 = t

theorem runFrame (plan : ExportPlan) (t : Tree) (tool : Tool) (force : Bool) :
    RunFrame plan t tool force := by
  refine {
    kept := fun hthere hforce => ?_
    notRun := fun hthere hforce other => ?_
    missing := fun name hmissing => ?_ }
  · obtain hsame | ⟨hguard, -⟩ := plan.run_cases t tool force
    · exact hsame
    · simp [hthere, hforce] at hguard
  · have hguard : (t.isThere plan.outputFile && !force) = true := by simp [hthere, hforce]
    simp only [run, hguard, if_pos, Tool.check]
  · obtain hsame | ⟨-, ⟨e, hrun⟩ | ⟨result, hrun⟩⟩ := plan.run_cases t tool force
    · exact hsame
    · rw [hrun] at hmissing
      cases hmissing
    · rw [hrun] at hmissing
      have hnever := tool.runIn_ne_toolMissing (t.makeDirectories plan.versionDir).1 plan.root
        name plan.args
      cases hresult : (tool.runIn (t.makeDirectories plan.versionDir).1 plan.root plan.args).2 with
      | ok out => rw [hresult] at hmissing; cases hmissing
      | error e =>
        rw [hresult] at hmissing hnever
        cases hmissing
        exact absurd rfl hnever

theorem isClosed_run (hclosed : t.IsClosed) (htool : tool.WritesOnlyOutput) (plan : ExportPlan)
    (force : Bool) : (plan.run t tool force).1.IsClosed := by
  have hmade := Tree.isClosed_makeDirectories hclosed plan.versionDir
  obtain hsame | ⟨-, ⟨e, hrun⟩ | ⟨result, hrun⟩⟩ := plan.run_cases t tool force
  · rwa [hsame]
  · rwa [hrun]
  · rw [hrun]
    obtain hleft | ⟨bytes, hwrite⟩ := htool.runIn plan (t.makeDirectories plan.versionDir).1
    · rwa [hleft]
    · exact Tree.isClosed_writeBytes hmade hwrite

/-- Without leave to replace, files that are there keep their bytes; only an output path that goes
upward and led nowhere can lead to one of them when the tool writes. -/
theorem run_kept {place : Place} {old : ByteArray} (hclosed : t.IsClosed)
    (htool : tool.WritesOnlyOutput) (hold : t.entry? place = some (.file old)) :
    Tree.entry? (plan.run t tool false).1 place = some (.file old) ∨
      (".." ∈ PathName.parts plan.outputFile ∧ t.isThere plan.outputFile = false ∧
        ∃ bytes, (plan.run t tool false).1.find plan.outputFile = .ok (place, .file bytes)) := by
  have hadds := Tree.adds_makeDirectories t plan.versionDir
  obtain hsame | ⟨hguard, ⟨e, hrun⟩ | ⟨result, hrun⟩⟩ := plan.run_cases t tool false
  · exact .inl (by rwa [hsame])
  · exact .inl (by rw [hrun]; exact (hadds.file place old).mpr hold)
  · have habsent : t.isThere plan.outputFile = false := by simpa using hguard
    rw [hrun]
    obtain hleft | ⟨bytes, hwrite⟩ := htool.runIn plan (t.makeDirectories plan.versionDir).1
    · exact .inl (by rw [hleft]; exact (hadds.file place old).mpr hold)
    · exact (Tree.kept_or_upward hclosed hadds habsent hwrite hold).imp_right
        fun ⟨hup, hfind⟩ => ⟨hup, habsent, bytes, hfind⟩

end ExportPlan

end CodeAtlas
