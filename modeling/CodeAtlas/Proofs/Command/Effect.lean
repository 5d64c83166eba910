/-
Which effects a command has on the file system.

A command is a chain of actions, and all but one of them leave the files as they are: they read
the tree, write lines, or fail (`Still`). So the tree behind the chain is the one in front of it,
or what that one action makes of it (`Leaves.change_bind`).
-/
import CodeAtlas.Command.Run

set_option autoImplicit false

namespace CodeAtlas.Command

variable {α β ε : Type}

/-- The result of an action that is started in a session, and the session behind it. -/
def Action.result (a : Action α) (s : Session) : Except Failure α × Session :=
  (ExceptT.run a).run s

theorem result_bind (a : Action α) (f : α → Action β) (s : Session) :
    Action.result (a >>= f) s =
      match Action.result a s with
      | (.ok v, s') => Action.result (f v) s'
      | (.error e, s') => (.error e, s') := by
  unfold Action.result ExceptT.run StateT.run
  simp only [bind, ExceptT.bind, ExceptT.mk, StateT.bind, ExceptT.bindCont]
  obtain ⟨result | result, s'⟩ := a s
  · rfl
  · rfl

/-! ## Actions that leave the files as they are -/

/-- The action leaves the files as they are, whether it ends well or not. -/
def Still (a : Action α) : Prop := ∀ s, (Action.result a s).2.tree = s.tree

theorem still_pure (v : α) : Still (pure v) := fun _ => rfl

theorem still_throw (e : Failure) : Still (throw e : Action α) := fun _ => rfl

theorem Still.bind {a : Action α} {f : α → Action β} (ha : Still a) (hf : ∀ v, Still (f v)) :
    Still (a >>= f) := by
  intro s
  have hs := ha s
  rw [result_bind]
  generalize Action.result a s = r at hs ⊢
  obtain ⟨e | v, s'⟩ := r
  · exact hs
  · exact (hf v s').trans hs

theorem still_forIn {σ : Type} (xs : List β) (f : β → σ → Action (ForInStep σ)) (start : σ)
    (hf : ∀ x v, Still (f x v)) : Still (forIn xs start f) := by
  induction xs generalizing start with
  | nil => exact still_pure start
  | cons x xs ih =>
    rw [List.forIn_cons]
    refine (hf x start).bind fun r => ?_
    cases r with
    | done v => exact still_pure v
    | yield v => exact ih v

theorem still_say (line : String) : Still (say line) := fun _ => rfl

theorem still_warn (text : String) : Still (warn text) := fun _ => rfl

theorem still_tree : Still tree := fun _ => rfl

theorem still_within (context : String) (causes : ε → List String) (r : Except ε α) :
    Still (within context causes r) := by
  cases r with
  | ok v => exact still_pure v
  | error e => exact still_throw _

/-! ## What a chain leaves -/

/-- Started on a tree, the action leaves one that fits. -/
def Leaves (a : Action α) (t : Tree) (P : Tree → Prop) : Prop :=
  ∀ s : Session, s.tree = t → P (Action.result a s).2.tree

variable {a : Action α} {f : α → Action β} {t : Tree} {P : Tree → Prop}

theorem Still.leaves (ha : Still a) (ht : P t) : Leaves a t P := by
  rintro s rfl
  rwa [ha s]

theorem Still.leaves_bind (ha : Still a) (ht : P t) (hf : ∀ v, Leaves (f v) t P) :
    Leaves (a >>= f) t P := by
  rintro s rfl
  have hs := ha s
  rw [result_bind]
  generalize Action.result a s = r at hs ⊢
  obtain ⟨e | v, s'⟩ := r
  · exact hs ▸ ht
  · exact hf v s' hs

theorem Leaves.tree_bind {f : Tree → Action β} (h : Leaves (f t) t P) :
    Leaves (tree >>= f) t P := by
  rintro s rfl
  exact h s rfl

theorem Leaves.within_bind {context : String} {causes : ε → List String} {r : Except ε α}
    (ht : P t) (hf : ∀ v, r = .ok v → Leaves (f v) t P) :
    Leaves (within context causes r >>= f) t P := by
  cases r with
  | ok v => exact hf v rfl
  | error e =>
    rintro s rfl
    exact ht

theorem Leaves.change_bind {g : Tree → Tree × α} (h : Leaves (f (g t).2) (g t).1 P) :
    Leaves (change g >>= f) t P := by
  rintro s rfl
  exact h { s with tree := (g s.tree).1 } rfl

theorem tree_ofAction {a : Action Unit} (h : Leaves a t P) : P (Outcome.ofAction t a).tree := by
  have hs := h { tree := t } rfl
  rw [Outcome.ofAction]
  split
  all_goals
    next hrun =>
      rw [Action.result, hrun] at hs
      exact hs

/-! ## The lines of the commands -/

theorem still_checkManifest (root : String) : Still (checkManifest root) := by
  rw [checkManifest]
  refine still_tree.bind fun t => ?_
  split
  case h_1 m _ =>
    refine (still_forIn _ _ _ fun key _ => ?_).bind fun _ => still_pure _
    exact (still_warn _).bind fun _ => still_pure _
  case h_2 => exact still_pure _
  case h_3 => exact still_warn _

theorem still_warnOf (c : Corpus) : Still (warnOf c) := by
  rw [warnOf]
  refine (still_forIn _ _ _ fun glob _ => ?_).bind fun _ =>
    (still_forIn _ _ _ fun s _ => ?_).bind fun _ => still_pure _
  · exact (still_warn _).bind fun _ => still_pure _
  · exact (still_warn _).bind fun _ => still_pure _

theorem still_sayMap (path : String) (bytes lines : Nat) (c : Corpus) :
    Still (sayMap path bytes lines c) := by
  rw [sayMap]
  iterate 10 refine (still_say _).bind fun _ => ?_
  split
  · exact still_pure _
  · exact still_say _

theorem still_sayPlan (plan : ExportPlan) : Still (sayPlan plan) := by
  rw [sayPlan]
  iterate 2 refine (still_say _).bind fun _ => ?_
  refine Still.bind ?_ fun _ => (still_say _).bind fun _ => ?_
  · cases plan.target with
    | superProject p packages => exact (still_say _).bind fun _ => still_say _
    | currentProject name => exact (still_say _).bind fun _ => still_say _
  · split
    · exact still_pure _
    · exact still_say _

theorem still_sayInstall (tool : String) : Still (sayInstall tool) := by
  rw [sayInstall]
  exact (still_say _).bind fun _ => (still_say _).bind fun _ => still_say _

theorem still_sayPackages (target : ExportTarget) : Still (sayPackages target) := by
  unfold sayPackages
  split
  case h_1 =>
    refine (still_say _).bind fun _ => (still_forIn _ _ _ fun p _ => ?_).bind fun _ => still_pure _
    exact (still_say _).bind fun _ => still_pure _
  case h_2 => exact still_pure _

/-! ## The commands -/

/-- A map is saved as a report, or the files are as they were. -/
theorem leaves_runMap (cwd stamp : String) (r : MapRequest) (t : Tree) :
    Leaves (runMap cwd stamp r) t fun t' => t' = t ∨ ∃ loaded text,
      Settings.load t (PathName.join cwd r.root) = .ok loaded ∧
      t' = (Report.save t (mapPath (loaded.overlay r.settings) r.json cwd) text r.force).1 := by
  rw [runMap]
  refine Leaves.tree_bind ?_
  refine Leaves.within_bind (.inl rfl) fun loaded hloaded => ?_
  refine (still_checkManifest _).leaves_bind (.inl rfl) fun _ => ?_
  refine (still_say _).leaves_bind (.inl rfl) fun _ => ?_
  refine Leaves.tree_bind ?_
  refine Leaves.within_bind (.inl rfl) fun corpus _ => ?_
  refine (still_warnOf _).leaves_bind (.inl rfl) fun _ => ?_
  refine (still_say _).leaves_bind (.inl rfl) fun _ => ?_
  refine Leaves.change_bind ?_
  refine Still.leaves ?_ (.inr ⟨loaded, _, hloaded, rfl⟩)
  refine (still_within _ _ _).bind fun saved => ?_
  cases saved with
  | alreadyThere => exact still_say _
  | written bytes lines => exact still_sayMap _ _ _ _

/-- An export runs its plan, or the files are as they were. -/
theorem leaves_runExport (tool : Tool) (cwd : String) (now : Clock) (r : ExportRequest)
    (t : Tree) :
    Leaves (runExport tool cwd now r) t fun t' => t' = t ∨ ∃ plan,
      ExportPlan.resolve t cwd r.profile r.output now = .ok plan ∧
      t' = (plan.run t tool r.force).1 := by
  rw [runExport]
  refine Leaves.tree_bind ?_
  refine Leaves.within_bind (.inl rfl) fun plan hplan => ?_
  refine (still_sayPlan plan).leaves_bind (.inl rfl) fun _ => ?_
  refine Leaves.change_bind ?_
  refine Still.leaves ?_ (.inr ⟨plan, hplan, rfl⟩)
  split
  · exact (still_sayInstall _).bind fun _ => still_throw _
  · exact still_throw _
  · exact still_say _
  · iterate 4 refine (still_say _).bind fun _ => ?_
    exact still_sayPackages _

end CodeAtlas.Command
