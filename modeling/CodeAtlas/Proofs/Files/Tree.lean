/-
What operations leave of a file system.

Two facts carry the frames. `makeDirectories` only adds directories where nothing stood, each of
them where a name of a place above the path leads (`adds_makeDirectories`); and a directory
that is there stays one, so a path name that leads somewhere leads there afterwards too
(`target_of_kept`). `writeBytes` changes one place, the one to which the path then leads
(`wrote_of_writeBytes`).

Making directories can let a path lead to a file to which it did not lead before, and `..` is
the only way to that: without it the directories on the way are those in which the file stands
(`target_of_noUpward`).
-/
import CodeAtlas.Files.Tree
import Mathlib.Data.List.Basic
import Mathlib.Logic.Relation

set_option autoImplicit false

namespace CodeAtlas

/-- Is `q` the name of the place in which `p` stands, or of one above it? -/
def PathName.Above (p q : String) : Prop :=
  Relation.TransGen (fun p q => PathName.parent? p = some q) p q

namespace Tree

variable {t t' : Tree} {p : String} {dir place : Place} {name : String} {e : Entry}

/-! ## Places -/

@[simp] theorem entry?_nil (t : Tree) : t.entry? [] = some .dir := rfl

theorem lookup_map_replaced (entries : List (Place × Entry)) (place other : Place) (e : Entry) :
    (entries.map fun (q, old) => if q = place then (q, e) else (q, old)).lookup other =
      if other = place then (entries.lookup other).map fun _ => e else entries.lookup other := by
  induction entries with
  | nil => simp
  | cons row entries ih =>
    obtain ⟨q, old⟩ := row
    rw [List.map_cons, List.lookup_cons, ih]
    by_cases hq : q = place <;> by_cases ho : other = q <;> grind

theorem any_eq_isSome_lookup (entries : List (Place × Entry)) (place : Place) :
    entries.any (·.1 = place) = (entries.lookup place).isSome := by
  induction entries with
  | nil => rfl
  | cons row entries ih =>
    rw [List.any_cons, List.lookup_cons, ih]
    by_cases hrow : row.1 = place
    · simp [hrow]
    · have hne : (place == row.1) = false := beq_eq_false_iff_ne.mpr fun h => hrow h.symm
      simp [hrow, hne]

/-- What stands at the places after something was put at one of them. -/
theorem entry?_put (t : Tree) (dir : Place) (name : String) (e : Entry) (other : Place) :
    entry? (t.put (dir ++ [name]) e) other =
      if other = dir ++ [name] then some e else t.entry? other := by
  generalize hplace : dir ++ [name] = place
  by_cases hroot : other = []
  · have hne : [] ≠ place := by simp [← hplace]
    rw [hroot, entry?_nil, if_neg hne, entry?_nil]
  · simp only [ entry?, List.isEmpty_eq_false_iff.mpr hroot, if_neg Bool.false_ne_true]
    rw [put, any_eq_isSome_lookup]
    cases hold : t.entries.lookup place with
    | some old =>
      rw [Option.isSome_some, if_pos rfl, lookup_map_replaced]
      split
      case isTrue heq => rw [heq, hold, Option.map_some]
      case isFalse => rfl
    | none =>
      rw [Option.isSome_none, if_neg Bool.false_ne_true, List.lookup_append, List.lookup_cons,
        List.lookup_nil]
      by_cases heq : other = place
      · simp [heq, hold]
      · simp [heq, beq_eq_false_iff_ne.mpr heq]

/-- Directories stay where nothing is put in place of one. -/
theorem dir_put (hold : t.entry? (dir ++ [name]) ≠ some .dir) (e : Entry)
    (hplace : t.entry? place = some .dir) :
    entry? (t.put (dir ++ [name]) e) place = some .dir := by
  rw [ entry?_put, if_neg]
  · exact hplace
  · rintro rfl
    exact hold hplace

/-- What stands somewhere stands in a directory. -/
def IsClosed (t : Tree) : Prop :=
  ∀ place name e, t.entry? (place ++ [name]) = some e → t.entry? place = some .dir

/-- It is enough to look at the places that are listed. -/
theorem isClosed_of_entries
    (h : ∀ row ∈ t.entries, t.entry? row.1.dropLast = some .dir) : t.IsClosed := by
  intro place name e he
  rw [ entry?, if_neg (by simp)] at he
  obtain ⟨row, hrow, hplace⟩ : ∃ row ∈ t.entries, row.1 = place ++ [name] := by
    have hany := any_eq_isSome_lookup t.entries (place ++ [name])
    rw [he, Option.isSome_some, List.any_eq_true] at hany
    obtain ⟨row, hrow, hplace⟩ := hany
    exact ⟨row, hrow, of_decide_eq_true hplace⟩
  have hdir := h row hrow
  rwa [hplace, List.dropLast_concat] at hdir

theorem IsClosed.dir_of_append (h : t.IsClosed) (above below : Place) {e : Entry}
    (hbelow : below ≠ []) (he : t.entry? (above ++ below) = some e) :
    t.entry? above = some .dir := by
  induction below generalizing above with
  | nil => exact absurd rfl hbelow
  | cons name below ih =>
    rw [← List.singleton_append, ← List.append_assoc] at he
    by_cases hnil : below = []
    · rw [hnil, List.append_nil] at he
      exact h _ _ _ he
    · exact h _ _ _ (ih _ hnil he)

theorem IsClosed.dir_of_isPrefix (h : t.IsClosed) {above : Place} (habove : above <+: place)
    (he : t.entry? place = some .dir) : t.entry? above = some .dir := by
  obtain ⟨below, rfl⟩ := habove
  by_cases hnil : below = []
  · rwa [hnil, List.append_nil] at he
  · exact h.dir_of_append above below hnil he

/-- A thing put into a directory, not instead of a directory, leaves the tree closed. -/
theorem IsClosed.put (h : t.IsClosed) (hdir : t.entry? dir = some .dir)
    (hold : t.entry? (dir ++ [name]) ≠ some .dir) (e : Entry) :
    (t.put (dir ++ [name]) e).IsClosed := by
  intro above below entry hentry
  have hput := entry?_put t dir name e
  rw [hput] at hentry
  have habove : t.entry? above = some .dir := by
    split at hentry
    case isTrue heq =>
      rw [(List.append_inj' heq rfl).1]
      exact hdir
    case isFalse => exact h _ _ _ hentry
  rw [hput, if_neg]
  · exact habove
  · rintro rfl
    exact hold habove

/-! ## Resolving in two trees -/

/-- A path leads through the same directories where all of them are kept. -/
theorem descend_of_kept (hkept : ∀ place, t.entry? place = some .dir → t'.entry? place = some .dir)
    {parts : List String} {d : Place} (h : t.descend dir parts = .ok d) :
    t'.descend dir parts = .ok d := by
  induction parts generalizing dir with
  | nil => exact h
  | cons part parts ih =>
    rw [descend] at h ⊢
    split at h
    case isTrue hdot => rw [if_pos hdot]; exact ih h
    case isFalse hdot =>
      rw [if_neg hdot]
      split at h
      case isTrue hup => rw [if_pos hup]; exact ih h
      case isFalse hup =>
        rw [if_neg hup]
        split at h
        case isTrue => cases h
        case isFalse hshort =>
          rw [if_neg hshort]
          split at h
          case h_1 => cases h
          case h_2 => cases h
          case h_3 hthere => rw [hkept _ hthere]; exact ih h

/-- Where the tree is closed, the directories through which a path leads are directories. -/
theorem dir_of_descend (hclosed : t.IsClosed) {parts : List String} {d : Place}
    (hdir : t.entry? dir = some .dir) (h : t.descend dir parts = .ok d) :
    t.entry? d = some .dir := by
  induction parts generalizing dir with
  | nil => cases h; exact hdir
  | cons part parts ih =>
    rw [descend] at h
    split at h
    case isTrue => exact ih hdir h
    case isFalse =>
      split at h
      case isTrue => exact ih (hclosed.dir_of_isPrefix (List.dropLast_prefix dir) hdir) h
      case isFalse =>
        split at h
        case isTrue => cases h
        case isFalse =>
          split at h
          case h_1 => cases h
          case h_2 => cases h
          case h_3 hthere => exact ih hthere h

/-- Without `..` a path leads downward. -/
theorem isPrefix_of_descend {parts : List String} {d : Place} (hup : ".." ∉ parts)
    (h : t.descend dir parts = .ok d) : dir <+: d := by
  induction parts generalizing dir with
  | nil => cases h; exact List.prefix_rfl
  | cons part parts ih =>
    have hrest : ".." ∉ parts := fun hmem => hup (List.mem_cons_of_mem _ hmem)
    have hpart : part ≠ ".." := fun heq => hup (heq ▸ List.mem_cons_self)
    rw [descend, if_neg hpart] at h
    split at h
    case isTrue => exact ih hrest h
    case isFalse =>
      split at h
      case isTrue => cases h
      case isFalse =>
        split at h
        case h_1 => cases h
        case h_2 => cases h
        case h_3 => exact (List.prefix_append _ _).trans (ih hrest h)

/-- Without `..` a path leads through the directories in which its end stands, so it leads there
in every closed tree in which that is a directory. -/
theorem descend_of_noUpward (hclosed : t.IsClosed) {parts : List String} {d : Place}
    (hup : ".." ∉ parts) (hd : t.entry? d = some .dir) (h : t'.descend dir parts = .ok d) :
    t.descend dir parts = .ok d := by
  induction parts generalizing dir with
  | nil => exact h
  | cons part parts ih =>
    have hrest : ".." ∉ parts := fun hmem => hup (List.mem_cons_of_mem _ hmem)
    have hpart : part ≠ ".." := fun heq => hup (heq ▸ List.mem_cons_self)
    rw [descend, if_neg hpart] at h ⊢
    split at h
    case isTrue hdot => rw [if_pos hdot]; exact ih hrest h
    case isFalse hdot =>
      rw [if_neg hdot]
      split at h
      case isTrue => cases h
      case isFalse hshort =>
        rw [if_neg hshort]
        split at h
        case h_1 => cases h
        case h_2 => cases h
        case h_3 =>
          rw [hclosed.dir_of_isPrefix (isPrefix_of_descend hrest h) hd]
          exact ih hrest h

/-! ## Targets -/

/-- What is wrong with a path name whatever the tree. -/
def nameFault? (p : String) : Option FileError :=
  if p.toList.contains '\x00' then some .zeroInName
  else if p.isEmpty then some .notFound
  else if maxPathLength < p.utf8ByteSize then some .nameTooLong
  else none

/-- What the last part of a path name leads to from a directory. -/
def lastTarget (dir : Place) : Option String → Except FileError Target
  | none => .ok (.here dir)
  | some last =>
    if last = "." then .ok (.here dir)
    else if last = ".." then .ok (.here dir.dropLast)
    else if maxNameLength < last.utf8ByteSize then .error .nameTooLong
    else .ok (.named dir last)

theorem target_eq (t : Tree) (p : String) :
    t.target p =
      match nameFault? p with
      | some e => .error e
      | none =>
        match t.descend [] (PathName.parts p).dropLast with
        | .error e => .error e
        | .ok dir => lastTarget dir (PathName.parts p).getLast? := by
  by_cases hzero : p.toList.contains '\x00' = true
  · simp only [target, nameFault?, if_pos hzero]
    rfl
  by_cases hempty : p.isEmpty = true
  · simp only [target, nameFault?, if_neg hzero, if_pos hempty]
    rfl
  by_cases hlong : maxPathLength < p.utf8ByteSize
  · simp only [target, nameFault?, if_neg hzero, if_neg hempty, if_pos hlong]
    rfl
  simp only [target, nameFault?, if_neg hzero, if_neg hempty, if_neg hlong]
  cases t.descend [] (PathName.parts p).dropLast with
  | error e => rfl
  | ok dir =>
    cases (PathName.parts p).getLast? with
    | none => rfl
    | some last => rfl

theorem target_eq_ok {x : Target} : t.target p = .ok x ↔
    nameFault? p = none ∧ ∃ d, t.descend [] (PathName.parts p).dropLast = .ok d ∧
      lastTarget d (PathName.parts p).getLast? = .ok x := by
  rw [target_eq]
  constructor
  · intro h
    split at h
    case h_1 => cases h
    case h_2 hname =>
      split at h
      case h_1 => cases h
      case h_2 d hd => exact ⟨hname, d, hd, h⟩
  · rintro ⟨hname, d, hd, h⟩
    rw [hname, hd]
    exact h

theorem lastTarget_named {last : Option String} {d : Place}
    (h : lastTarget d last = .ok (.named dir name)) : d = dir := by
  cases last with
  | none => cases h
  | some last => grind [lastTarget]

theorem target_of_kept (hkept : ∀ place, t.entry? place = some .dir → t'.entry? place = some .dir)
    {x : Target} (h : t.target p = .ok x) : t'.target p = .ok x := by
  obtain ⟨hname, d, hd, hlast⟩ := target_eq_ok.mp h
  exact target_eq_ok.mpr ⟨hname, d, descend_of_kept hkept hd, hlast⟩

theorem dir_of_named (hclosed : t.IsClosed) (h : t.target p = .ok (.named dir name)) :
    t.entry? dir = some .dir := by
  obtain ⟨-, d, hd, hlast⟩ := target_eq_ok.mp h
  rw [← lastTarget_named hlast]
  exact dir_of_descend hclosed (entry?_nil t) hd

theorem target_of_noUpward (hclosed : t.IsClosed) (hup : ".." ∉ PathName.parts p)
    (hdir : t.entry? dir = some .dir) (h : t'.target p = .ok (.named dir name)) :
    t.target p = .ok (.named dir name) := by
  obtain ⟨hname, d, hd, hlast⟩ := target_eq_ok.mp h
  obtain rfl := lastTarget_named hlast
  have hfront : ".." ∉ (PathName.parts p).dropLast := fun hmem => hup (List.dropLast_subset _ hmem)
  exact target_eq_ok.mpr ⟨hname, d, descend_of_noUpward hclosed hfront hdir hd, hlast⟩

/-! ## Finding -/

theorem find_here (h : t.target p = .ok (.here dir)) : t.find p = .ok (dir, .dir) := by
  rw [find, h]
  rfl

theorem find_dir (h : t.target p = .ok (.named dir name))
    (hthere : t.entry? (dir ++ [name]) = some .dir) : t.find p = .ok (dir ++ [name], .dir) := by
  simp only [find, h, bind, Except.bind, hthere]
  rfl

theorem find_file {bytes : ByteArray} (h : t.target p = .ok (.named dir name))
    (hslash : endsInSlash p = false) (hthere : t.entry? (dir ++ [name]) = some (.file bytes)) :
    t.find p = .ok (dir ++ [name], .file bytes) := by
  simp only [find, h, bind, Except.bind, hthere, hslash]
  rfl

/-- A path to a directory leads there in every tree that keeps the directories. -/
theorem find_dir_of_kept
    (hkept : ∀ place, t.entry? place = some .dir → t'.entry? place = some .dir)
    (h : t.find p = .ok (place, .dir)) : t'.find p = .ok (place, .dir) := by
  rw [find] at h
  cases htarget : t.target p with
  | error e => rw [htarget] at h; cases h
  | ok x =>
    simp only [htarget, bind, Except.bind] at h
    cases x with
    | here dir =>
      cases h
      exact find_here (target_of_kept hkept htarget)
    | named dir name =>
      dsimp only at h
      split at h
      case h_1 => cases h
      case h_2 hthere =>
        cases h
        exact find_dir (target_of_kept hkept htarget) (hkept _ hthere)
      case h_3 => split at h <;> cases h

/-! ## Making directories -/

theorem makeDirectory_eq_ok : t.makeDirectory p = .ok t' ↔
    ∃ dir name, t.target p = .ok (.named dir name) ∧ t.entry? (dir ++ [name]) = none ∧
      t' = t.put (dir ++ [name]) .dir := by
  rw [makeDirectory]
  constructor
  · intro h
    cases htarget : t.target p with
    | error e => rw [htarget] at h; cases h
    | ok x =>
      simp only [htarget, bind, Except.bind] at h
      cases x with
      | here dir => cases h
      | named dir name =>
        dsimp only at h
        split at h
        case h_1 => cases h
        case h_2 hfree => cases h; exact ⟨dir, name, rfl, hfree, rfl⟩
  · rintro ⟨dir, name, htarget, hfree, rfl⟩
    simp only [htarget, bind, Except.bind, hfree]
    rfl

/-- One directory more, at a name that fits. -/
def MakesOne (P : String → Prop) (t t' : Tree) : Prop := ∃ q, P q ∧ t.makeDirectory q = .ok t'

/-- Does a tree hold, beyond what another one holds, only directories to which names lead that
fit? -/
def Adds (P : String → Prop) (t t' : Tree) : Prop :=
  ∀ place, t'.entry? place = t.entry? place ∨
    t.entry? place = none ∧ t'.entry? place = some .dir ∧
      ∃ q, P q ∧ t'.find q = .ok (place, .dir)

section

variable {P : String → Prop}

theorem Adds.dir_kept (h : Adds P t t') (hplace : t.entry? place = some .dir) :
    t'.entry? place = some .dir := by
  obtain heq | ⟨hnone, -⟩ := h place
  · rw [heq, hplace]
  · rw [hplace] at hnone; cases hnone

theorem Adds.file (h : Adds P t t') (place : Place) (bytes : ByteArray) :
    t'.entry? place = some (.file bytes) ↔ t.entry? place = some (.file bytes) := by
  obtain heq | ⟨hnone, hdir, -⟩ := h place
  · rw [heq]
  · simp [hnone, hdir]

theorem Adds.trans {t₁ t₂ : Tree} (h₁ : Adds P t t₁) (h₂ : Adds P t₁ t₂) : Adds P t t₂ := by
  intro place
  obtain heq₂ | ⟨hnone, hdir, q, hq, hfind⟩ := h₂ place
  · rw [heq₂]
    obtain heq₁ | ⟨hnone, hdir, q, hq, hfind⟩ := h₁ place
    · exact .inl heq₁
    · exact .inr ⟨hnone, hdir, q, hq, find_dir_of_kept (fun _ => h₂.dir_kept) hfind⟩
  · obtain heq₁ | ⟨-, hthere, -⟩ := h₁ place
    · exact .inr ⟨heq₁ ▸ hnone, hdir, q, hq, hfind⟩
    · rw [hthere] at hnone; cases hnone

theorem MakesOne.adds (h : MakesOne P t t') : Adds P t t' := by
  obtain ⟨q, hq, hmake⟩ := h
  obtain ⟨dir, name, htarget, hfree, rfl⟩ := makeDirectory_eq_ok.mp hmake
  have hput := entry?_put t dir name .dir
  have hold : t.entry? (dir ++ [name]) ≠ some .dir := by rw [hfree]; simp
  intro place
  by_cases heq : place = dir ++ [name]
  · refine .inr ⟨heq ▸ hfree, by rw [hput, if_pos heq], q, hq, ?_⟩
    rw [heq]
    exact find_dir (target_of_kept (fun _ => dir_put hold .dir) htarget)
      (by rw [hput, if_pos rfl])
  · exact .inl (by rw [hput, if_neg heq])

theorem MakesOne.isClosed (hclosed : t.IsClosed) (h : MakesOne P t t') : t'.IsClosed := by
  obtain ⟨q, -, hmake⟩ := h
  obtain ⟨dir, name, htarget, hfree, rfl⟩ := makeDirectory_eq_ok.mp hmake
  exact hclosed.put (dir_of_named hclosed htarget) (by rw [hfree]; simp) _

end

open Relation (ReflTransGen)

theorem makeLast_steps (t : Tree) (p : String) :
    ReflTransGen (MakesOne (· = p)) t (t.makeLast p).1 := by
  rw [makeLast]
  cases hmake : t.makeDirectory p with
  | ok t' => exact .single ⟨p, rfl, hmake⟩
  | error e => exact .refl

/-- Directories are made one by one, each of them for the name or one above it. -/
theorem makeDirectoriesFrom_steps (t : Tree) (fuel : Nat) (p : String) :
    ReflTransGen (MakesOne fun q => q = p ∨ PathName.Above p q) t
      (t.makeDirectoriesFrom fuel p).1 := by
  induction fuel generalizing p with
  | zero => exact .refl
  | succ fuel ih =>
    have hlast (t : Tree) : ReflTransGen (MakesOne fun q => q = p ∨ PathName.Above p q) t
        (t.makeLast p).1 :=
      ReflTransGen.mono (fun _ _ ⟨q, hq, hmake⟩ => ⟨q, .inl hq, hmake⟩) _ _ (makeLast_steps t p)
    rw [makeDirectoriesFrom]
    split
    case isTrue => exact .refl
    case isFalse =>
      split
      case h_1 above _ habove =>
        -- a directory above the one above is above this one
        have hwiden (t t' : Tree) : MakesOne (fun q => q = above ∨ PathName.Above above q) t t' →
            MakesOne (fun q => q = p ∨ PathName.Above p q) t t' :=
          fun ⟨q, hq, hmake⟩ =>
            ⟨q, .inr (hq.elim (fun heq => .single (heq ▸ habove)) (.head habove)), hmake⟩
        have hsteps := ReflTransGen.mono hwiden _ _ (ih above)
        split
        case h_1 t' hfront => rw [hfront] at hsteps; exact hsteps.trans (hlast t')
        case h_2 t' e hfront => rw [hfront] at hsteps; exact hsteps
      case h_2 => exact hlast t

theorem adds_makeDirectories (t : Tree) (p : String) :
    Adds (fun q => q = p ∨ PathName.Above p q) t (t.makeDirectories p).1 := by
  have hsteps := makeDirectoriesFrom_steps t (p.length + 1) p
  rw [makeDirectories]
  generalize (t.makeDirectoriesFrom (p.length + 1) p).1 = t' at hsteps ⊢
  induction hsteps with
  | refl => exact fun _ => .inl rfl
  | tail _ hone ih => exact ih.trans hone.adds

theorem isClosed_makeDirectories (hclosed : t.IsClosed) (p : String) :
    (t.makeDirectories p).1.IsClosed := by
  have hsteps := makeDirectoriesFrom_steps t (p.length + 1) p
  rw [makeDirectories]
  generalize (t.makeDirectoriesFrom (p.length + 1) p).1 = t' at hsteps ⊢
  induction hsteps with
  | refl => exact hclosed
  | tail _ hone ih => exact hone.isClosed ih

/-! ## Writing a file -/

theorem writeBytes_eq_ok {bytes : ByteArray} : t.writeBytes p bytes = .ok t' ↔
    ∃ dir name, t.target p = .ok (.named dir name) ∧ endsInSlash p = false ∧
      t.entry? (dir ++ [name]) ≠ some .dir ∧ t' = t.put (dir ++ [name]) (.file bytes) := by
  rw [writeBytes]
  -- each guard that refuses to write is one of the conditions
  constructor
  · intro h
    cases htarget : t.target p with
    | error e => rw [htarget] at h; cases h
    | ok x =>
      simp only [htarget, bind, Except.bind] at h
      cases x with
      | here dir => cases h
      | named dir name =>
        dsimp only at h
        split at h
        case isTrue => cases h
        case isFalse hslash =>
          split at h
          case h_1 => cases h
          case h_2 hdir =>
            cases h
            exact ⟨dir, name, rfl, by simpa using hslash, hdir, rfl⟩
  · rintro ⟨dir, name, htarget, hslash, hdir, rfl⟩
    simp only [htarget, bind, Except.bind, hslash, if_neg Bool.false_ne_true]
    rfl

/-- After writing, the path leads to the bytes, and all other places are as they were. -/
structure Wrote (t t' : Tree) (p : String) (bytes : ByteArray) (place : Place) : Prop where
  old : t.entry? place ≠ some .dir
  found : t'.find p = .ok (place, .file bytes)
  rest : ∀ other, other ≠ place → t'.entry? other = t.entry? other

theorem Wrote.dir_kept {bytes : ByteArray} (h : Wrote t t' p bytes place) {other : Place}
    (hother : t.entry? other = some .dir) : t'.entry? other = some .dir := by
  rw [h.rest other, hother]
  rintro rfl
  exact h.old hother

theorem wrote_of_writeBytes (bytes : ByteArray)
    (htarget : t.target p = .ok (.named dir name)) (hslash : endsInSlash p = false)
    (hold : t.entry? (dir ++ [name]) ≠ some .dir) :
    Wrote t (t.put (dir ++ [name]) (.file bytes)) p bytes (dir ++ [name]) := by
  have hput := entry?_put t dir name (.file bytes)
  have htarget' := target_of_kept (fun _ => dir_put hold (.file bytes)) htarget
  exact {
    old := hold
    found := find_file htarget' hslash (by rw [hput, if_pos rfl])
    rest := fun other hother => by rw [hput, if_neg hother] }

/-- A path that led nowhere is written to after directories were made. A file that was there
keeps its bytes, unless the path goes upward and leads to it now. -/
theorem kept_or_upward {t t₁ t₂ : Tree} {P : String → Prop} {bytes old : ByteArray}
    (hclosed : t.IsClosed) (hadds : Adds P t t₁) (habsent : t.isThere p = false)
    (hwrite : t₁.writeBytes p bytes = .ok t₂) (hold : t.entry? place = some (.file old)) :
    t₂.entry? place = some (.file old) ∨
      (".." ∈ PathName.parts p ∧ t₂.find p = .ok (place, .file bytes)) := by
  obtain ⟨dir, name, htarget, hslash, hdir, rfl⟩ := writeBytes_eq_ok.mp hwrite
  have hwrote := wrote_of_writeBytes bytes htarget hslash hdir
  by_cases hplace : place = dir ++ [name]
  · refine .inr ⟨?_, hplace ▸ hwrote.found⟩
    by_contra hup
    rw [hplace] at hold
    have htarget' := target_of_noUpward hclosed hup (hclosed _ _ _ hold) htarget
    have hthere := find_file htarget' hslash hold
    rw [isThere, hthere] at habsent
    cases habsent
  · exact .inl (by rw [hwrote.rest place hplace]; exact (hadds.file place old).mpr hold)

theorem isClosed_writeBytes {bytes : ByteArray} (hclosed : t.IsClosed)
    (h : t.writeBytes p bytes = .ok t') : t'.IsClosed := by
  obtain ⟨dir, name, htarget, -, hdir, rfl⟩ := writeBytes_eq_ok.mp h
  exact hclosed.put (dir_of_named hclosed htarget) hdir _

end Tree

end CodeAtlas
