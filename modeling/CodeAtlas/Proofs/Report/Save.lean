/-
What saving a report leaves of the files.

A report that is there is not touched, an error changes no file, and a report that was written
can be read back; beyond it there are only new directories, at places to which the names above
the path lead (`saveFrame`).
-/
import CodeAtlas.Proofs.Files.Tree
import CodeAtlas.Report.Save

set_option autoImplicit false

namespace CodeAtlas

theorem Utf8.text?_toUTF8 (s : String) : Utf8.text? s.toUTF8 = some s := dif_pos s.isValidUTF8

theorem Tree.readText_of_find {t : Tree} {p s : String} {place : Place}
    (h : t.find p = .ok (place, .file s.toUTF8)) : t.readText p = .ok s := by
  have hbytes : t.readBytes p = .ok s.toUTF8 := by rw [Tree.readBytes, h]; rfl
  simp only [Tree.readText, hbytes, bind, Except.bind, Utf8.text?_toUTF8]
  rfl

namespace Report

open PathName (Above)

variable {t : Tree} {path text : String}

theorem adds_makeParent (t : Tree) (path : String) :
    Tree.Adds (Above path) t (makeParent t path).1 := by
  rw [makeParent]
  split
  case h_1 => exact fun _ => .inl rfl
  case h_2 above habove =>
    refine fun place => (Tree.adds_makeDirectories t above place).imp_right ?_
    rintro ⟨hnone, hdir, q, hq, hfind⟩
    refine ⟨hnone, hdir, q, ?_, hfind⟩
    obtain rfl | hq := hq
    · exact .single habove
    · exact .head habove hq

theorem isClosed_makeParent (hclosed : t.IsClosed) (path : String) :
    (makeParent t path).1.IsClosed := by
  rw [makeParent]
  split
  case h_1 => exact hclosed
  case h_2 above habove => exact Tree.isClosed_makeDirectories hclosed above

/-- What happens to the tree: nothing, or directories are made and perhaps the file is written
behind that. -/
theorem save_cases (t : Tree) (path text : String) (force : Bool) :
    ((t.isThere path && !force) = true ∧ save t path text force = (t, .ok .alreadyThere)) ∨
    ((t.isThere path && !force) = false ∧
      ((∃ e, save t path text force = ((makeParent t path).1, .error e)) ∨
        ∃ t₂, (makeParent t path).1.writeBytes path text.toUTF8 = .ok t₂ ∧
          save t path text force =
            (t₂, .ok (.written text.utf8ByteSize (Text.lines text.toList).length)))) := by
  cases hguard : t.isThere path && !force with
  | true => exact .inl ⟨rfl, by rw [save, if_pos hguard]⟩
  | false =>
    refine .inr ⟨rfl, ?_⟩
    rw [save, if_neg (by simp [hguard])]
    obtain ⟨t₁, _ | e⟩ := makeParent t path
    · dsimp only [Tree.writeText]
      cases hwrite : t₁.writeBytes path text.toUTF8 with
      | error e => exact .inl ⟨_, rfl⟩
      | ok t₂ => exact .inr ⟨t₂, rfl, rfl⟩
    · exact .inl ⟨e, rfl⟩

/-- What saving a report does to the tree. -/
structure SaveFrame (t : Tree) (path text : String) (force : Bool) : Prop where
  kept : t.isThere path = true → force = false → save t path text force = (t, .ok .alreadyThere)
  failed : ∀ e, (save t path text force).2 = .error e → ∀ place bytes,
    Tree.entry? (save t path text force).1 place = some (.file bytes) ↔
      t.entry? place = some (.file bytes)
  /-- What was written can be read, and beyond it there are only new directories above it. -/
  written : ∀ bytes lines, (save t path text force).2 = .ok (.written bytes lines) →
    bytes = text.toUTF8.size ∧ lines = (Text.lines text.toList).length ∧
    (save t path text force).1.readText path = .ok text ∧
    ∃ place, (save t path text force).1.find path = .ok (place, .file text.toUTF8) ∧
      ∀ other, other ≠ place →
        Tree.entry? (save t path text force).1 other = t.entry? other ∨
        t.entry? other = none ∧ Tree.entry? (save t path text force).1 other = some .dir ∧
          ∃ above, Above path above ∧ (save t path text force).1.find above = .ok (other, .dir)

theorem saveFrame (t : Tree) (path text : String) (force : Bool) :
    SaveFrame t path text force := by
  have hadds := adds_makeParent t path
  -- the guard refuses, the write fails behind the new directories, or all is written
  obtain ⟨hguard, hsave⟩ | ⟨hguard, ⟨e, hsave⟩ | ⟨t₂, hwrite, hsave⟩⟩ :=
    save_cases t path text force
  case inl =>
    exact {
      kept := fun _ _ => hsave
      failed := fun e he => by rw [hsave] at he; cases he
      written := fun bytes lines hwritten => by rw [hsave] at hwritten; cases hwritten }
  case inr.inl =>
    exact {
      kept := fun hthere hforce => by simp [hthere, hforce] at hguard
      failed := fun _ _ place bytes => by rw [hsave]; exact hadds.file place bytes
      written := fun bytes lines hwritten => by rw [hsave] at hwritten; cases hwritten }
  case inr.inr =>
    refine {
      kept := fun hthere hforce => by simp [hthere, hforce] at hguard
      failed := fun e he => by rw [hsave] at he; cases he
      written := fun bytes lines hwritten => ?_ }
    rw [hsave] at hwritten ⊢
    cases hwritten
    obtain ⟨dir, name, htarget, hslash, hold, rfl⟩ := Tree.writeBytes_eq_ok.mp hwrite
    have hwrote := Tree.wrote_of_writeBytes text.toUTF8 htarget hslash hold
    refine ⟨rfl, rfl, Tree.readText_of_find hwrote.found, dir ++ [name], hwrote.found, ?_⟩
    intro other hother
    rw [hwrote.rest other hother]
    refine (hadds other).imp_right ?_
    rintro ⟨hnone, hdir, above, habove, hfind⟩
    exact ⟨hnone, hdir, above, habove, Tree.find_dir_of_kept (fun _ => hwrote.dir_kept) hfind⟩

theorem isClosed_save (hclosed : t.IsClosed) (path text : String) (force : Bool) :
    (save t path text force).1.IsClosed := by
  have hparent := isClosed_makeParent hclosed path
  obtain ⟨-, hsave⟩ | ⟨-, ⟨e, hsave⟩ | ⟨t₂, hwrite, hsave⟩⟩ := save_cases t path text force
  · rwa [hsave]
  · rwa [hsave]
  · rw [hsave]
    exact Tree.isClosed_writeBytes hparent hwrite

/-- Without leave to replace, files that are there keep their bytes; only a path that goes upward
and led nowhere can lead to one of them when the report is written. -/
theorem save_kept {place : Place} {old : ByteArray} (hclosed : t.IsClosed)
    (hold : t.entry? place = some (.file old)) :
    Tree.entry? (save t path text false).1 place = some (.file old) ∨
      (".." ∈ PathName.parts path ∧ t.isThere path = false ∧
        (save t path text false).1.find path = .ok (place, .file text.toUTF8)) := by
  have hadds := adds_makeParent t path
  obtain ⟨-, hsave⟩ | ⟨hguard, ⟨e, hsave⟩ | ⟨t₂, hwrite, hsave⟩⟩ := save_cases t path text false
  · exact .inl (by rwa [hsave])
  · exact .inl (by rw [hsave]; exact (hadds.file place old).mpr hold)
  · have habsent : t.isThere path = false := by simpa using hguard
    rw [hsave]
    exact (Tree.kept_or_upward hclosed hadds habsent hwrite hold).imp_right
      fun ⟨hup, hfind⟩ => ⟨hup, habsent, hfind⟩

end Report

end CodeAtlas
