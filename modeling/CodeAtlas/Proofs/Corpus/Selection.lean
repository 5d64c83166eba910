/-
What a scan finds.

A scan asks three questions of each file in turn: does the walk come to it (`Walked`), does it
fit a glob to include and none to exclude (`Wanted`), and does it get an outline or a report.
`Selects` tells the answers for the result as a whole. Nothing is lost and nothing stands twice
because the files of a walk have different paths: the names of a place can be read back from
its path. The order is that of the first glob that a path fits. It is made by going through the
globs one after another and leaving out what was there before, which is the rule of
`Text.pairwise_unrepeated_flatMap`; for one glob, the walk gives the order of the names.

Names are ordered as their bytes are. Texts are ordered by their characters, and characters by
their numbers. The bytes of UTF-8 give the same order: where a character is less than another
one, their bytes differ at a place that both have, and the byte of the lesser one is less there
(`utf8EncodeChar_append_lt`). So what follows the two characters has no say.
-/
import CodeAtlas.Text.Basic
import CodeAtlas.Proofs.Corpus.Pruning
import Mathlib.Data.String.Basic

set_option autoImplicit false

namespace CodeAtlas

/-! ## The order of texts and of their bytes -/

namespace Text

/-- The bytes of a text in UTF-8. -/
def bytesOf (s : String) : List UInt8 := s.toUTF8.data.toList

theorem bytesOf_eq (s : String) : bytesOf s = s.toList.flatMap String.utf8EncodeChar := by
  have hencode : s.toUTF8 = s.toList.utf8Encode := String.utf8Encode_toList.symm
  rw [bytesOf, hencode, List.utf8Encode, List.toList_data_toByteArray]

theorem ofNat_cons_lt_iff {a b : Nat} (ha : a < 256) (hb : b < 256) {s t : List UInt8} :
    UInt8.ofNat a :: s < UInt8.ofNat b :: t ↔ a < b ∨ (a = b ∧ s < t) := by
  rw [List.cons_lt_cons_iff, UInt8.lt_iff_toNat_lt, ← UInt8.toNat_inj,
    UInt8.toNat_ofNat_of_lt' ha, UInt8.toNat_ofNat_of_lt' hb]

theorem toNat_lt_of_char (c : Char) : c.val.toNat < 1114112 := by
  rcases c.valid with h | ⟨-, h⟩
  · exact h.trans (by decide)
  · exact h

/-- The bytes of a lesser character are less, whatever follows. -/
theorem utf8EncodeChar_append_lt {c d : Char} (h : c < d) (s t : List UInt8) :
    String.utf8EncodeChar c ++ s < String.utf8EncodeChar d ++ t := by
  have hlt : c.val.toNat < d.val.toNat := h
  have hbound := toNat_lt_of_char d
  unfold String.utf8EncodeChar
  generalize c.val.toNat = m at hlt
  generalize d.val.toNat = n at hlt hbound
  -- the digits to the base 64
  have hsecond : ∀ v : Nat, v / 4096 = v / 64 / 64 := fun v => (Nat.div_div_eq_div_mul v 64 64).symm
  have hthird : ∀ v : Nat, v / 262144 = v / 64 / 64 / 64 := by
    intro v
    rw [Nat.div_div_eq_div_mul, Nat.div_div_eq_div_mul]
  simp only [hsecond, hthird]
  -- one case for each pair of lengths; a longer form begins with a greater byte
  repeat' split
  all_goals
    simp (disch := omega) only [List.cons_append, List.nil_append, ofNat_cons_lt_iff]
    omega

/-- Characters and bytes order texts alike. -/
theorem flatMap_utf8EncodeChar_lt {s t : List Char} (h : s < t) :
    s.flatMap String.utf8EncodeChar < t.flatMap String.utf8EncodeChar := by
  induction h with
  | @nil d t =>
    obtain ⟨b, bs, hbytes⟩ := List.exists_cons_of_ne_nil (String.utf8EncodeChar_ne_nil (c := d))
    rw [List.flatMap_nil, List.flatMap_cons, hbytes]
    exact .nil
  | rel hlt =>
    rw [List.flatMap_cons, List.flatMap_cons]
    exact utf8EncodeChar_append_lt hlt _ _
  | cons _ ih =>
    rw [List.flatMap_cons, List.flatMap_cons]
    exact List.append_left_lt ih

theorem bytesOf_lt {s t : String} (h : s < t) : bytesOf s < bytesOf t := by
  rw [bytesOf_eq, bytesOf_eq]
  exact flatMap_utf8EncodeChar_lt (String.lt_iff_toList_lt.mp h)

end Text

/-- A tree as a file system has it: one entry at each place, and below the directory only names
that can stand in one. -/
structure Tree.Named (t : Tree) (dir : Place) : Prop where
  once : (t.entries.map (·.1)).Nodup
  names : ∀ names entry, (dir ++ names, entry) ∈ t.entries → ∀ name ∈ names, IsName name

namespace Corpus

/-! ## The specification -/

/-- Does the walk come to the file? All directories on the way down and the file itself are let
in, and no directory fits what stands in front of `/**` in a glob to exclude. -/
structure Walked (t : Tree) (cwd : String) (dir : Place) (o : ScanOptions) (f : Found) : Prop where
  there : (dir ++ f.names, .file f.bytes) ∈ t.entries
  below : f.names ≠ []
  admitted : ∀ lead name rest, f.names = lead ++ name :: rest →
    Ignore.admits (bookOf t cwd o) (dir ++ (lead ++ [name])) (!rest.isEmpty) = true
  entered : ∀ lead rest, f.names = lead ++ rest → lead ≠ [] → rest ≠ [] →
    ∀ text, text ++ "/**" ∈ o.exclude → fits text (slashed lead) = false

/-- The path of a file as a text. -/
def pathText (f : Found) : String := String.ofList (pathOf f)

/-- The place of the first glob to include that the path fits. -/
def firstInclude (o : ScanOptions) (path : String) : Nat :=
  o.include_.findIdx (fits · path.toList)

/-- The order of what a scan finds: by the first glob that fits, and for one glob by the bytes
of the names, one name after another. -/
def Before (o : ScanOptions) (a b : String) : Prop :=
  firstInclude o a < firstInclude o b ∨ (firstInclude o a = firstInclude o b ∧
    (PathName.parts a).map Text.bytesOf < (PathName.parts b).map Text.bytesOf)

/-- The paths of all that was found, with an outline and without. -/
def paths (c : Corpus) : List String := c.outlines.map (·.path) ++ c.skipped.map (·.path)

/-- The result of a scan: each file that is walked and wanted stands once in one of the lists,
and no other file does; among the outlines are those of a known language that are not too large,
each made from its own file alone; and both lists are in order. -/
structure Selects (t : Tree) (cwd : String) (dir : Place) (o : ScanOptions) (c : Corpus) :
    Prop where
  once : ∀ f, Walked t cwd dir o f → Wanted o (pathOf f) → c.paths.count (pathText f) = 1
  only : ∀ path ∈ c.paths, ∃ f, Walked t cwd dir o f ∧ Wanted o (pathOf f) ∧ path = pathText f
  outlined : ∀ f, Walked t cwd dir o f → Wanted o (pathOf f) →
    (pathText f ∈ c.outlines.map (·.path) ↔
      familyOf? f.names ≠ none ∧ f.bytes.size ≤ 2000000)
  outlines : ∀ outline, outline ∈ c.outlines ↔ ∃ f family, Walked t cwd dir o f ∧
    Wanted o (pathOf f) ∧ familyOf? f.names = some family ∧ f.bytes.size ≤ 2000000 ∧
    outline = Outline.build (pathText f) (Utf8.repaired f.bytes).toList family
  skipped : ∀ s, s ∈ c.skipped ↔ ∃ f, Walked t cwd dir o f ∧ Wanted o (pathOf f) ∧
    s.path = pathText f ∧ (familyOf? f.names = none ∧ s.reason = .unsupported ∨
      familyOf? f.names ≠ none ∧ 2000000 < f.bytes.size ∧ s.reason = .tooLarge f.bytes.size)
  outlines_ordered : c.outlines.Pairwise fun a b => Before o a.path b.path
  skipped_ordered : c.skipped.Pairwise fun a b => Before o a.path b.path

/-- The options without the texts that are no globs. -/
def globsOnly (o : ScanOptions) : ScanOptions :=
  { o with
    include_ := o.include_.filter fun text => (Glob.parse text).isOk
    exclude := o.exclude.filter fun text => (Glob.parse text).isOk }

/-! ## The files of a walk -/

variable {t : Tree} {cwd : String} {dir : Place} {o : ScanOptions}

theorem mem_walked {f : Found} :
    f ∈ walked t cwd dir o (pruning o.exclude) ↔ Walked t cwd dir o f := by
  rw [walked, Walk.mem_files, Walk.reaches_iff]
  constructor
  · rintro ⟨hthere, hbelow, hreached⟩
    refine ⟨hthere, hbelow, fun lead name rest hnames => ?_, ?_⟩
    · exact (Bool.and_eq_true_iff.mp (hreached lead name rest hnames)).1
    · intro lead rest hnames hlead hrest text htext
      -- the last name of the directory is the one that was asked for
      have hsplit : f.names = lead.dropLast ++ lead.getLast hlead :: rest := by
        rw [hnames, List.append_cons, List.dropLast_concat_getLast]
      have hlet := (Bool.and_eq_true_iff.mp (hreached _ _ _ hsplit)).2
      rw [List.dropLast_concat_getLast, Bool.not_eq_true', Bool.and_eq_false_iff] at hlet
      have hspared := hlet.resolve_left (by simpa using hrest)
      rw [Bool.eq_false_iff] at hspared ⊢
      exact fun hfits => hspared (any_pruning.mpr ⟨text, htext, hfits⟩)
  · rintro ⟨hthere, hbelow, hadmitted, hentered⟩
    refine ⟨hthere, hbelow, fun lead name rest hnames => ?_⟩
    rw [lets, Bool.and_eq_true, Bool.not_eq_true', Bool.and_eq_false_iff]
    refine ⟨hadmitted lead name rest hnames, ?_⟩
    by_cases hrest : rest = []
    · exact .inl (by rw [hrest]; rfl)
    · refine .inr (Bool.eq_false_iff.mpr fun hpruned => ?_)
      obtain ⟨text, htext, hfits⟩ := any_pruning.mp hpruned
      rw [List.append_cons] at hnames
      rw [hentered _ rest hnames (by simp) hrest text htext] at hfits
      cases hfits

theorem isName_of_mem_walked (ht : t.Named dir) {pruned : List Glob} {f : Found}
    (hf : f ∈ walked t cwd dir o pruned) : ∀ name ∈ f.names, IsName name := by
  obtain ⟨hthere, -, -⟩ := Walk.mem_files.mp hf
  exact ht.names _ _ hthere

/-- The names can be read back from the path. -/
theorem parts_pathText {f : Found} (hnames : ∀ name ∈ f.names, IsName name) (hne : f.names ≠ []) :
    PathName.parts (pathText f) = f.names := by
  rw [PathName.parts, pathText, String.toList_ofList, pathOf, splitOn_slashed hnames hne]
  have hfull : (f.names.map String.toList).filter (!·.isEmpty) = f.names.map String.toList := by
    rw [List.filter_eq_self]
    intro part hpart
    obtain ⟨name, hname, rfl⟩ := List.mem_map.mp hpart
    have hpart := (hnames name hname).1
    simpa using hpart
  rw [hfull, List.map_map]
  simp

/-- The paths of a walk stand in the order of their names. -/
theorem pairwise_walked (ht : t.Named dir) (cwd : String) (o : ScanOptions)
    (pruned : List Glob) :
    ((walked t cwd dir o pruned).map pathOf).Pairwise fun a b =>
      (PathName.parts (String.ofList a)).map Text.bytesOf <
        (PathName.parts (String.ofList b)).map Text.bytesOf := by
  rw [List.pairwise_map]
  refine (Walk.pairwise_files ht.once).imp_of_mem fun ha hb hlt => ?_
  have hparts : ∀ f ∈ walked t cwd dir o pruned, PathName.parts (pathText f) = f.names :=
    fun f hf => parts_pathText (isName_of_mem_walked ht hf) (Walk.mem_files.mp hf).2.1
  have hpartsa := hparts _ ha
  have hpartsb := hparts _ hb
  rw [pathText] at hpartsa hpartsb
  rw [hpartsa, hpartsb]
  exact List.map_lt (fun x y => Text.bytesOf_lt) hlt

/-- Without rules, what is hidden is all that is left out. -/
theorem admits_nil (p : Place) (isDirectory : Bool) :
    Ignore.admits [] p isDirectory = !Ignore.isHidden p := by
  have hsilent : ∀ file, Ignore.admitsBy? [] file p isDirectory = none := by
    intro file
    rw [Ignore.admitsBy?, List.findSome?_eq_none_iff]
    exact fun _ _ => rfl
  rw [Ignore.admits, List.findSome?_eq_none_iff.mpr fun file _ => hsilent file]
  rfl

/-- Where no rules are asked for, a file that is wanted is walked unless a name on the way to it
is hidden: no glob keeps the walk away from it, save those that end in `**//**`. -/
theorem walked_iff_visible (hrules : o.ignoreFiles = false)
    (hends : ∀ text ∈ o.exclude, Text.ends "**//**" text.toList = false) {f : Found}
    (hwanted : Wanted o (pathOf f)) :
    Walked t cwd dir o f ↔ (dir ++ f.names, .file f.bytes) ∈ t.entries ∧ f.names ≠ [] ∧
      ∀ name ∈ f.names, name.toList.head? ≠ some '.' := by
  have hbook : bookOf t cwd o = [] := by
    rw [bookOf, hrules]
    rfl
  have hhidden : ∀ lead name, Ignore.isHidden (dir ++ (lead ++ [name])) =
      decide (name.toList.head? = some '.') := by
    intro lead name
    rw [Ignore.isHidden, ← List.append_assoc, List.getLast?_concat]
    rfl
  constructor
  · rintro ⟨hthere, hbelow, hadmitted, -⟩
    refine ⟨hthere, hbelow, fun name hname => ?_⟩
    obtain ⟨lead, rest, hsplit⟩ := List.append_of_mem hname
    have hlet := hadmitted lead name rest hsplit
    rw [hbook, admits_nil, hhidden] at hlet
    simpa using hlet
  · rintro ⟨hthere, hbelow, hvisible⟩
    refine ⟨hthere, hbelow, fun lead name rest hsplit => ?_, ?_⟩
    · have hname := hvisible name (by rw [hsplit]; exact List.mem_append_right _ List.mem_cons_self)
      rw [hbook, admits_nil, hhidden]
      simpa using hname
    · intro lead rest hsplit hlead hrest text htext
      rw [Bool.eq_false_iff]
      intro hfits
      -- then the file would fit the whole glob to exclude
      have hend : Text.ends "**/" text.toList = false := by
        rw [← ends_below]
        exact hends _ htext
      have hexcluded : fits (text ++ "/**") (pathOf f) = true := by
        rw [pathOf, hsplit]
        exact fits_below hend hlead hrest hfits
      rw [hwanted.2 _ htext] at hexcluded
      cases hexcluded

/-! ## The files that are picked -/

section

variable {files : List Found}

theorem of_fileAt? {path : List Char} {f : Found} (h : fileAt? files path = some f) :
    f ∈ files ∧ pathOf f = path := by
  rw [fileAt?] at h
  have hpath := List.find?_some h
  exact ⟨List.mem_of_find?_eq_some h, of_decide_eq_true hpath⟩

theorem exists_fileAt? {path : List Char} (h : path ∈ files.map pathOf) :
    ∃ f, fileAt? files path = some f := by
  obtain ⟨f, hf, hpath⟩ := List.mem_map.mp h
  rw [← Option.isSome_iff_exists, fileAt?, List.find?_isSome]
  exact ⟨f, hf, decide_eq_true hpath⟩

/-- The paths of what is picked are those that were chosen. -/
theorem map_pathOf_picked : (picked o files).map pathOf = chosen o (files.map pathOf) := by
  have hfound : ∀ path ∈ chosen o (files.map pathOf),
      (fileAt? files path).map pathOf = some path := by
    intro path hpath
    obtain ⟨f, hf⟩ := exists_fileAt? (mem_chosen.mp hpath).1
    rw [hf, Option.map_some, (of_fileAt? hf).2]
  rw [picked, List.map_filterMap, List.filterMap_congr hfound, List.filterMap_some]

theorem mem_picked (hdistinct : (files.map pathOf).Nodup) {f : Found} :
    f ∈ picked o files ↔ f ∈ files ∧ Wanted o (pathOf f) := by
  rw [picked, List.mem_filterMap]
  constructor
  · rintro ⟨path, hpath, hfound⟩
    obtain ⟨hf, rfl⟩ := of_fileAt? hfound
    exact ⟨hf, (mem_chosen.mp hpath).2⟩
  · rintro ⟨hf, hwanted⟩
    have hpath := List.mem_map_of_mem (f := pathOf) hf
    obtain ⟨g, hg⟩ := exists_fileAt? hpath
    obtain ⟨hgf, hsame⟩ := of_fileAt? hg
    rw [List.inj_on_of_nodup_map hdistinct hgf hf hsame] at hg
    exact ⟨pathOf f, mem_chosen.mpr ⟨hpath, hwanted⟩, hg⟩

/-- What is picked stands in the order of the globs, and for one glob in that of the files. -/
theorem pairwise_picked {before : List Char → List Char → Prop}
    (hdistinct : (files.map pathOf).Nodup) (hfiles : (files.map pathOf).Pairwise before) :
    (picked o files).Pairwise fun f g =>
      o.include_.findIdx (fits · (pathOf f)) < o.include_.findIdx (fits · (pathOf g)) ∨
        (o.include_.findIdx (fits · (pathOf f)) = o.include_.findIdx (fits · (pathOf g)) ∧
          before (pathOf f) (pathOf g)) := by
  have hchosen := Text.pairwise_unrepeated_flatMap
    (hdistinct.filter fun p => !o.exclude.any (fits · p))
    (hfiles.filter fun p => !o.exclude.any (fits · p)) fits o.include_
  simp only [List.filter_filter] at hchosen
  rw [← chosen_eq, ← map_pathOf_picked, List.pairwise_map] at hchosen
  exact hchosen

end

/-! ## Outlines and reports -/

theorem outlineOf_eq_some_iff {f : Found} {outline : Outline} :
    (outlineOf f).toOption = some outline ↔ ∃ family, familyOf? f.names = some family ∧
      f.bytes.size ≤ 2000000 ∧
      outline = Outline.build (pathText f) (Utf8.repaired f.bytes).toList family := by
  unfold outlineOf
  cases familyOf? f.names with
  | none => simp [Except.toOption]
  | some family =>
    by_cases hsize : maxFileSize < f.bytes.size
    · have hlarge : ¬ f.bytes.size ≤ 2000000 := Nat.not_le.mpr hsize
      simp [hsize, hlarge, Except.toOption]
    · have hsmall : f.bytes.size ≤ 2000000 := Nat.not_lt.mp hsize
      simp [hsize, hsmall, Except.toOption, pathText, pathOf, eq_comm]

theorem path_of_outlineOf {f : Found} {outline : Outline}
    (h : (outlineOf f).toOption = some outline) : outline.path = pathText f := by
  obtain ⟨family, -, -, rfl⟩ := outlineOf_eq_some_iff.mp h
  rfl

theorem skipped?_eq_some_iff {f : Found} {s : Skipped} :
    skipped? f = some s ↔ s.path = pathText f ∧
      (familyOf? f.names = none ∧ s.reason = .unsupported ∨
        familyOf? f.names ≠ none ∧ 2000000 < f.bytes.size ∧ s.reason = .tooLarge f.bytes.size) := by
  obtain ⟨path, reason⟩ := s
  unfold skipped? outlineOf
  cases familyOf? f.names with
  | none => simp [pathText, eq_comm]
  | some family =>
    by_cases hsize : maxFileSize < f.bytes.size
    · have hlarge : 2000000 < f.bytes.size := hsize
      simp [hsize, hlarge, pathText, eq_comm]
    · have hsmall : ¬ 2000000 < f.bytes.size := hsize
      simp [hsize, hsmall]

/-- Each file gets an outline or a report, and none gets both. -/
theorem paths_perm (files : List Found) :
    ((files.filterMap fun f => (outlineOf f).toOption).map (·.path) ++
      (files.filterMap skipped?).map (·.path)).Perm (files.map pathText) := by
  induction files with
  | nil => exact .nil
  | cons f files ih =>
    rw [List.filterMap_cons, List.filterMap_cons, List.map_cons, skipped?]
    cases hout : outlineOf f with
    | ok outline =>
      have hpath : outline.path = pathText f := path_of_outlineOf (by rw [hout]; rfl)
      simp only [Except.toOption, List.map_cons, List.cons_append, hpath]
      exact ih.cons _
    | error reason =>
      simp only [Except.toOption, List.map_cons]
      exact List.perm_middle.trans (ih.cons _)

/-! ## Texts that are no globs -/

theorem globs_filter_isOk (texts : List String) :
    globs (texts.filter fun text => (Glob.parse text).isOk) = globs texts := by
  rw [globs, List.filterMap_filter, globs]
  congr 1
  funext text
  cases Glob.parse text <;> rfl

theorem any_pruning_globsOnly (path : List Char) :
    (pruning (globsOnly o).exclude).any (·.accepts path) =
      (pruning o.exclude).any (·.accepts path) := by
  rw [Bool.eq_iff_iff, any_pruning, any_pruning]
  refine exists_congr fun text => and_congr_left fun hfits => ?_
  -- what is a glob is a glob also with `/**` behind it
  obtain ⟨g, hparse, -⟩ := fits_iff.mp hfits
  obtain ⟨below, hbelow, -⟩ := Glob.exists_parse_below hparse
  rw [globsOnly, List.mem_filter, hbelow]
  exact and_iff_left rfl

theorem picked_globsOnly (files : List Found) : picked (globsOnly o) files = picked o files := by
  have hchosen : ∀ paths, chosen (globsOnly o) paths = chosen o paths := by
    intro paths
    rw [chosen, chosen, globsOnly, globs_filter_isOk, globs_filter_isOk]
  rw [picked, picked, hchosen]

/-- Texts that are no globs have no effect on what is found. -/
theorem scanPruned_globsOnly (t : Tree) (cwd : String) (dir : Place) (o : ScanOptions) :
    (scanPruned t cwd dir (globsOnly o) (pruning (globsOnly o).exclude)).outlines =
        (scanPruned t cwd dir o (pruning o.exclude)).outlines ∧
      (scanPruned t cwd dir (globsOnly o) (pruning (globsOnly o).exclude)).skipped =
        (scanPruned t cwd dir o (pruning o.exclude)).skipped := by
  have hlets : lets (bookOf t cwd o) (pruning (globsOnly o).exclude) dir =
      lets (bookOf t cwd o) (pruning o.exclude) dir := by
    funext names isDirectory
    rw [lets, lets, any_pruning_globsOnly]
  have hwalked : walked t cwd dir (globsOnly o) (pruning (globsOnly o).exclude) =
      walked t cwd dir o (pruning o.exclude) := congrArg (Walk.files t dir) hlets
  rw [scanPruned_eq, scanPruned_eq, hwalked, picked_globsOnly]
  exact ⟨rfl, rfl⟩

/-! ## The result -/

/-- What is picked has no path twice, is in the order of the globs, and is what was walked and
is wanted. -/
theorem picked_ordered (ht : t.Named dir) (cwd : String) (o : ScanOptions) :
    let files := picked o (walked t cwd dir o (pruning o.exclude))
    (files.map pathText).Nodup ∧
      files.Pairwise (fun f g => Before o (pathText f) (pathText g)) ∧
      ∀ f, f ∈ files ↔ Walked t cwd dir o f ∧ Wanted o (pathOf f) := by
  have hordered := pairwise_walked ht cwd o (pruning o.exclude)
  -- a walk goes upwards in the order of paths, so no path comes twice
  have hdistinct : ((walked t cwd dir o (pruning o.exclude)).map pathOf).Nodup := by
    refine hordered.imp fun hlt heq => ?_
    rw [heq] at hlt
    exact List.lt_irrefl _ hlt
  refine ⟨?_, ?_, fun f => ?_⟩
  · have hchosen : ((picked o (walked t cwd dir o (pruning o.exclude))).map pathOf).Nodup := by
      rw [map_pathOf_picked, chosen]
      exact Text.nodup_unrepeated _
    have hsplit : ∀ files : List Found,
        files.map pathText = (files.map pathOf).map String.ofList :=
      fun files => List.map_map.symm
    rw [hsplit]
    exact hchosen.map fun a b heq => by simpa using congrArg String.toList heq
  · refine (pairwise_picked hdistinct hordered).imp fun hbefore => ?_
    rw [Before, firstInclude, firstInclude, pathText, pathText, String.toList_ofList,
      String.toList_ofList]
    exact hbefore
  · rw [mem_picked hdistinct, mem_walked]

theorem selects_scanPruned (ht : t.Named dir) (cwd : String) (o : ScanOptions) :
    Selects t cwd dir o (scanPruned t cwd dir o (pruning o.exclude)) := by
  obtain ⟨hnodup, hpicked, hmem⟩ := picked_ordered ht cwd o
  rw [scanPruned_eq]
  generalize picked o (walked t cwd dir o (pruning o.exclude)) = files at *
  have hperm := paths_perm files
  refine ⟨fun f hwalked hwanted => ?_, fun path hpath => ?_, fun f hwalked hwanted => ?_,
    fun outline => ?_, fun s => ?_, ?_, ?_⟩
  · rw [paths, hperm.count_eq]
    exact List.count_eq_one_of_mem hnodup (List.mem_map_of_mem ((hmem f).mpr ⟨hwalked, hwanted⟩))
  · obtain ⟨f, hf, rfl⟩ := List.mem_map.mp (hperm.mem_iff.mp hpath)
    obtain ⟨hwalked, hwanted⟩ := (hmem f).mp hf
    exact ⟨f, hwalked, hwanted, rfl⟩
  · -- an outline with the path of a file is made from that file and from no other
    have hf := (hmem f).mpr ⟨hwalked, hwanted⟩
    rw [List.mem_map]
    constructor
    · rintro ⟨outline, houtline, hpath⟩
      obtain ⟨g, hg, hout⟩ := List.mem_filterMap.mp houtline
      rw [path_of_outlineOf hout] at hpath
      rw [List.inj_on_of_nodup_map hnodup hg hf hpath] at hout
      obtain ⟨family, hfamily, hsize, -⟩ := outlineOf_eq_some_iff.mp hout
      exact ⟨by simp [hfamily], hsize⟩
    · rintro ⟨hfamily, hsize⟩
      obtain ⟨family, hfamily⟩ := Option.ne_none_iff_exists'.mp hfamily
      have hout := outlineOf_eq_some_iff.mpr ⟨family, hfamily, hsize, rfl⟩
      exact ⟨_, List.mem_filterMap.mpr ⟨f, hf, hout⟩, rfl⟩
  · rw [List.mem_filterMap]
    simp only [outlineOf_eq_some_iff, hmem]
    constructor
    · rintro ⟨f, ⟨hwalked, hwanted⟩, family, hfamily, hsize, hbuilt⟩
      exact ⟨f, family, hwalked, hwanted, hfamily, hsize, hbuilt⟩
    · rintro ⟨f, family, hwalked, hwanted, hfamily, hsize, hbuilt⟩
      exact ⟨f, ⟨hwalked, hwanted⟩, family, hfamily, hsize, hbuilt⟩
  · rw [List.mem_filterMap]
    simp only [skipped?_eq_some_iff, hmem, and_assoc]
  -- outlines and skipped files are parts of one ordered list
  · refine List.Pairwise.filterMap _ (fun f g hbefore a ha b hb => ?_) hpicked
    rw [path_of_outlineOf ha, path_of_outlineOf hb]
    exact hbefore
  · refine List.Pairwise.filterMap _ (fun f g hbefore a ha b hb => ?_) hpicked
    rw [(skipped?_eq_some_iff.mp ha).1, (skipped?_eq_some_iff.mp hb).1]
    exact hbefore

/-- Two files of known languages, one of another kind, and a directory that is left out. -/
def sampleTree : Tree :=
  ⟨[(["notes.md"], .file "text\n".toUTF8), (["b.py"], .file "x = 1\n".toUTF8),
    (["src"], .dir), (["src", "a.ts"], .file "".toUTF8),
    (["dist"], .dir), (["dist", "out.js"], .file "".toUTF8)]⟩

end Corpus

end CodeAtlas
