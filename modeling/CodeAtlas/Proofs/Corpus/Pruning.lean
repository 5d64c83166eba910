/-
How files are chosen, and directories that are not entered.

A scan reads the texts of its globs once and then works with lists of globs. Here the choice is
told by the texts (`fits`): a text that is no glob fits nothing, so it does not count. What is
picked of the files that were walked depends on two things of a scan's options only, namely
which texts to include a path fits and whether it fits one to exclude; so files that fit one to
exclude can be left out beforehand (`picked_filter`).

Where `P/**` is a glob to exclude, the walk keeps out of the directories that `P` fits. This
leaves the outlines and the reports of a scan as they are, because all files below such a
directory fit `P/**`: what the walk does not find would not have been picked
(`scanPruned_of_spared`). The argument needs that `P` does not end in `**/`. Two stars that
take their slash along fit every directory, also one without a slash at its end, while `P/**`
then asks for two slashes in a row and fits no file at all. So globs that end in `**//**`
leave out files that no glob fits, and no other globs do (`scan_eq_unpruned`).
-/
import CodeAtlas.Corpus
import CodeAtlas.Proofs.Files.Glob.Below
import CodeAtlas.Proofs.Files.Walk
import CodeAtlas.Proofs.Text.Unrepeated
import Mathlib.Data.List.Find

set_option autoImplicit false

namespace CodeAtlas

namespace Corpus

/-! ## Globs by their texts -/

/-- Does the path fit the text, read as a glob? What is no glob fits nothing. -/
def fits (text : String) (path : List Char) : Bool :=
  match Glob.parse text with
  | .ok g => g.accepts path
  | .error _ => false

theorem fits_iff {text : String} {path : List Char} :
    fits text path = true ↔ ∃ g, Glob.parse text = .ok g ∧ g.accepts path = true := by
  unfold fits
  cases Glob.parse text <;> simp

theorem any_globs (texts : List String) (path : List Char) :
    (globs texts).any (·.accepts path) = texts.any (fits · path) := by
  rw [globs, List.any_filterMap]
  congr 1
  funext text
  unfold fits
  cases Glob.parse text <;> rfl

/-- Should the path be chosen? -/
def Wanted (o : ScanOptions) (path : List Char) : Prop :=
  (∃ text ∈ o.include_, fits text path = true) ∧ ∀ text ∈ o.exclude, fits text path = false

theorem flatMap_globs {β : Type} (f : Glob → List β) (texts : List String) :
    (globs texts).flatMap f = texts.flatMap fun text =>
      match Glob.parse text with
      | .ok g => f g
      | .error _ => [] := by
  induction texts with
  | nil => rfl
  | cons text texts ih =>
    rw [List.flatMap_cons, ← ih, globs, List.filterMap_cons]
    cases Glob.parse text <;> rfl

/-- What is chosen, by the texts of the globs. -/
theorem chosen_eq (o : ScanOptions) (paths : List (List Char)) :
    chosen o paths = Text.unrepeated (o.include_.flatMap fun text =>
      paths.filter fun p => fits text p && !o.exclude.any (fits · p)) := by
  rw [chosen, flatMap_globs]
  congr 2
  funext text
  unfold fits
  cases Glob.parse text with
  | ok g =>
    refine List.filter_congr fun p _ => ?_
    rw [any_globs]
    rfl
  | error e => simp

theorem mem_chosen {o : ScanOptions} {paths : List (List Char)} {p : List Char} :
    p ∈ chosen o paths ↔ p ∈ paths ∧ Wanted o p := by
  rw [chosen_eq, Text.mem_unrepeated, List.mem_flatMap]
  simp only [List.mem_filter, Bool.and_eq_true, Bool.not_eq_true', List.any_eq_false,
    Bool.not_eq_true, Wanted]
  constructor
  · rintro ⟨text, htext, hp, hfits, hexcluded⟩
    exact ⟨hp, ⟨text, htext, hfits⟩, hexcluded⟩
  · rintro ⟨hp, ⟨text, htext, hfits⟩, hexcluded⟩
    exact ⟨text, htext, hp, hfits, hexcluded⟩

/-! ## The files that are picked -/

/-- The path of a file below the directory of the walk. -/
def pathOf (f : Found) : List Char := slashed f.names

/-- The files that are chosen, in the order of the choice. -/
def picked (o : ScanOptions) (files : List Found) : List Found :=
  (chosen o (files.map pathOf)).filterMap (fileAt? files)

/-- What is reported of a file that was picked and has no outline. -/
def skipped? (f : Found) : Option Skipped :=
  match outlineOf f with
  | .ok _ => none
  | .error reason => some ⟨String.ofList (pathOf f), reason⟩

/-- The rules about what is let in, which hold only if a scan asks for them. -/
def bookOf (t : Tree) (cwd : String) (o : ScanOptions) : Ignore.RuleBook :=
  if o.ignoreFiles then Ignore.RuleBook.ofTree t cwd else []

/-- The files of a walk that keeps out of the directories that fit one of `pruned`. -/
def walked (t : Tree) (cwd : String) (dir : Place) (o : ScanOptions) (pruned : List Glob) :
    List Found :=
  Walk.files t dir (lets (bookOf t cwd o) pruned dir)

/-- The outlines and the reports of a scan are those of the files that were picked. -/
theorem scanPruned_eq (t : Tree) (cwd : String) (dir : Place) (o : ScanOptions)
    (pruned : List Glob) :
    scanPruned t cwd dir o pruned =
      { outlines := (picked o (walked t cwd dir o pruned)).filterMap fun f =>
          (outlineOf f).toOption,
        skipped := (picked o (walked t cwd dir o pruned)).filterMap skipped?,
        badGlobs := badGlobsOf (o.include_ ++ o.exclude) } := by
  rw [scanPruned, List.filterMap_map, List.filterMap_map]
  rfl

/-- Files that are not wanted can be left out beforehand. -/
theorem picked_filter {o : ScanOptions} {files : List Found} {p : Found → Bool}
    (h : ∀ f ∈ files, Wanted o (pathOf f) → p f = true) :
    picked o (files.filter p) = picked o files := by
  have hchosen : chosen o ((files.filter p).map pathOf) = chosen o (files.map pathOf) := by
    rw [chosen_eq, chosen_eq]
    congr 1
    refine List.flatMap_congr fun text htext => ?_
    rw [List.filter_map, List.filter_map, List.filter_filter]
    congr 1
    refine List.filter_congr fun f hf => ?_
    rw [Bool.eq_iff_iff, Bool.and_eq_true, and_iff_left_iff_imp]
    intro hfits
    simp only [Function.comp_apply, Bool.and_eq_true, Bool.not_eq_true', List.any_eq_false,
      Bool.not_eq_true] at hfits
    exact h f hf ⟨⟨text, htext, hfits.1⟩, hfits.2⟩
  rw [picked, picked, hchosen]
  refine List.filterMap_congr fun path hpath => ?_
  rw [fileAt?, fileAt?, List.find?_filter]
  refine List.find?_congr fun f hf => ?_
  rw [Bool.eq_iff_iff, decide_eq_true_eq, decide_eq_true_eq, and_iff_right_iff_imp]
  rintro rfl
  exact h f hf (mem_chosen.mp hpath).2

end Corpus

theorem Text.ends_iff {close : String} {t : List Char} :
    Text.ends close t = true ↔ close.toList <:+ t := by
  rw [Text.ends, List.isSuffixOf_iff_suffix]

theorem Text.dropClose_append (close : String) (t : List Char) :
    Text.dropClose close (t ++ close.toList) = t := by
  have hafter : Text.after? close.toList.reverse (t ++ close.toList).reverse = some t.reverse := by
    rw [Text.after?_eq_some_iff, List.reverse_append]
  rw [Text.dropClose, hafter]
  simp

namespace Corpus

/-! ## The directories that are kept out -/

/-- A directory is kept out if it fits the part of a glob to exclude in front of `/**`. -/
theorem any_pruning {exclude : List String} {path : List Char} :
    (pruning exclude).any (·.accepts path) = true ↔
      ∃ text, text ++ "/**" ∈ exclude ∧ fits text path = true := by
  rw [pruning, any_globs, List.any_eq_true]
  constructor
  · rintro ⟨text, htext, hfits⟩
    obtain ⟨whole, hwhole, hstrip⟩ := List.mem_filterMap.mp htext
    split at hstrip
    · rename_i hends
      obtain ⟨front, hfront⟩ := Text.ends_iff.mp hends
      rw [← hfront, Text.dropClose_append] at hstrip
      have heq : whole = text ++ "/**" := by
        rw [← Option.some.inj hstrip, ← String.toList_inj, String.toList_append,
          String.toList_ofList, hfront]
      rw [heq] at hwhole
      exact ⟨text, hwhole, hfits⟩
    · cases hstrip
  · rintro ⟨text, htext, hfits⟩
    refine ⟨text, List.mem_filterMap.mpr ⟨_, htext, ?_⟩, hfits⟩
    rw [String.toList_append, if_pos (Text.ends_iff.mpr (List.suffix_append _ _)),
      Text.dropClose_append, String.ofList_toList]

/-- A text ends in two stars and a slash if it ends in `**//**` with `/**` behind it. -/
theorem ends_below (text : String) :
    Text.ends "**//**" (text ++ "/**").toList = Text.ends "**/" text.toList := by
  have hsplit : "**//**".toList = "**/".toList ++ "/**".toList := rfl
  rw [Bool.eq_iff_iff, Text.ends_iff, Text.ends_iff, String.toList_append, hsplit]
  constructor
  · rintro ⟨front, heq⟩
    rw [← List.append_assoc] at heq
    exact ⟨front, List.append_cancel_right heq⟩
  · rintro ⟨front, heq⟩
    exact ⟨front, by rw [← heq, List.append_assoc]⟩

/-- What is below a directory that a text fits, fits the text with `/**` behind it. -/
theorem fits_below {text : String} (hend : Text.ends "**/" text.toList = false)
    {lead rest : List String} (hlead : lead ≠ []) (hrest : rest ≠ [])
    (h : fits text (slashed lead) = true) :
    fits (text ++ "/**") (slashed (lead ++ rest)) = true := by
  obtain ⟨g, hparse, haccepts⟩ := fits_iff.mp h
  obtain ⟨below, hbelow, hall⟩ := Glob.exists_parse_below hparse
  refine fits_iff.mpr ⟨below, hbelow, ?_⟩
  rw [slashed_append hlead hrest]
  refine hall (fun hsuffix => ?_) _ _ haccepts
  rw [Text.ends_iff.mpr hsuffix] at hend
  cases hend

/-- Directories can be kept out if all files below them fit a glob to exclude. -/
theorem scanPruned_of_spared {t : Tree} {cwd : String} {dir : Place} {o : ScanOptions}
    {more less : List Glob}
    (hless : ∀ path, less.any (·.accepts path) = true → more.any (·.accepts path) = true)
    (hspared : ∀ lead rest, lead ≠ [] → rest ≠ [] →
      more.any (·.accepts (slashed lead)) = true → less.any (·.accepts (slashed lead)) = false →
      ∃ text ∈ o.exclude, fits text (slashed (lead ++ rest)) = true) :
    scanPruned t cwd dir o more = scanPruned t cwd dir o less := by
  rw [scanPruned_eq, scanPruned_eq]
  generalize hbook : bookOf t cwd o = book
  have hreaches : ∀ names, Walk.reaches (lets book more dir) names = true →
      Walk.reaches (lets book less dir) names = true := by
    intro names h
    rw [Walk.reaches_iff] at h ⊢
    intro lead name rest hnames
    have hlet := h lead name rest hnames
    rw [lets, Bool.and_eq_true, Bool.not_eq_true', Bool.and_eq_false_iff] at hlet ⊢
    refine hlet.imp_right (·.imp_right fun hmore => ?_)
    rw [← Bool.not_eq_true] at hmore ⊢
    exact fun h => hmore (hless _ h)
  -- a file that only the larger list keeps out of reach fits a glob to exclude, and is not picked
  have hpicked : picked o (walked t cwd dir o more) = picked o (walked t cwd dir o less) := by
    rw [walked, walked, hbook, Walk.files_eq_filter hreaches]
    refine picked_filter fun f hf hwanted => ?_
    obtain ⟨-, -, hreached⟩ := Walk.mem_files.mp hf
    rw [Walk.reaches_iff] at hreached ⊢
    intro lead name rest hnames
    have hlet := hreached lead name rest hnames
    rw [lets, Bool.and_eq_true, Bool.not_eq_true', Bool.and_eq_false_iff] at hlet ⊢
    refine ⟨hlet.1, ?_⟩
    by_cases hrest : rest = []
    · exact .inl (by rw [hrest]; rfl)
    · have hspare := hlet.2.resolve_left (by simpa using hrest)
      refine .inr (Bool.eq_false_iff.mpr fun hmore => ?_)
      obtain ⟨text, htext, hfits⟩ := hspared (lead ++ [name]) rest (by simp) hrest hmore hspare
      have hnot := hwanted.2 text htext
      rw [pathOf, hnames, List.append_cons, hfits] at hnot
      cases hnot
  rw [hpicked]

/-- Keeping out of directories changes what a scan finds only by globs to exclude that end in
`**//**`. All other globs leave out below a directory what they fit themselves. -/
theorem scan_eq_unpruned {t : Tree} {root : String} {dir : Place}
    (hroot : t.find root = .ok (dir, .dir)) (cwd : String) (o : ScanOptions) :
    scan t cwd root o = .ok (scanPruned t cwd dir o
        (pruning (o.exclude.filter fun text => Text.ends "**//**" text.toList))) ∧
      ((∀ text ∈ o.exclude, Text.ends "**//**" text.toList = false) →
        scan t cwd root o = .ok (scanPruned t cwd dir o [])) ∧
      ∀ text lead rest, text ++ "/**" ∈ o.exclude → Text.ends "**/" text.toList = false →
        lead ≠ [] → rest ≠ [] → fits text (slashed lead) = true →
        fits (text ++ "/**") (slashed (lead ++ rest)) = true := by
  have hscan : scan t cwd root o = .ok (scanPruned t cwd dir o
      (pruning (o.exclude.filter fun text => Text.ends "**//**" text.toList))) := by
    rw [scan, hroot]
    refine congrArg Except.ok (scanPruned_of_spared (fun path h => ?_) ?_)
    · obtain ⟨text, htext, hfits⟩ := any_pruning.mp h
      exact any_pruning.mpr ⟨text, (List.mem_filter.mp htext).1, hfits⟩
    · -- a directory is spared only if its glob ends badly, and that is what the filter keeps
      intro lead rest hlead hrest hmore hless
      obtain ⟨text, htext, hfits⟩ := any_pruning.mp hmore
      refine ⟨text ++ "/**", htext, fits_below ?_ hlead hrest hfits⟩
      rw [← ends_below, ← Bool.not_eq_true]
      intro hbad
      refine Bool.eq_false_iff.mp hless (any_pruning.mpr ⟨text, ?_, hfits⟩)
      exact List.mem_filter.mpr ⟨htext, hbad⟩
  refine ⟨hscan, fun hnone => ?_, fun text lead rest _ hend hlead hrest hfits =>
    fits_below hend hlead hrest hfits⟩
  have hempty : o.exclude.filter (fun text => Text.ends "**//**" text.toList) = [] :=
    List.filter_eq_nil_iff.mpr fun text htext => by rw [hnone text htext]; exact Bool.false_ne_true
  rw [hscan, hempty]
  rfl

/-- One directory with one file in it. -/
def smallTree : Tree := ⟨[(["a"], .dir), (["a", "b.py"], .file "x = 1\n".toUTF8)]⟩

/-- A directory that is left out as a whole: its file is not found with or without entering. -/
theorem scan_withoutDirectory :
    let o : ScanOptions := { include_ := ["**/*.py"], exclude := ["a/**"] }
    smallTree.find "/" = .ok ([], .dir) ∧
      scan smallTree "/" "/" o = .ok (scanPruned smallTree "/" [] o []) ∧
      fits "a/**" (slashed (["a"] ++ ["b.py"])) = true := by
  intro o
  have hroot : smallTree.find "/" = .ok ([], .dir) := rfl
  obtain ⟨-, hsame, hbelow⟩ := scan_eq_unpruned hroot "/" o
  refine ⟨hroot, hsame (by decide), ?_⟩
  exact hbelow "a" ["a"] ["b.py"] (by decide) (by decide) (by decide) (by decide) (by decide)

/-- Two stars with a slash fit the directory; with `/**` behind them they do not fit the file
in it. So the file is found only where the directory is entered. -/
theorem scan_twoSlashes :
    let o : ScanOptions := { include_ := ["**/*.py"], exclude := ["**//**"] }
    smallTree.find "/" = .ok ([], .dir) ∧
      scan smallTree "/" "/" o ≠ .ok (scanPruned smallTree "/" [] o []) ∧
      fits "**/" (slashed ["a"]) = true ∧
      ¬ ∃ text ∈ o.exclude, fits text (slashed (["a"] ++ ["b.py"])) = true := by
  intro o
  have hkept : (scanPruned smallTree "/" [] o (pruning o.exclude)).outlines.map (·.path) =
      [] := by decide +kernel
  have hentered : (scanPruned smallTree "/" [] o []).outlines.map (·.path) =
      ["a/b.py"] := by decide +kernel
  refine ⟨rfl, fun hsame => ?_, by decide, by decide⟩
  have hcorpus : scanPruned smallTree "/" [] o (pruning o.exclude) =
      scanPruned smallTree "/" [] o [] := Except.ok.inj hsame
  rw [hcorpus, hentered] at hkept
  exact absurd hkept (by decide)

end Corpus

end CodeAtlas
