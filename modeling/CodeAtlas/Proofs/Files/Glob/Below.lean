/-
Globs that end in a slash and two stars.

A directory that a glob fits need not be entered if the same glob with `/**` behind it leaves
out all that stands below. The two globs are read apart from each other, so what has to be
shown is how the tokens of the longer one come from those of the shorter one: a slash and two
stars stand behind them, or, where the shorter one already ends in two stars, at most two stars
more (`Deeper`). There is one exception. In a glob that ends in `**/` the slash belongs to the
two stars; with `/**` behind it a second slash follows, and no path has two slashes in a row.

Two stars give back a slash only if a path goes on behind it. In `**/*` followed by `/**` they
take less of a path than they take in `**/*` alone, and the last single star takes what they
leave (`covers_of_covers_nil`).
-/
import CodeAtlas.Proofs.Files.Glob.Reading

set_option autoImplicit false

namespace CodeAtlas.Glob

/-- How the tokens change when `/**` is put behind a glob that does not end in `**/`. -/
def Deeper (ts ts' : List GlobToken) : Prop :=
  (ts.getLast? ≠ some .anyDirectories ∧ ts' = ts ++ [.char '/', .anyDirectories]) ∨
    (ts.getLast? = some .anyDirectories ∧ (ts' = ts ∨ ts' = ts ++ [.anyDirectories]))

/-! ## Reading the longer glob -/

theorem pushDirectories_of_head {seen : List GlobToken}
    (h : seen.head? ≠ some .anyDirectories) : pushDirectories seen = .anyDirectories :: seen := by
  unfold pushDirectories
  split
  · exact absurd rfl h
  · rfl

/-- Two stars twice are two stars once, except at the very start. -/
theorem pushDirectories_pushDirectories (seen : List GlobToken) :
    pushDirectories (pushDirectories seen) = pushDirectories seen ∨
      pushDirectories (pushDirectories seen) = .anyDirectories :: pushDirectories seen := by
  obtain ⟨rest, hpushed⟩ := List.head?_eq_some_iff.mp (head?_pushDirectories seen)
  rw [hpushed]
  cases rest with
  | nil => exact .inr rfl
  | cons token rest => exact .inl rfl

/-- A glob that can be read can be read with `/**` behind it. -/
theorem Reads.exists_deeper {prev : Option Char} {seen ts : List GlobToken} {t : List Char}
    (h : Reads prev seen t ts) :
    ∃ ts', Reads prev seen (t ++ "/**".toList) ts' ∧
      (¬ "**/".toList <:+ t → (t = [] → seen.head? ≠ some .anyDirectories) → Deeper ts ts') := by
  have hshort : ∀ {c : Char} {t : List Char}, ¬ "**/".toList <:+ c :: t → ¬ "**/".toList <:+ t :=
    fun hend hsuffix => hend (hsuffix.trans (List.suffix_cons _ _))
  -- the condition on the end of the text goes over to what is left of it, rule by rule
  induction h with
  | @done prev seen =>
    refine ⟨_, .char (by decide) (by decide) (by decide) (.directoriesLast (.inr rfl)),
      fun _ hhead => .inl ⟨?_, ?_⟩⟩
    · rw [List.getLast?_reverse]
      exact hhead rfl
    · rw [pushDirectories_of_head (by simp), List.reverse_cons, List.reverse_cons,
        List.append_assoc]
      rfl
  | anyChar _ ih =>
    obtain ⟨ts', hreads, hdeeper⟩ := ih
    exact ⟨ts', .anyChar hreads, fun hend _ => hdeeper (hshort hend) fun _ => by simp⟩
  | @among _ _ _ t rest token hclass _ ih =>
    obtain ⟨ts', hreads, hdeeper⟩ := ih
    obtain ⟨⟨front, hfront⟩, happend, htoken⟩ := class?_spec hclass
    refine ⟨ts', .among (happend _) hreads, fun hend _ => hdeeper (fun hsuffix => ?_) fun _ => ?_⟩
    · have hrest : rest <:+ '[' :: t := by
        rw [hfront]
        exact ⟨'[' :: (front ++ [']']), by simp⟩
      exact hend (hsuffix.trans hrest)
    · simpa using htoken
  | @directoriesLast prev seen hedge =>
    -- two stars at the end, and `/**` behind them, are `**/` and two stars at the end
    refine ⟨_, .directories hedge (.directoriesLast (.inr rfl)), fun _ _ => .inr ⟨?_, ?_⟩⟩
    · rw [List.getLast?_reverse, head?_pushDirectories]
    · rcases pushDirectories_pushDirectories seen with htwice | htwice
      · exact .inl (by rw [htwice])
      · exact .inr (by rw [htwice, List.reverse_cons])
  | @directories prev seen ts t hedge _ ih =>
    obtain ⟨ts', hreads, hdeeper⟩ := ih
    refine ⟨ts', .directories hedge hreads, fun hend _ => hdeeper ?_ fun hnil => ?_⟩
    · exact hshort (hshort (hshort hend))
    · rw [hnil] at hend
      exact absurd (List.suffix_refl _) hend
  | @sequence _ _ _ t hone _ ih =>
    obtain ⟨ts', hreads, hdeeper⟩ := ih
    refine ⟨ts', .sequence ?_ hreads, fun hend _ => hdeeper (hshort hend) fun _ => by simp⟩
    cases t with
    | nil => decide
    | cons c t => exact hone
  | char hmark hclass hstar _ ih =>
    obtain ⟨ts', hreads, hdeeper⟩ := ih
    exact ⟨ts', .char hmark hclass hstar hreads,
      fun hend _ => hdeeper (hshort hend) fun _ => by simp⟩

/-! ## What the longer glob fits -/

theorem exists_star_or (token : GlobToken) :
    (∃ directories, token = star directories) ∨ ∀ directories, token ≠ star directories := by
  by_cases h : ∃ directories, token = star directories
  · exact .inl h
  · exact .inr (not_exists.mp h)

theorem getLast?_of_cons {token last : GlobToken} {ts : List GlobToken}
    (h : (token :: ts).getLast? = some last) :
    ts = [] ∧ token = last ∨ ts.getLast? = some last := by
  cases ts with
  | nil => exact .inl ⟨rfl, by simpa using h⟩
  | cons u us => exact .inr (by rwa [List.getLast?_cons_cons] at h)

theorem getLast?_ne_of_cons {token last : GlobToken} {ts : List GlobToken}
    (h : (token :: ts).getLast? ≠ some last) : ts.getLast? ≠ some last := by
  cases ts with
  | nil => simp
  | cons u us => rwa [List.getLast?_cons_cons] at h

/-- Two stars stand for anything if nothing has to follow. -/
theorem covers_directories (path : List Char) : Covers [.anyDirectories] path := by
  rw [← List.append_nil path]
  exact @Covers.star true _ _ _ (.inr (.inr rfl)) .nil

/-- Tokens that stand for nothing at all are stars; if the last is a star for one name, it can
take any part of a name. -/
theorem covers_of_covers_nil {ts : List GlobToken} (hne : ts ≠ [])
    (hlast : ts.getLast? ≠ some .anyDirectories) (h : Covers ts []) {part : List Char}
    (hpart : '/' ∉ part) : Covers ts part := by
  induction ts with
  | nil => exact absurd rfl hne
  | cons token ts ih =>
    rcases exists_star_or token with ⟨directories, rfl⟩ | htoken
    · obtain ⟨a, b, hsplit, -, hrest⟩ := covers_star_iff.mp h
      obtain ⟨rfl, rfl⟩ := List.append_eq_nil_iff.mp hsplit.symm
      by_cases hts : ts = []
      · subst hts
        cases directories with
        | true => exact absurd rfl hlast
        | false =>
          rw [← List.append_nil part]
          exact @Covers.star false _ _ _ hpart .nil
      · have hleaves : Leaves directories [] part := by
          cases directories with
          | true => exact .inl rfl
          | false => exact List.not_mem_nil
        exact .star hleaves (ih hts (getLast?_ne_of_cons hlast) hrest)
    · obtain ⟨c, rest, hsplit, -⟩ := (covers_one_iff htoken).mp h
      cases hsplit

/-- A path is what leads up to its last name, and that name. -/
theorem exists_lastName (path : List Char) :
    ∃ lead part, path = lead ++ part ∧ (lead = [] ∨ lead.getLast? = some '/') ∧ '/' ∉ part := by
  induction path with
  | nil => exact ⟨[], [], rfl, .inl rfl, List.not_mem_nil⟩
  | cons c path ih =>
    obtain ⟨lead, part, rfl, hlead, hpart⟩ := ih
    by_cases hnil : lead = []
    · subst hnil
      by_cases hc : c = '/'
      · exact ⟨[c], part, rfl, .inr (by rw [hc]; rfl), hpart⟩
      · refine ⟨[], c :: part, rfl, .inl rfl, ?_⟩
        rw [List.mem_cons, not_or]
        exact ⟨Ne.symm hc, hpart⟩
    · refine ⟨c :: lead, part, rfl, .inr ?_, hpart⟩
      rw [List.getLast?_cons, hlead.resolve_left hnil]
      rfl

/-- Where a slash and two stars stand behind the tokens, they stand for all that is below. -/
theorem Covers.of_slash_directories {ts : List GlobToken}
    (hlast : ts.getLast? ≠ some .anyDirectories) {dir : List Char} (h : Covers ts dir)
    (rest : List Char) : Covers (ts ++ [.char '/', .anyDirectories]) (dir ++ '/' :: rest) := by
  -- token by token; only two stars see whether a name begins behind what they take
  induction ts generalizing dir with
  | nil =>
    cases h
    exact .one (by decide) (covers_directories rest)
  | cons token ts ih =>
    have ih := @ih (getLast?_ne_of_cons hlast)
    rcases exists_star_or token with ⟨directories, rfl⟩ | htoken
    · obtain ⟨a, b, rfl, hleaves, hrest⟩ := covers_star_iff.mp h
      rw [List.append_assoc, List.cons_append]
      cases directories with
      | false => exact .star hleaves (ih hrest)
      | true =>
        rcases or_assoc.mpr hleaves with hbegins | rfl
        · have hleaves' : Leaves true a (b ++ '/' :: rest) := or_assoc.mp (.inl hbegins)
          exact .star hleaves' (ih hrest)
        · -- the two stars took the last name too; now they leave it to the star behind them
          have hne : ts ≠ [] := by
            rintro rfl
            exact hlast rfl
          obtain ⟨lead, part, rfl, hlead, hpart⟩ := exists_lastName a
          have hcovers := covers_of_covers_nil hne (getLast?_ne_of_cons hlast) hrest hpart
          have hleaves' : Leaves true lead (part ++ '/' :: rest) := or_assoc.mp (.inl hlead)
          rw [List.nil_append, List.append_assoc]
          exact .star hleaves' (ih hcovers)
    · obtain ⟨c, path, rfl, htakes, hrest⟩ := (covers_one_iff htoken).mp h
      exact .one htakes (ih hrest)

/-- Tokens that end in two stars stand for what follows as well. -/
theorem Covers.extend {ts : List GlobToken} (hlast : ts.getLast? = some .anyDirectories)
    {dir : List Char} (h : Covers ts dir) (rest : List Char) : Covers ts (dir ++ rest) := by
  induction ts generalizing dir with
  | nil => cases hlast
  | cons token ts ih =>
    rcases getLast?_of_cons hlast with ⟨rfl, rfl⟩ | hlater
    · exact covers_directories _
    · have ih := @ih hlater
      rcases exists_star_or token with ⟨directories, rfl⟩ | htoken
      · obtain ⟨a, b, rfl, hleaves, hrest⟩ := covers_star_iff.mp h
        -- a star that has taken everything may take what follows too, if it is one of two
        by_cases hb : b = []
        · subst hb
          cases directories with
          | true =>
            rw [List.append_nil, ← List.append_nil (a ++ rest)]
            exact @Covers.star true _ _ _ (.inr (.inr rfl)) hrest
          | false =>
            rw [List.append_assoc]
            exact .star hleaves (ih hrest)
        · have hleaves' : Leaves directories a (b ++ rest) := by
            cases directories with
            | true => exact hleaves.imp_right (·.imp_right fun hnil => absurd hnil hb)
            | false => exact hleaves
          rw [List.append_assoc]
          exact .star hleaves' (ih hrest)
      · obtain ⟨c, path, rfl, htakes, hrest⟩ := (covers_one_iff htoken).mp h
        exact .one htakes (ih hrest)

/-- Two stars behind the tokens can stand for nothing. -/
theorem Covers.concat_directories {ts : List GlobToken} {path : List Char} (h : Covers ts path) :
    Covers (ts ++ [.anyDirectories]) path := by
  induction h with
  | nil => exact covers_directories []
  | one htakes _ ih => exact .one htakes ih
  | star hleaves _ ih => exact .star hleaves ih

theorem Deeper.covers {ts ts' : List GlobToken} (h : Deeper ts ts') {dir : List Char}
    (hdir : Covers ts dir) (rest : List Char) : Covers ts' (dir ++ '/' :: rest) := by
  rcases h with ⟨hlast, rfl⟩ | ⟨hlast, rfl | rfl⟩
  · exact hdir.of_slash_directories hlast rest
  · exact hdir.extend hlast ('/' :: rest)
  · exact (hdir.extend hlast ('/' :: rest)).concat_directories

/-- A text is a glob also with `/**` behind it. Then it fits all that is below what it fits
alone, unless it ends in two stars and a slash. -/
theorem exists_parse_below {s : String} {g : Glob} (h : parse s = .ok g) :
    ∃ below, parse (s ++ "/**") = .ok below ∧
      (¬ "**/".toList <:+ s.toList → ∀ dir rest, g.accepts dir = true →
        below.accepts (dir ++ '/' :: rest) = true) := by
  obtain ⟨ts', hreads, hdeeper⟩ := (parse_eq_ok_iff.mp h).exists_deeper
  have hbelow : parse (s ++ "/**") = .ok ⟨ts'⟩ := by
    rw [parse_eq_ok_iff, String.toList_append]
    exact hreads
  refine ⟨⟨ts'⟩, hbelow, fun hend dir rest hdir => ?_⟩
  rw [accepts_iff_of_parse hbelow]
  exact (hdeeper hend fun _ => by simp).covers ((accepts_iff_of_parse h dir).mp hdir) rest

end CodeAtlas.Glob
