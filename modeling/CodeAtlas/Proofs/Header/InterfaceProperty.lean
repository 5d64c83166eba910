/-
Properties of interfaces.

A member begins with its name, with `readonly` in front of it or not and a question mark behind it
or not. What comes next says what the member is: type parameters or a round bracket make it a
method, a colon makes it a property. There is one place only where the name can end
(`Leads.unique`), so the pattern of methods takes no property and that of properties no method.

A property is read as it is written, also if it is called `readonly` and if blanks stand in front of
its colon (`PropertyText.IsWritten.memberProperty?_text`).
-/
import CodeAtlas.Header.Brace.Interface
import CodeAtlas.Proofs.Header.Export
import CodeAtlas.Proofs.Header.ParamList
import CodeAtlas.Proofs.Header.Tail
import CodeAtlas.Proofs.Header.TypeHeader
import CodeAtlas.Proofs.Nesting.Quiet

set_option autoImplicit false

namespace CodeAtlas.Brace

open Pattern

/-! ## Where the name ends -/

/-- Neither the name goes on here nor what may stand behind it. -/
def Stops (s : List Char) : Prop :=
  ∀ c ∈ s.head?, Text.isNameChar c = false ∧ Text.isBlankChar c = false ∧ c ≠ '?'

/-- In front of `s` the text has the name of a member, with its word and its mark. -/
def Leads (t s : List Char) : Prop :=
  ∃ x n q g, MayBeWord "readonly" x ∧ IsNameOf Text.isNameStart Text.isNameChar n ∧
    (q = [] ∨ q = ['?']) ∧ (∀ c ∈ g, Text.isBlankChar c = true) ∧ t = x ++ (n ++ (q ++ (g ++ s)))

/-- The text without a question mark in front. -/
def dropMark : List Char → List Char
  | '?' :: t => t
  | t => t

/-- What is behind the name that the text begins with, and its mark. -/
def behindName (t : List Char) : List Char :=
  (dropMark (t.dropWhile Text.isNameChar)).dropWhile Text.isBlankChar

variable {t s s' n q g : List Char}

theorem any_head?_eq_false {p : Char → Bool} (h : ∀ c ∈ s.head?, p c = false) :
    s.head?.any p = false := by
  cases hs : s.head? with
  | none => rfl
  | some c => exact h c hs

theorem dropMark_of_head? (h : t.head? ≠ some '?') : dropMark t = t := by
  unfold dropMark
  split
  · exact absurd rfl h
  · rfl

namespace Stops

theorem noBlank (hs : Stops s) : s.head?.any Text.isBlankChar = false :=
  any_head?_eq_false fun c hc => (hs c hc).2.1

theorem of_head? {c : Char} (h : s.head? = some c)
    (hc : Text.isNameChar c = false ∧ Text.isBlankChar c = false ∧ c ≠ '?') : Stops s := by
  intro d hd
  rw [h] at hd
  rwa [← Option.some.inj hd]

/-- What stands behind a name does not go on with it. -/
theorem noName (hs : Stops s) (hq : q = [] ∨ q = ['?'])
    (hg : ∀ c ∈ g, Text.isBlankChar c = true) :
    (q ++ (g ++ s)).head?.any Text.isNameChar = false := by
  rcases hq with rfl | rfl
  · cases g with
    | nil => exact any_head?_eq_false fun c hc => (hs c hc).1
    | cons b g =>
      refine Bool.eq_false_iff.mpr fun hnamed => ?_
      have hb := hg b List.mem_cons_self
      rw [Text.isBlankChar_of_isNameChar hnamed] at hb
      cases hb
  · rfl

theorem head?_ne_mark (hs : Stops s) (hg : ∀ c ∈ g, Text.isBlankChar c = true) :
    (g ++ s).head? ≠ some '?' := by
  cases g with
  | nil => exact fun hmark => (hs '?' hmark).2.2 rfl
  | cons b g =>
    intro hmark
    have hb := hg b List.mem_cons_self
    rw [Option.some.inj hmark] at hb
    cases hb

theorem behindName (hs : Stops s) (hn : IsNameOf Text.isNameStart Text.isNameChar n)
    (hq : q = [] ∨ q = ['?']) (hg : ∀ c ∈ g, Text.isBlankChar c = true) :
    behindName (n ++ (q ++ (g ++ s))) = s := by
  have hmark : dropMark (q ++ (g ++ s)) = g ++ s := by
    rcases hq with rfl | rfl
    · exact dropMark_of_head? (hs.head?_ne_mark hg)
    · rfl
  rw [Brace.behindName, dropWhile_append_of_ends (fun c => Text.isNameChar_of_mem hn) (hs.noName hq hg),
    hmark, dropWhile_append_of_ends hg hs.noBlank]

/-- What stands behind a name does not begin a name again. -/
theorem not_word {x y : List Char} (hs : Stops s) (hn : IsNameOf Text.isNameStart Text.isNameChar n)
    (hq : q = [] ∨ q = ['?']) (hg : ∀ c ∈ g, Text.isBlankChar c = true) (hx : IsWord "readonly" x)
    (hy : y.head?.any Text.isBlankChar = false) (hne : s ≠ y) :
    n ++ (q ++ (g ++ s)) ≠ x ++ y := by
  intro h
  obtain ⟨-, b, hb, hblank, hrest⟩ := exists_gap_of_isWord (by decide) hn (hs.noName hq hg) hx h
  rcases hq with rfl | rfl
  · have hdrop := congrArg (List.dropWhile Text.isBlankChar) hrest
    rw [List.nil_append, dropWhile_append_of_ends hg hs.noBlank,
      dropWhile_append_of_ends hblank hy] at hdrop
    exact hne hdrop
  · obtain ⟨d, b, rfl⟩ := List.exists_cons_of_ne_nil hb
    have hd := hblank d List.mem_cons_self
    rw [← (List.cons.inj hrest).1] at hd
    cases hd

theorem ne_name (hs : Stops s) (hn : IsNameOf Text.isNameStart Text.isNameChar n)
    (r : List Char) : s ≠ n ++ r := by
  rintro rfl
  obtain ⟨c, u, rfl, hc, -⟩ := hn
  have hstop := (hs c rfl).1
  rw [Text.isNameChar_of_isNameStart hc] at hstop
  cases hstop

end Stops

/-- The name of a member ends in one place. -/
theorem Leads.unique (h : Leads t s) (h' : Leads t s') (hs : Stops s) (hs' : Stops s') :
    s = s' := by
  obtain ⟨x, n, q, g, hx, hn, hq, hg, rfl⟩ := h
  obtain ⟨x', n', q', g', hx', hn', hq', hg', hsame⟩ := h'
  have hhere := hs.behindName hn hq hg
  have hhere' := hs'.behindName hn' hq' hg'
  rcases hx with rfl | hx <;> rcases hx' with rfl | hx'
  · rw [← hhere, ← hhere']
    exact congrArg behindName hsame
  · exact absurd hsame
      (hs.not_word hn hq hg hx' (isBlankChar_head?_of_isName hn') (hs.ne_name hn' _))
  · exact absurd hsame.symm
      (hs'.not_word hn' hq' hg' hx (isBlankChar_head?_of_isName hn) (hs'.ne_name hn _))
  · obtain ⟨b, -, hb, rfl⟩ := hx
    obtain ⟨b', -, hb', rfl⟩ := hx'
    rw [List.append_assoc, List.append_assoc] at hsame
    have hdrop := congrArg (List.dropWhile Text.isBlankChar) (List.append_cancel_left hsame)
    rw [dropWhile_append_of_ends hb (isBlankChar_head?_of_isName hn),
      dropWhile_append_of_ends hb' (isBlankChar_head?_of_isName hn')] at hdrop
    rw [← hhere, ← hhere', hdrop]

/-! ## What the patterns read -/

theorem interfaceMethod_eq : interfaceMethod =
    opt (word "readonly") ++ (keep .name name ++ (opt (keep .mark (lit "?")) ++ (blanks ++
      (typeParams ++ (blanks ++ lit "("))))) := rfl

/-- The signs that close a member. -/
def isMemberSign (c : Char) : Bool := c = ';' || c = ','

/-- What closes a property. -/
def memberEnd : Pattern := blanks ++ (opt (one isMemberSign) ++ (blanks ++ last))

/-- What a property has behind its mark. -/
def typedEnd : Pattern := lit ":" ++ (blanks ++ (keep .kind (few1 inLine) ++ memberEnd))

/-- The name of a property. -/
def nameOrIndex : Pattern := name <|> lit "[" ++ some1 (noneOf "]") ++ lit "]"

theorem interfaceProperty_eq : interfaceProperty =
    flag .readonly "readonly" ++ (keep .name nameOrIndex ++ (opt (keep .mark (lit "?")) ++
      (blanks ++ typedEnd))) := rfl

variable {m m' : Spot} {ms : List (Slot × Spot)}

theorem exists_of_nameOrIndex (h : Matches nameOrIndex m m' ms) :
    (∃ u, IsNameOf Text.isNameStart Text.isNameChar u ∧ m.rest = u ++ m'.rest) ∨
      ∃ u, m.rest = '[' :: u := by
  cases h with
  | left hname =>
    obtain ⟨u, hu, hrest, -⟩ := hname.of_name
    exact .inl ⟨u, hu, hrest⟩
  | right hindex =>
    obtain ⟨_, _, _, hmore, -, -⟩ := matches_append_iff.mp hindex
    obtain ⟨_, _, _, hopen, -, -⟩ := matches_append_iff.mp hmore
    exact .inr ⟨_, hopen.rest_of_lit⟩

theorem exists_of_mark (h : Matches (opt (keep .mark (lit "?"))) m m' ms) :
    ∃ q, (q = [] ∨ q = ['?']) ∧ m.rest = q ++ m'.rest := by
  rcases h.of_opt with hmark | ⟨hsame, -⟩
  · obtain ⟨ms', hmatch, -⟩ := hmark.exists_of_keep
    exact ⟨['?'], .inr rfl, hmatch.rest_of_lit⟩
  · exact ⟨[], .inl rfl, hsame⟩

/-- Behind the name of a method are type parameters or a round bracket. -/
theorem leads_of_interfaceMethod {r : Match} (h : interfaceMethod.match? t = some r) :
    ∃ s, Leads t s ∧ (s.head? = some '<' ∨ s.head? = some '(') := by
  have hmatch := matches_of_match? h
  rw [interfaceMethod_eq] at hmatch
  -- the spots of the match, and then the text between each two of them
  obtain ⟨m₁, _, _, hword, hmatch, -⟩ := matches_append_iff.mp hmatch
  obtain ⟨m₂, _, _, hname, hmatch, -⟩ := matches_append_iff.mp hmatch
  obtain ⟨m₃, _, _, hmark, hmatch, -⟩ := matches_append_iff.mp hmatch
  obtain ⟨m₄, _, _, hblanks, hmatch, -⟩ := matches_append_iff.mp hmatch
  obtain ⟨m₅, _, _, hparams, hmatch, -⟩ := matches_append_iff.mp hmatch
  obtain ⟨m₆, _, _, hblanks', hopen, -⟩ := matches_append_iff.mp hmatch
  obtain ⟨x, hx, htext, -⟩ := hword.of_opt_word
  obtain ⟨_, hname, -⟩ := hname.exists_of_keep
  obtain ⟨n, hn, hname, -⟩ := hname.of_name
  obtain ⟨q, hq, hmark⟩ := exists_of_mark hmark
  obtain ⟨g, hg, hblanks, -⟩ := hblanks.of_blanks
  obtain ⟨g', hg', hblanks', -⟩ := hblanks'.of_blanks
  have hopen := hopen.rest_of_lit
  have hlead : t = x ++ (n ++ (q ++ (g ++ m₄.rest))) := by
    rw [← hblanks, ← hmark, ← hname, ← htext]
    rfl
  rcases hparams.of_opt with hangle | ⟨hsame, -⟩
  · obtain ⟨_, _, _, hmore, -, -⟩ := matches_append_iff.mp hangle
    obtain ⟨_, _, _, hleft, -, -⟩ := matches_append_iff.mp hmore
    refine ⟨m₄.rest, ⟨x, n, q, g, hx, hn, hq, hg, hlead⟩, .inl ?_⟩
    rw [hleft.rest_of_lit]
    rfl
  · -- without type parameters the blanks on both sides of them are behind the name
    refine ⟨m₆.rest, ⟨x, n, q, g ++ g', hx, hn, hq, List.forall_mem_append.mpr ⟨hg, hg'⟩, ?_⟩,
      .inr ?_⟩
    · rw [hlead, hsame, hblanks', List.append_assoc]
    · rw [hopen]
      rfl

/-- Behind the name of a property is a colon. -/
theorem leads_of_interfaceProperty {r : Match} (h : interfaceProperty.match? t = some r) :
    (∃ s, Leads t s ∧ s.head? = some ':') ∨
      ∃ x u, MayBeWord "readonly" x ∧ t = x ++ '[' :: u := by
  have hmatch := matches_of_match? h
  rw [interfaceProperty_eq] at hmatch
  obtain ⟨m₁, _, _, hword, hmatch, -⟩ := matches_append_iff.mp hmatch
  obtain ⟨m₂, _, _, hname, hmatch, -⟩ := matches_append_iff.mp hmatch
  obtain ⟨m₃, _, _, hmark, hmatch, -⟩ := matches_append_iff.mp hmatch
  obtain ⟨m₄, _, _, hblanks, hmatch, -⟩ := matches_append_iff.mp hmatch
  obtain ⟨m₅, _, _, hcolon, -, -⟩ := matches_append_iff.mp hmatch
  obtain ⟨x, hx, htext, -⟩ := hword.of_flag
  obtain ⟨_, hname, -⟩ := hname.exists_of_keep
  have htext : t = x ++ m₁.rest := htext
  rcases exists_of_nameOrIndex hname with ⟨n, hn, hname⟩ | ⟨u, hindex⟩
  · obtain ⟨q, hq, hmark⟩ := exists_of_mark hmark
    obtain ⟨g, hg, hblanks, -⟩ := hblanks.of_blanks
    refine .inl ⟨m₄.rest, ⟨x, n, q, g, hx, hn, hq, hg, ?_⟩, ?_⟩
    · rw [htext, hname, hmark, hblanks]
    · rw [hcolon.rest_of_lit]
      rfl
  · exact .inr ⟨x, u, hx, by rw [htext, hindex]⟩

/-! ## Members of the other kind -/

/-- The text does not begin with the name of a method. -/
def NoMethod (t : List Char) : Prop :=
  t.head?.any Text.isNameStart = false ∨
    ∃ s, Leads t s ∧ Stops s ∧ s.head? ≠ some '<' ∧ s.head? ≠ some '('

theorem Leads.head? (h : Leads t s) : t.head?.any Text.isNameStart = true := by
  obtain ⟨x, n, q, g, hx, ⟨c, u, rfl, hc, -⟩, -, -, rfl⟩ := h
  rcases hx with rfl | ⟨b, -, -, rfl⟩
  · exact hc
  · rfl

theorem stops_of_method (hs : s.head? = some '<' ∨ s.head? = some '(') : Stops s := by
  rcases hs with hs | hs <;> exact .of_head? hs (by decide)

/-- Where an index follows, the word in front of it may be taken for a name. -/
theorem leads_index {x u : List Char} (hx : MayBeWord "readonly" x) :
    (x ++ '[' :: u).head?.any Text.isNameStart = false ∨ Leads (x ++ '[' :: u) ('[' :: u) := by
  rcases hx with rfl | ⟨g, -, hg, rfl⟩
  · exact .inl rfl
  · refine .inr ⟨[], "readonly".toList, [], g, .inl rfl, ?_, .inl rfl, hg, List.append_assoc _ _ _⟩
    exact ⟨'r', "eadonly".toList, rfl, by decide, by decide⟩

theorem memberMethod?_of_noMethod (h : NoMethod t) (line : Nat) : memberMethod? line t = none := by
  have hnone : interfaceMethod.match? t = none := by
    refine Option.eq_none_iff_forall_ne_some.mpr fun r hr => ?_
    obtain ⟨s', hlead', hs'⟩ := leads_of_interfaceMethod hr
    rcases h with hhead | ⟨s, hlead, hstops, hangle, hround⟩
    · rw [hlead'.head?] at hhead
      cases hhead
    · rw [← hlead.unique hlead' hstops (stops_of_method hs')] at hs'
      exact hs'.elim hangle hround
  rw [memberMethod?, hnone]
  rfl

/-- A text that begins with the name of a method is no property. -/
theorem memberProperty?_of_leads (h : Leads t s) (hs : s.head? = some '<' ∨ s.head? = some '(') :
    memberProperty? t = none := by
  have hstops := stops_of_method hs
  have hnone : interfaceProperty.match? t = none := by
    refine Option.eq_none_iff_forall_ne_some.mpr fun r hr => ?_
    rcases leads_of_interfaceProperty hr with ⟨s', hlead', hs'⟩ | ⟨x, u, hx, rfl⟩
    · rw [h.unique hlead' hstops (.of_head? hs' (by decide)), hs'] at hs
      revert hs
      decide
    · rcases leads_index (u := u) hx with hhead | hlead'
      · rw [h.head?] at hhead
        cases hhead
      · rw [h.unique hlead' hstops (.of_head? rfl (by decide))] at hs
        revert hs
        simp
  rw [memberProperty?, hnone]
  rfl

/-! ## Properties -/

def markIf (marked : Bool) : List Char := if marked then ['?'] else []

theorem markIf_cases (marked : Bool) : markIf marked = [] ∨ markIf marked = ['?'] := by
  cases marked
  · exact .inl rfl
  · exact .inr rfl

/-- The parts of a property; the sign is what closes it. -/
structure PropertyText where
  readonly : Bool
  name : List Char
  marked : Bool
  type : Signed
  sign : List Char

namespace PropertyText

variable (p : PropertyText)

def text : List Char :=
  wordIf p.readonly "readonly" ++ (p.name ++ (markIf p.marked ++ (p.type.written ':' ++ p.sign)))

/-- What the property says. -/
def record : Property where
  name := textOf p.name
  typeText := some (textOf p.type.text)
  readonly := p.readonly
  optional := p.marked

/-- The name is one, or an index in square brackets. -/
structure IsWritten : Prop where
  isName : IsNameOf Text.isNameStart Text.isNameChar p.name ∨
    ∃ u, u ≠ [] ∧ ']' ∉ u ∧ p.name = '[' :: (u ++ [']'])
  before : Text.isBlank p.type.before = true
  behind : Text.isBlank p.type.behind = true
  isType : p.type.text ≠ [] ∧ Text.trim p.type.text = p.type.text ∧ '\n' ∉ p.type.text
  noSign : ∀ c ∈ p.type.text.getLast?, c ≠ ';' ∧ c ≠ ','
  isSign : p.sign = [] ∨ p.sign = [';'] ∨ p.sign = [',']
  isNeutral : ∀ c ∈ p.name ++ p.type.text, IsNeutral c

/-- The property behind its word. -/
def fromName : List Char :=
  p.name ++ (markIf p.marked ++ (p.type.written ':' ++ p.sign))

end PropertyText

theorem finds_memberEnd {e : List Char} (he : e = [] ∨ e = [';'] ∨ e = [',']) (hm : m.rest = e) :
    Finds memberEnd m (m.behind e []) [] := by
  have hblank : ∀ {m : Spot}, m.rest = [] → Finds blanks m m [] := fun hm =>
    finds_many_nothing (by rw [hm]; rfl)
  have hsign : ∀ c, isMemberSign c = true → Text.isBlankChar c = false → m.rest = [c] →
      Finds memberEnd m (m.behind [c] []) [] := by
    intro c hc hblack hm
    have hstart : Finds blanks m m [] := finds_many_nothing (by rw [hm]; exact hblack)
    have hone : Finds (one isMemberSign) m (m.behind [c] []) [] := finds_one hm hc
    exact hstart.append (hone.opt.append ((hblank rfl).append (finds_last rfl)))
  rcases he with rfl | rfl | rfl
  · have hnone : Finds (opt (one isMemberSign)) m m [] := finds_opt_nothing fun k => by
      rw [run, hm]
    have hend := (hblank hm).append (hnone.append ((hblank hm).append (finds_last hm)))
    have hhere := m.behind_nil
    rw [hm] at hhere
    rw [hhere]
    exact hend
  · exact hsign ';' rfl (by decide) hm
  · exact hsign ',' rfl (by decide) hm

/-- Nothing but blanks and signs is left where a property is closed. -/
theorem closing_of_memberEnd {r : Match} (h : memberEnd.run done m = some r) :
    ∀ c ∈ m.rest, Text.isBlankChar c = true ∨ isMemberSign c = true := by
  have hmatch := matches_of_run h
  have havoids : memberEnd.Avoids fun c => !(Text.isBlankChar c || isMemberSign c) := by
    have hblank : ∀ c, Text.isBlankChar c = true →
        (!(Text.isBlankChar c || isMemberSign c)) = false := fun c hc => by rw [hc]; rfl
    have hsign : ∀ c, isMemberSign c = true →
        (!(Text.isBlankChar c || isMemberSign c)) = false := fun c hc => by
      rw [hc, Bool.or_true]
      rfl
    exact ⟨hblank, ⟨hsign, nofun⟩, hblank, trivial⟩
  obtain ⟨w, hw, -, hchars⟩ := hmatch.avoids havoids
  obtain ⟨_, _, _, -, hopt, -⟩ := matches_append_iff.mp hmatch
  obtain ⟨_, _, _, -, hlast, -⟩ := matches_append_iff.mp hopt
  obtain ⟨_, _, _, -, hlast, -⟩ := matches_append_iff.mp hlast
  have hend : r.stop.rest = [] := by
    cases hlast with
    | last hend => exact hend
  rw [hend, List.append_nil] at hw
  intro c hc
  exact Bool.or_eq_true_iff.mp ((Bool.not_eq_false' _).mp (hchars c (hw ▸ hc)))

namespace PropertyText

variable {p : PropertyText}

/-- The last character of the type closes nothing. -/
theorem IsWritten.not_closing (h : p.IsWritten) {u v : List Char} (hsplit : p.type.text = u ++ v)
    (hne : v ≠ []) : ¬ ∀ c ∈ v, Text.isBlankChar c = true ∨ isMemberSign c = true := by
  intro hall
  obtain ⟨z, e, rfl⟩ := (List.eq_nil_or_concat' v).resolve_left hne
  rw [← List.append_assoc] at hsplit
  rcases hall e (by simp) with hblank | hsign
  · have htrimmed : Text.trimEnd (u ++ z ++ [e]) = u ++ z ++ [e] := by
      rw [← hsplit, ← h.isType.2.1, Text.trimEnd_trim]
    have hlast : Text.isBlank [e] = true := by simp [Text.isBlank, hblank]
    exact List.cons_ne_nil e [] (Text.eq_nil_of_trimEnd_append htrimmed hlast)
  · obtain ⟨hsemicolon, hcomma⟩ := h.noSign e (by rw [hsplit, List.getLast?_concat]; rfl)
    rw [isMemberSign, Bool.or_eq_true, decide_eq_true_eq, decide_eq_true_eq] at hsign
    exact hsign.elim hsemicolon hcomma

/-- The type is kept as a whole, without the sign behind it. -/
theorem IsWritten.run_type (h : p.IsWritten) (hm : m.rest = p.type.text ++ p.sign) :
    (keep .kind (few1 inLine) ++ memberEnd).run done m =
      some ⟨(m.behind p.type.text p.sign).behind p.sign [],
        [(.kind, m), (.kind, m.behind p.type.text p.sign)]⟩ := by
  obtain ⟨c, w, htype⟩ := List.exists_cons_of_ne_nil h.isType.1
  have hinLine : ∀ d ∈ c :: w, inLine d = true := fun d hd =>
    inLine_of_mem h.isType.2.2 (htype ▸ hd)
  have hend := finds_memberEnd (m := m.behind (c :: w) p.sign) h.isSign rfl (k := done) rfl
  have hopen : ∀ u d v, w = u ++ d :: v →
      memberEnd.run done (m.behind (c :: u) (d :: v ++ p.sign)) = none := by
    intro u d v hsplit
    refine Option.eq_none_iff_forall_ne_some.mpr fun r hr => ?_
    have hclosing := closing_of_memberEnd hr
    refine h.not_closing (u := c :: u) (v := d :: v) ?_ (List.cons_ne_nil d v) fun e he =>
      hclosing e (List.mem_append_left p.sign he)
    rw [htype, hsplit]
    rfl
  rw [htype] at hm ⊢
  rw [run_append, run_keep_few1 .kind hm hinLine hopen hend]
  rfl

theorem IsWritten.head?_type (h : p.IsWritten) (r : List Char) :
    (p.type.text ++ r).head?.any Text.isBlankChar = false := by
  obtain ⟨hne, htrim, -⟩ := h.isType
  have hblack := Text.head?_trimStart_any p.type.text
  rw [← Text.head?_trim, htrim] at hblack
  obtain ⟨c, w, htype⟩ := List.exists_cons_of_ne_nil hne
  rw [htype] at hblack ⊢
  exact hblack

/-- The name is found as it is written. -/
theorem IsWritten.finds_nameOrIndex (h : p.IsWritten) {r : List Char} (hm : m.rest = p.name ++ r)
    (hr : r.head?.any Text.isNameChar = false) :
    Finds nameOrIndex m (m.behind p.name r) [] := by
  -- a name, or an index in square brackets; a name is tried first
  rcases h.isName with hname | ⟨u, hne, hclose, hname⟩
  · intro k r' hk
    have hfound : Pattern.name.run k m = some (Match.after [] r') := finds_name hname hm hr hk
    show (Pattern.name.run k m).or _ = _
    rw [hfound]
    rfl
  · obtain ⟨c, u, rfl⟩ := List.exists_cons_of_ne_nil hne
    rw [List.mem_cons, not_or] at hclose
    have hclass : ∀ d ∈ c :: u, noneOf "]" d = true := by
      intro d hd
      have hd : d ≠ ']' := by
        rcases List.mem_cons.mp hd with rfl | hd
        · exact Ne.symm hclose.1
        · exact fun heq => hclose.2 (heq ▸ hd)
      simpa [noneOf] using hd
    obtain ⟨hc, hu⟩ := List.forall_mem_cons.mp hclass
    rw [hname] at hm ⊢
    have hm : m.rest = "[".toList ++ (c :: (u ++ (']' :: r))) := by
      rw [hm]
      simp
    let m₁ := m.behind "[".toList (c :: (u ++ (']' :: r)))
    let m₂ := m₁.behind [c] (u ++ (']' :: r))
    let m₃ := m₂.behind u (']' :: r)
    have hopen : Finds (lit "[") m m₁ [] := finds_lit hm
    have hone : Finds (one (noneOf "]")) m₁ m₂ [] := finds_one rfl hc
    have hmany : Finds (many (noneOf "]")) m₂ m₃ [] := finds_many rfl hu rfl
    have hend : Finds (lit "]") m₃ (m₃.behind "]".toList r) [] := finds_lit rfl
    have hindex := (hopen.append (hone.append hmany)).append hend
    have hstop : m₃.behind "]".toList r = m.behind ('[' :: (c :: u ++ [']'])) r := by
      simp only [m₃, m₂, m₁, Spot.behind_behind]
      rfl
    rw [hstop] at hindex
    intro k r' hk
    have hnone : Pattern.name.run k m = none := by
      show (one Text.isNameStart ++ _).run k m = none
      rw [run_append, run_one_of_not hm (by decide)]
    show (Pattern.name.run k m).or _ = _
    rw [hnone]
    exact hindex hk

end PropertyText

theorem finds_mark {marked : Bool} {rest : List Char} (hm : m.rest = markIf marked ++ rest)
    (hrest : rest.head? ≠ some '?') : Finds (opt (keep .mark (lit "?"))) m
      (m.behind (markIf marked) rest) (wordMarks .mark m (markIf marked) rest) := by
  cases marked with
  | true => exact ((finds_lit (s := "?") hm).keep .mark).opt
  | false =>
    have hm : m.rest = rest := hm
    have hnone : Text.after? "?".toList m.rest = none := by
      refine Option.eq_none_iff_forall_ne_some.mpr fun r hr => hrest ?_
      rw [← hm, Text.after?_eq_some_iff.mp hr]
      rfl
    have hstay : m.behind (markIf false) rest = m := by
      rw [← hm]
      exact m.behind_nil
    rw [hstay]
    refine finds_opt_nothing fun k => ?_
    rw [run_keep, run_lit_of_none hnone]
    rfl

namespace PropertyText

variable {p : PropertyText}

/-- A property up to its type. -/
def front : Pattern :=
  keep .name nameOrIndex ++ (opt (keep .mark (lit "?")) ++ (blanks ++ (lit ":" ++ blanks)))

theorem interfaceProperty_eq_front : interfaceProperty =
    flag .readonly "readonly" ++ (front ++ (keep .kind (few1 inLine) ++ memberEnd)) := rfl

/-- The property is read from its name on. -/
theorem IsWritten.exists_run (h : p.IsWritten) (hexact : m.Exact) (hm : m.rest = p.fromName) :
    ∃ r, (front ++ (keep .kind (few1 inLine) ++ memberEnd)).run done m = some r ∧
      r.part .name = p.name ∧ r.part .kind = p.type.text ∧ r.has .mark = p.marked := by
  let typed := p.type.behind ++ (p.type.text ++ p.sign)
  have hwritten : p.type.written ':' ++ p.sign = p.type.before ++ ':' :: typed := by
    simp [Signed.written, typed]
  have hbefore := List.all_eq_true.mp h.before
  have hstops : Stops (':' :: typed) := .of_head? rfl (by decide)
  rw [fromName, hwritten] at hm
  -- one spot behind each part of the property
  let m₁ := m.behind p.name (markIf p.marked ++ (p.type.before ++ ':' :: typed))
  let m₂ := m₁.behind (markIf p.marked) (p.type.before ++ ':' :: typed)
  let m₃ := m₂.behind p.type.before (':' :: typed)
  let m₄ := m₃.behind ":".toList typed
  let m₅ := m₄.behind p.type.behind (p.type.text ++ p.sign)
  let marks := wordMarks .mark m₁ (markIf p.marked) (p.type.before ++ ':' :: typed)
  have hname : Finds (keep .name nameOrIndex) m m₁ [(.name, m), (.name, m₁)] :=
    (h.finds_nameOrIndex hm (hstops.noName (markIf_cases p.marked) hbefore)).keep .name
  have hmark : Finds (opt (keep .mark (lit "?"))) m₁ m₂ marks :=
    finds_mark rfl (hstops.head?_ne_mark hbefore)
  have hblanks : Finds blanks m₂ m₃ [] := finds_many rfl hbefore rfl
  have hsign : Finds (lit ":") m₃ m₄ [] := finds_lit rfl
  have hblanks' : Finds blanks m₄ m₅ [] :=
    finds_many rfl (List.all_eq_true.mp h.behind) (h.head?_type _)
  have hfront : Finds front m m₅ ([(.name, m), (.name, m₁)] ++ marks) := by
    have hall := hname.append (hmark.append (hblanks.append (hsign.append hblanks')))
    rwa [List.append_nil, List.append_nil, List.append_nil] at hall
  have hmarks : ∀ s, marks.any (·.1 = s) = (decide (.mark = s) && p.marked) := by
    intro s
    cases hmarked : p.marked <;> simp [marks, wordMarks, markIf, hmarked]
  refine ⟨_, (run_append _ _ _ _).trans (hfront (h.run_type rfl)), ?_, ?_, ?_⟩
  · refine part_of_marks (a := m) (b := []) ?_ List.not_mem_nil hexact hm
    exact (List.prefix_append [(.name, m), (.name, m₁)] marks).trans (List.prefix_append _ _)
  · refine part_of_marks (b := [(.name, m), (.name, m₁)] ++ marks) List.prefix_rfl ?_
      (hfront.matches.exact hexact) rfl
    simp [marks, wordMarks]
  · simp [Match.has, Match.after, hmarks]

/-- Without the word in front, no word is read. -/
theorem IsWritten.flag_nothing (h : p.IsWritten) (hm : m.rest = p.fromName) (b : Pattern)
    (k : Spot → Option Match) :
    (flag .readonly "readonly").run ((front ++ b).run k) m = (front ++ b).run k m := by
  refine run_opt_of_none (Option.eq_none_iff_forall_ne_some.mpr fun r hr => ?_)
  obtain ⟨m', _, r', hword, hnext, -⟩ := exists_matches_of_run hr
  obtain ⟨_, hword, -⟩ := hword.exists_of_keep
  obtain ⟨y, hy, hrest, -⟩ := hword.of_word
  obtain ⟨_, _, _, hfront, -, -⟩ :=
    exists_matches_of_run ((run_append front b k m').symm.trans hnext)
  obtain ⟨_, _, _, hname, -, -⟩ := matches_append_iff.mp hfront
  obtain ⟨_, hname, -⟩ := hname.exists_of_keep
  let typed := p.type.behind ++ (p.type.text ++ p.sign)
  have hstops : Stops (':' :: typed) := .of_head? rfl (by decide)
  have htext : p.name ++ (markIf p.marked ++ (p.type.before ++ ':' :: typed)) = y ++ m'.rest := by
    rw [← hrest, hm, fromName]
    simp [Signed.written, typed]
  rcases h.isName with hn | ⟨u, -, -, hn⟩
  · -- the name would be the word, and what begins behind it another name
    have hnot := hstops.not_word (y := m'.rest) hn (markIf_cases p.marked)
      (List.all_eq_true.mp h.before) hy
    rcases exists_of_nameOrIndex hname with ⟨u, hu, hnext⟩ | ⟨u, hnext⟩
    · rw [hnext] at hnot htext
      exact hnot (isBlankChar_head?_of_isName hu) (hstops.ne_name hu _) htext
    · rw [hnext] at hnot htext
      exact hnot rfl (by simp) htext
  · obtain ⟨g, -, -, rfl⟩ := hy
    rw [hn] at htext
    cases htext

theorem IsWritten.head?_fromName (h : p.IsWritten) :
    p.fromName.head?.any Text.isBlankChar = false := by
  rcases h.isName with hname | ⟨u, -, -, hname⟩
  · exact isBlankChar_head?_of_isName hname
  · rw [fromName, hname]
    rfl

/-- The word is read exactly where it is written. -/
theorem IsWritten.run_flag (h : p.IsWritten) (hm : m.rest = p.text) {b : Pattern}
    {k : Spot → Option Match} {r : Match}
    (hrun : (front ++ b).run k (m.behind (wordIf p.readonly "readonly") p.fromName) = some r) :
    (flag .readonly "readonly").run ((front ++ b).run k) m = some (Match.after
      (wordMarks .readonly m (wordIf p.readonly "readonly") p.fromName) r) := by
  have hm : m.rest = wordIf p.readonly "readonly" ++ p.fromName := hm
  generalize p.readonly = readonly at hm hrun ⊢
  cases readonly with
  | true =>
    have hword := finds_word (isWord_space "readonly") hm h.head?_fromName
    exact (hword.keep .readonly).opt hrun
  | false =>
    have hm : m.rest = p.fromName := hm
    have hstay : m.behind [] p.fromName = m := by
      rw [← hm, m.behind_nil]
    have hrun : (front ++ b).run k m = some r := hstay ▸ hrun
    rw [h.flag_nothing hm, hrun]
    rfl

/-- A property is read as it is written. -/
theorem IsWritten.memberProperty?_text (h : p.IsWritten) :
    memberProperty? p.text = some p.record := by
  let m₀ := Spot.start p.text
  let m := m₀.behind (wordIf p.readonly "readonly") p.fromName
  have hexact : m.Exact := Spot.Exact.behind (m := m₀) rfl rfl
  obtain ⟨r, hrun, hname, hkind, hmark⟩ := h.exists_run hexact rfl
  let marks := wordMarks .readonly m₀ (wordIf p.readonly "readonly") p.fromName
  have hmatch : interfaceProperty.match? p.text = some (Match.after marks r) := by
    rw [match?_eq_run, interfaceProperty_eq_front, run_append]
    exact h.run_flag rfl hrun
  -- the mark of the word in front is the only one that the rest does not have
  have hparts : ∀ s, s ≠ .readonly → (Match.after marks r).part s = r.part s := by
    intro s hs
    rw [Match.part, Match.part, Match.part?_after]
    cases hreadonly : p.readonly <;> simp [marks, wordMarks, wordIf, hreadonly, hs]
  have hwords : (Match.after marks r).has .readonly = p.readonly := by
    have hnone : r.has .readonly = false := has_eq_false_of_run hrun (by decide)
    rw [Match.has] at hnone
    simp [Match.has, Match.after, hnone, marks, any_wordMarks]
  have hmarked : (Match.after marks r).has .mark = p.marked := by
    rw [Match.has] at hmark
    simp [Match.has, Match.after, hmark, marks, any_wordMarks]
  simp only [memberProperty?, hmatch, hparts .name (by decide), hparts .kind (by decide), hwords,
    hmarked, hname, hkind, trimmedText, h.isType.2.1, Option.bind_eq_bind, Option.bind_some]
  rfl

/-- A property is no method. -/
theorem IsWritten.noMethod (h : p.IsWritten) : NoMethod p.text := by
  let typed := p.type.behind ++ (p.type.text ++ p.sign)
  have hword := mayBeWord_wordIf p.readonly "readonly"
  have htext : p.text = wordIf p.readonly "readonly" ++
      (p.name ++ (markIf p.marked ++ (p.type.before ++ ':' :: typed))) := by
    simp [text, Signed.written, typed]
  rw [htext]
  rcases h.isName with hname | ⟨u, -, -, hname⟩
  · exact .inr ⟨':' :: typed, ⟨_, _, _, _, hword, hname, markIf_cases _,
      List.all_eq_true.mp h.before, rfl⟩, .of_head? rfl (by decide), by simp, by simp⟩
  · rw [hname]
    rcases leads_index hword with hhead | hlead
    · exact .inl hhead
    · exact .inr ⟨_, hlead, .of_head? rfl (by decide), by simp, by simp⟩

end PropertyText

end CodeAtlas.Brace
