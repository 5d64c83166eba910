/-
Interfaces on their lines.

The members of an interface are read line by line: unlike the headers of functions, a method whose
parameter list is broken is not joined. So its first line is no member, and each of its further
lines is read as one: a line that begins with a parameter and its type is taken for a property. An
interface is read as on one line for each member exactly if no method is broken
(`interfaceDeclaration?_layout`).

Between the head and the last line all lines are at depth one, since none of them has brackets that
count. What the lines of one entry add to the record is said by `IsWrittenOn.addMembers_append`, and
by induction on the entries what all of them add (`addMembers_layout`).
-/
import CodeAtlas.Proofs.Header.InterfaceMethod

set_option autoImplicit false

namespace CodeAtlas.Brace

open Pattern

/-! ## What stands inside an interface -/

/-- What may stand between the curly brackets. -/
inductive InterfaceEntry where
  | blank
  | property (p : PropertyText)
  | method (f : MethodText)

/-- The properties that the lines are taken for. -/
def propertiesIn (ls : List Line) : List Property :=
  ls.filterMap fun l => memberProperty? (Text.trim l)

namespace InterfaceEntry

/-- The method that the entry is, without its line. -/
def method? : InterfaceEntry → Option FunctionRecord
  | method f => some f.record
  | _ => none

def property? : InterfaceEntry → Option Property
  | property p => some p.record
  | _ => none

/-- The lines write the entry. A method stands on one line, or its parameter list is broken: then
the lines, joined by blanks, list its parameters, and none of the further ones begins with the name
of another method, as it begins with a parameter or with the bracket. -/
inductive IsWrittenOn : InterfaceEntry → List Line → Prop where
  | blank {l : Line} : Text.trim l = [] → IsWrittenOn .blank [l]
  | property {p : PropertyText} {l : Line} : p.IsWritten → Text.trim l = p.text →
      IsWrittenOn (.property p) [l]
  | method {f : MethodText} {l : Line} {t : List Char} : f.IsWritten → IsListOf ',' f.params t →
      Text.trim l = f.text t → IsWrittenOn (.method f) [l]
  | broken {f : MethodText} {first last : Line} {mid : List Line} {x y : List Char} : f.IsWritten →
      IsListOf ',' f.params ([' '].intercalate (x :: mid.map Text.trim ++ [y])) →
      Text.trim first = f.lead ++ '(' :: x → Text.trim last = y ++ ')' :: f.back →
      (∀ l ∈ mid ++ [last], NoMethod (Text.trim l)) →
      IsWrittenOn (.method f) (first :: (mid ++ [last]))

/-- The methods that are read on the lines of the entry, the first of which is `line`. -/
def methodsOn (e : InterfaceEntry) (line : Nat) (ls : List Line) : List FunctionRecord :=
  if ls.length = 1 then e.method?.toList.map ({ · with line }) else []

/-- The properties that are read on the lines of the entry: its own, and those that the further
lines are taken for. -/
def propertiesOn (e : InterfaceEntry) (ls : List Line) : List Property :=
  e.property?.toList ++ propertiesIn ls.tail

end InterfaceEntry

/-! ## Reading a line -/

variable {t : List Char} {l : Line} {ls rest : List Line}

theorem memberProperty?_of_head? (h : ∀ c ∈ t.head?, Text.isNameStart c = false ∧ c ≠ '[') :
    memberProperty? t = none := by
  have hstart : t.head?.any Text.isNameStart = false := any_head?_eq_false fun c hc => (h c hc).1
  have hnone : interfaceProperty.match? t = none := by
    refine Option.eq_none_iff_forall_ne_some.mpr fun r hr => ?_
    rcases leads_of_interfaceProperty hr with ⟨s, hlead, -⟩ | ⟨x, u, hx, rfl⟩
    · rw [hlead.head?] at hstart
      cases hstart
    · rcases hx with rfl | ⟨g, -, -, rfl⟩
      · exact (h '[' rfl).2 rfl
      · cases hstart
  rw [memberProperty?, hnone]
  rfl

/-- A line without a method adds the property that it is taken for. -/
theorem addMember_of_noMethod (h : NoMethod t) (record : InterfaceRecord) (line : Nat) :
    addMember record line t =
      { record with properties := record.properties ++ (memberProperty? t).toList } := by
  rw [addMember, memberMethod?_of_noMethod h]
  cases memberProperty? t with
  | none => simp
  | some p => rfl

/-- Blank lines and comments are passed; as members they would add nothing. -/
theorem addMember_of_not_mayHoldMember (hneutral : ∀ c ∈ t, IsNeutral c)
    (h : mayHoldMember t = false) (record : InterfaceRecord) (line : Nat) :
    addMember record line t = record := by
  -- there are no slashes, so that the line is blank or begins with a star
  have hhead : ∀ c ∈ t.head?, c = '*' := by
    intro c hc
    have hslash : c ≠ '/' := (hneutral c (List.mem_of_mem_head? hc)).2.1
    by_contra hstar
    have hempty : t.isEmpty = false := by
      cases t with
      | nil => cases hc
      | cons d t => rfl
    rw [mayHoldMember, hempty, Text.not_starts_of_head? "//" hc rfl hslash.symm,
      Text.not_starts_of_head? "*" hc rfl (Ne.symm hstar),
      Text.not_starts_of_head? "/*" hc rfl hslash.symm] at h
    cases h
  have hnone : memberProperty? t = none := memberProperty?_of_head? fun c hc => by
    rw [hhead c hc]
    decide
  have hstart : NoMethod t := .inl (any_head?_eq_false fun c hc => by
    rw [hhead c hc]
    decide)
  rw [addMember_of_noMethod hstart, hnone]
  simp

/-- At depth one, a line without brackets is read as a member. -/
theorem addMembers_line (h : ∀ c ∈ Text.trim l, IsNeutral c) (record : InterfaceRecord)
    (line : Nat) :
    addMembers record 1 line (l :: rest) =
      addMembers (addMember record line (Text.trim l)) 1 (line + 1) rest := by
  rw [addMembers, braceDelta_of_neutral h]
  cases hmay : mayHoldMember (Text.trim l) with
  | true => rfl
  | false =>
    rw [addMember_of_not_mayHoldMember h hmay]
    rfl

/-- Lines without methods add the properties that they are taken for. -/
theorem addMembers_noMethods (hneutral : ∀ l ∈ ls, ∀ c ∈ Text.trim l, IsNeutral c)
    (h : ∀ l ∈ ls, NoMethod (Text.trim l)) (record : InterfaceRecord) (line : Nat) :
    addMembers record 1 line (ls ++ rest) =
      addMembers { record with properties := record.properties ++ propertiesIn ls } 1
        (line + ls.length) rest := by
  induction ls generalizing record line with
  | nil => simp [propertiesIn]
  | cons l ls ih =>
    obtain ⟨hl, hls⟩ := List.forall_mem_cons.mp hneutral
    obtain ⟨hnone, hmore⟩ := List.forall_mem_cons.mp h
    rw [List.cons_append, addMembers_line hl, addMember_of_noMethod hnone, ih hls hmore]
    cases hread : memberProperty? (Text.trim l) <;>
      simp [propertiesIn, hread, Nat.add_assoc, Nat.add_comm 1]

/-! ## Reading an entry -/

theorem PropertyText.IsWritten.isNeutral_text {p : PropertyText} (h : p.IsWritten) :
    ∀ c ∈ p.text, IsNeutral c := by
  have hword : ∀ c ∈ wordIf p.readonly "readonly", IsNeutral c := by
    cases p.readonly <;> decide
  have hmark : ∀ c ∈ markIf p.marked, IsNeutral c := by
    rcases markIf_cases p.marked with hm | hm <;> rw [hm] <;> decide
  have hsign : ∀ c ∈ p.sign, IsNeutral c := by
    rcases h.isSign with hs | hs | hs <;> rw [hs] <;> decide
  obtain ⟨hname, htype⟩ := List.forall_mem_append.mp h.isNeutral
  have htyped : ∀ c ∈ ':' :: (p.type.behind ++ p.type.text), IsNeutral c :=
    List.forall_mem_cons.mpr ⟨by decide,
      List.forall_mem_append.mpr ⟨isNeutral_of_isBlank h.behind, htype⟩⟩
  simp only [text, Signed.written, List.forall_mem_append]
  exact ⟨hword, hname, hmark, ⟨isNeutral_of_isBlank h.before, htyped⟩, hsign⟩

namespace MethodText.IsWritten

variable {f : MethodText} (h : f.IsWritten)

include h

theorem isNeutral_lead : ∀ c ∈ f.lead, IsNeutral c := by
  have hmark : ∀ c ∈ markIf f.marked, IsNeutral c := by
    rcases markIf_cases f.marked with hm | hm <;> rw [hm] <;> decide
  simp only [lead, List.forall_mem_append]
  exact ⟨fun c hc => isNeutral_of_isNameChar (Text.isNameChar_of_mem h.isName hc), hmark,
    (List.forall_mem_append.mp h.isNeutral).1⟩

theorem isNeutral_list (ht : IsListOf ',' f.params t) : ∀ c ∈ t, IsNeutral c :=
  ht.forall_mem (by decide) (fun _ => isNeutral_of_isBlankChar)
    fun u hu => (h.isParam u hu).isNeutral

/-- The line on which a broken list begins is no member. -/
theorem noMember_first {x : List Char} {more : List (List Char)} (hmore : more ≠ [])
    (ht : IsListOf ',' f.params ([' '].intercalate (x :: more))) (line : Nat) :
    memberMethod? line (f.lead ++ '(' :: x) = none ∧
      memberProperty? (f.lead ++ '(' :: x) = none := by
  have hround := h.isRound ht
  rw [List.intercalate_cons_of_ne_nil hmore, List.append_assoc] at hround
  exact h.noMember (closeGroup?_of_isRound_append hround) line

end MethodText.IsWritten

namespace InterfaceEntry

variable {e : InterfaceEntry}

theorem IsWrittenOn.isNeutral (h : e.IsWrittenOn ls) :
    ∀ l ∈ ls, ∀ c ∈ Text.trim l, IsNeutral c := by
  cases h with
  | blank hl =>
    rw [List.forall_mem_singleton, hl]
    exact List.forall_mem_nil _
  | property hp hl =>
    rw [List.forall_mem_singleton, hl]
    exact hp.isNeutral_text
  | @method f l t hf ht hl =>
    obtain ⟨-, hback⟩ := List.forall_mem_append.mp hf.isNeutral
    have hbehind : ∀ c ∈ ')' :: f.back, IsNeutral c :=
      List.forall_mem_cons.mpr ⟨by decide, hback⟩
    have hlist : ∀ c ∈ '(' :: (t ++ ')' :: f.back), IsNeutral c :=
      List.forall_mem_cons.mpr ⟨by decide,
        List.forall_mem_append.mpr ⟨hf.isNeutral_list ht, hbehind⟩⟩
    rw [List.forall_mem_singleton, hl]
    exact List.forall_mem_append.mpr ⟨hf.isNeutral_lead, hlist⟩
  | @broken f first last mid x y hf ht hfirst hlast hnone =>
    -- each line of a broken list is a piece of the list, with its ends on the outer lines
    have hpiece : ∀ p ∈ x :: mid.map Text.trim ++ [y], ∀ c ∈ p, IsNeutral c := fun p hp c hc =>
      hf.isNeutral_list ht c (Text.mem_intercalate hp hc)
    obtain ⟨-, hback⟩ := List.forall_mem_append.mp hf.isNeutral
    intro l hl
    rcases List.mem_cons.mp hl with rfl | hl
    · rw [hfirst]
      exact List.forall_mem_append.mpr ⟨hf.isNeutral_lead,
        List.forall_mem_cons.mpr ⟨by decide, hpiece x (by simp)⟩⟩
    · rcases List.mem_append.mp hl with hl | hl
      · exact hpiece _ (List.mem_append_left _ (List.mem_cons_of_mem x (List.mem_map_of_mem hl)))
      · rw [List.mem_singleton.mp hl, hlast]
        exact List.forall_mem_append.mpr ⟨hpiece y (by simp),
          List.forall_mem_cons.mpr ⟨by decide, hback⟩⟩

/-- Its lines add to the record what is read of an entry. -/
theorem IsWrittenOn.addMembers_append (h : e.IsWrittenOn ls) (record : InterfaceRecord)
    (line : Nat) : addMembers record 1 line (ls ++ rest) =
      addMembers { record with methods := record.methods ++ e.methodsOn line ls,
                               properties := record.properties ++ e.propertiesOn ls } 1
        (line + ls.length) rest := by
  have hneutral := h.isNeutral
  cases h with
  | @blank l hl =>
    have hnone : NoMethod (Text.trim l) := .inl (by rw [hl]; rfl)
    have hread : memberProperty? (Text.trim l) = none := by
      rw [hl]
      exact memberProperty?_of_head? nofun
    rw [List.singleton_append, addMembers_line (hneutral l List.mem_cons_self),
      addMember_of_noMethod hnone, hread]
    simp [methodsOn, propertiesOn, propertiesIn, method?, property?]
  | @property p l hp hl =>
    have hnone : NoMethod (Text.trim l) := hl ▸ hp.noMethod
    rw [List.singleton_append, addMembers_line (hneutral l List.mem_cons_self),
      addMember_of_noMethod hnone, hl, hp.memberProperty?_text]
    simp [methodsOn, propertiesOn, propertiesIn, method?, property?]
  | @method f l t hf ht hl =>
    have hadd : addMember record line (Text.trim l) =
        { record with methods := record.methods ++ [{ f.record with line }] } := by
      rw [addMember, hl, hf.memberMethod?_text ht]
    rw [List.singleton_append, addMembers_line (hneutral l List.mem_cons_self), hadd]
    simp [methodsOn, propertiesOn, propertiesIn, method?, property?]
  | @broken f first last mid x y hf ht hfirst hlast hnone =>
    -- the first line leaves the list open; the further ones are read like members
    obtain ⟨hl, hmore⟩ := List.forall_mem_cons.mp hneutral
    obtain ⟨hmethod, hproperty⟩ := hf.noMember_first (by simp) ht line
    have hadd : addMember record line (Text.trim first) = record := by
      rw [addMember, hfirst, hmethod, hproperty]
    rw [List.cons_append, addMembers_line hl, hadd, addMembers_noMethods hmore hnone]
    simp [methodsOn, propertiesOn, property?, Nat.add_assoc, Nat.add_comm 1]

end InterfaceEntry

/-! ## Reading a layout -/

variable {layout : List (InterfaceEntry × List Line)}

/-- The methods that are read in a layout whose first line is `line`. -/
def methodsFrom : Nat → List (InterfaceEntry × List Line) → List FunctionRecord
  | _, [] => []
  | line, (e, ls) :: layout => e.methodsOn line ls ++ methodsFrom (line + ls.length) layout

/-- The properties that are read in a layout. -/
def propertiesFrom (layout : List (InterfaceEntry × List Line)) : List Property :=
  layout.flatMap fun x => x.1.propertiesOn x.2

/-- The method without its line. -/
def unplaced (f : FunctionRecord) : FunctionRecord := { f with line := 0 }

/-- The lines of a layout add to the record what is read of its entries. -/
theorem addMembers_layout (h : ∀ x ∈ layout, x.1.IsWrittenOn x.2) (record : InterfaceRecord)
    (line : Nat) : addMembers record 1 line (layout.flatMap (·.2) ++ rest) =
      addMembers { record with methods := record.methods ++ methodsFrom line layout,
                               properties := record.properties ++ propertiesFrom layout } 1
        (line + (layout.flatMap (·.2)).length) rest := by
  induction layout generalizing record line with
  | nil => simp [methodsFrom, propertiesFrom]
  | cons x layout ih =>
    obtain ⟨hx, hmore⟩ := List.forall_mem_cons.mp h
    -- an entry leaves the depth at one, so that the next one is read in the same way
    rw [List.flatMap_cons, List.append_assoc, hx.addMembers_append, ih hmore]
    simp [methodsFrom, propertiesFrom, Nat.add_assoc]

namespace InterfaceEntry

variable {e : InterfaceEntry}

theorem map_unplaced_methodsOn (e : InterfaceEntry) (line : Nat) (ls : List Line) :
    (e.methodsOn line ls).map unplaced = if ls.length = 1 then e.method?.toList else [] := by
  unfold methodsOn
  split
  · cases e <;> rfl
  · rfl

/-- Only methods are broken. -/
theorem IsWrittenOn.isSome_method? (h : e.IsWrittenOn ls) (hbroken : ls.length ≠ 1) :
    e.method?.isSome = true := by
  cases h with
  | blank | property => exact absurd rfl hbroken
  | method | broken => rfl

theorem propertiesOn_of_length_eq_one (e : InterfaceEntry) (h : ls.length = 1) :
    e.propertiesOn ls = e.property?.toList := by
  obtain ⟨l, rfl⟩ := List.length_eq_one_iff.mp h
  exact List.append_nil _

end InterfaceEntry

/-- The methods that are read are those that are not broken. -/
theorem map_unplaced_methodsFrom (line : Nat) :
    (methodsFrom line layout).map unplaced =
      (layout.filter (·.2.length = 1)).filterMap (·.1.method?) := by
  induction layout generalizing line with
  | nil => rfl
  | cons x layout ih =>
    rw [methodsFrom, List.map_append, InterfaceEntry.map_unplaced_methodsOn, ih, List.filter_cons]
    by_cases hone : x.2.length = 1
    · cases hmethod : x.1.method? <;> simp [hone, hmethod]
    · simp [hone]

/-- If a filter loses nothing of what `f` finds, it keeps all that `f` finds something for. -/
theorem forall_of_filterMap_filter {α β : Type} {f : α → Option β} {p : α → Bool} {xs : List α}
    (h : (xs.filter p).filterMap f = xs.filterMap f) :
    ∀ x ∈ xs, (f x).isSome = true → p x = true := by
  intro x hx hfound
  by_contra hlost
  -- what is lost makes the list shorter, and nothing on either side of it can make up for that
  obtain ⟨as, bs, rfl⟩ := List.append_of_mem hx
  obtain ⟨y, hy⟩ := Option.isSome_iff_exists.mp hfound
  have hlength := congrArg List.length h
  have has := ((List.filter_sublist (p := p) (l := as)).filterMap f).length_le
  have hbs := ((List.filter_sublist (p := p) (l := bs)).filterMap f).length_le
  simp only [List.filter_append, List.filter_cons_of_neg hlost, List.filterMap_append,
    List.filterMap_cons_some hy, List.length_append, List.length_cons] at hlength
  omega

/-- The members that are read are the entries exactly if each of these stands on one line. -/
theorem readsEntries_iff (h : ∀ x ∈ layout, x.1.IsWrittenOn x.2) (line : Nat) :
    (methodsFrom line layout).map unplaced = layout.filterMap (·.1.method?) ∧
        propertiesFrom layout = layout.filterMap (·.1.property?) ↔
      ∀ x ∈ layout, x.2.length = 1 := by
  rw [map_unplaced_methodsFrom]
  constructor
  · rintro ⟨hmethods, -⟩ x hx
    by_contra hbroken
    have hkept := forall_of_filterMap_filter hmethods x hx ((h x hx).isSome_method? hbroken)
    exact hbroken (of_decide_eq_true hkept)
  · intro hone
    have hkept : layout.filter (·.2.length = 1) = layout :=
      List.filter_eq_self.mpr fun x hx => decide_eq_true (hone x hx)
    refine ⟨by rw [hkept], ?_⟩
    rw [propertiesFrom, List.filterMap_eq_flatMap_toList]
    exact List.flatMap_congr fun x hx => x.1.propertiesOn_of_length_eq_one (hone x hx)

/-- What a further line of a broken method is taken for is a property of the interface. -/
theorem mem_propertiesFrom {x : InterfaceEntry × List Line} (hx : x ∈ layout)
    (hl : l ∈ x.2.tail) {p : PropertyText} (hp : p.IsWritten) (ht : Text.trim l = p.text) :
    p.record ∈ propertiesFrom layout := by
  have hread : memberProperty? (Text.trim l) = some p.record := ht ▸ hp.memberProperty?_text
  exact List.mem_flatMap.mpr ⟨x, hx,
    List.mem_append_right _ (List.mem_filterMap.mpr ⟨l, hl, hread⟩)⟩

/-! ## Interfaces -/

variable {head close : Line} {body after : List Line} {r : InterfaceRecord}

/-- The line that closes an interface has no member. -/
theorem addMember_close (record : InterfaceRecord) (line : Nat) :
    addMember record line ['\x7d'] = record := by
  have hnone : memberProperty? ['\x7d'] = none := memberProperty?_of_head? (by decide)
  rw [addMember_of_noMethod (.inl rfl), hnone]
  simp

theorem braceDelta_close (h : Text.trim close = ['\x7d']) : braceDelta close = -1 := by
  obtain ⟨g, hg, hcount⟩ := exists_braceCount_trim close
  have hblank : braceCount g = ⟨0, 0⟩ :=
    braceCountFrom_of_neutral (isNeutral_of_isBlank hg) .code
  have hclose : braceCount (['\x7d'] ++ g) = (braceCount g).add '\x7d' := rfl
  rw [braceDelta, hcount, h, hclose, hblank]
  rfl

/-- An open block goes on over lines without brackets. -/
theorem braceExtentFrom_of_neutral (hbody : ∀ l ∈ body, braceDelta l = 0)
    (hclose : braceDelta close = -1) (read : Nat) :
    braceExtentFrom true 1 read (body ++ close :: after) = read + body.length := by
  induction body generalizing read with
  | nil =>
    rw [List.nil_append, braceExtentFrom, ← braceDelta, hclose]
    rfl
  | cons l body ih =>
    obtain ⟨hl, hmore⟩ := List.forall_mem_cons.mp hbody
    rw [List.cons_append, braceExtentFrom, ← braceDelta, hl, List.length_cons]
    simp [ih hmore, Nat.add_assoc, Nat.add_comm 1]

theorem braceExtent_of_neutral (hhead : braceDelta head = 1) (hbody : ∀ l ∈ body, braceDelta l = 0)
    (hclose : braceDelta close = -1) :
    braceExtent (head :: (body ++ close :: after)) = body.length + 1 := by
  have hopens : 0 < (braceCount head).opens := by
    simp only [braceDelta, BraceCount.delta] at hhead
    omega
  rw [braceExtent, braceExtentFrom, ← braceDelta, hhead]
  simp [hopens, braceExtentFrom_of_neutral hbody hclose, Nat.add_comm 1]

/-- What is read of the head alone is read of it with lines behind it. -/
theorem interfaceDeclaration?_cons (h : interfaceDeclaration? [head] = some (.interface r))
    (ls : List Line) :
    r.methods = [] ∧ r.properties = [] ∧
      interfaceDeclaration? (head :: ls) = some (.interface (addMembers r (braceDelta head) 2
        ((window (braceExtent (head :: ls)) (head :: ls)).drop 1))) := by
  have hsame : firstTrimmed (head :: ls) = firstTrimmed [head] := rfl
  cases hmatch : interfaceHeader.match? (firstTrimmed [head]) with
  | none => simp [interfaceDeclaration?, hmatch] at h
  | some m =>
    -- without further lines there is no member to be read
    have hnobody : (window (braceExtent [head]) [head]).drop 1 = [] := by simp [window]
    simp only [interfaceDeclaration?, hmatch, hnobody, Option.bind_eq_bind, Option.bind_some] at h
    obtain rfl : _ = r := Construct.interface.inj (Option.some.inj h)
    refine ⟨rfl, rfl, ?_⟩
    simp only [interfaceDeclaration?, hsame, hmatch, Option.bind_eq_bind, Option.bind_some]
    rfl

/-- An interface is read in every layout with the methods that are not broken, with its properties,
and with what the further lines of broken methods are taken for. These are the members that it has
exactly if no method is broken, and any parameter that stands on a line of its own like a property
is one of the properties. -/
theorem interfaceDeclaration?_layout (hread : interfaceDeclaration? [head] = some (.interface r))
    (hhead : braceDelta head = 1) (hlayout : ∀ x ∈ layout, x.1.IsWrittenOn x.2)
    (hclose : Text.trim close = ['\x7d']) (after : List Line) :
    interfaceDeclaration? (head :: (layout.flatMap (·.2) ++ close :: after)) = some (.interface
        { r with methods := methodsFrom 2 layout, properties := propertiesFrom layout }) ∧
      ((methodsFrom 2 layout).map unplaced = layout.filterMap (·.1.method?) ∧
          propertiesFrom layout = layout.filterMap (·.1.property?) ↔
        ∀ x ∈ layout, x.2.length = 1) ∧
      ∀ x ∈ layout, ∀ l ∈ x.2.tail, ∀ p : PropertyText, p.IsWritten → Text.trim l = p.text →
        p.record ∈ propertiesFrom layout := by
  let body := layout.flatMap (·.2)
  have hneutral : ∀ l ∈ body, braceDelta l = 0 := by
    intro l hl
    obtain ⟨x, hx, hl⟩ := List.mem_flatMap.mp hl
    exact braceDelta_of_neutral ((hlayout x hx).isNeutral l hl)
  -- no member has a curly bracket, so the interface ends with the line that closes it
  have hextent : braceExtent (head :: (body ++ close :: after)) = body.length + 1 :=
    braceExtent_of_neutral hhead hneutral (braceDelta_close hclose)
  have hbody : (window (body.length + 1) (head :: (body ++ close :: after))).drop 1 =
      body ++ [close] := by
    simp [window, List.take_append, List.take_of_length_le (Nat.le_succ body.length)]
  obtain ⟨hmethods, hproperties, hwhole⟩ :=
    interfaceDeclaration?_cons hread (body ++ close :: after)
  have hlast : ∀ record line, addMembers record 1 line [close] = record := by
    intro record line
    rw [addMembers, addMembers, hclose, addMember_close, ite_self]
  rw [hextent, hhead, hbody, addMembers_layout hlayout, hlast, hmethods, hproperties] at hwhole
  exact ⟨hwhole, readsEntries_iff hlayout 2,
    fun x hx l hl p hp ht => mem_propertiesFrom hx hl hp ht⟩

/-! ## A layout with a broken method -/

def optionalKey : PropertyText where
  readonly := true
  name := ['k']
  marked := true
  type := ⟨[], [' '], "string".toList⟩
  sign := [';']

theorem isWritten_optionalKey : optionalKey.IsWritten where
  isName := .inl (isNameOf_singleton (by decide))
  before := rfl
  behind := rfl
  isType := by decide
  noSign := by decide
  isSign := .inr (.inl rfl)
  isNeutral := by decide

/-- A parameter that is written like a property. -/
def listedParameter : PropertyText where
  readonly := false
  name := ['a']
  marked := false
  type := ⟨[], [' '], "string".toList⟩
  sign := [',']

theorem isWritten_listedParameter : listedParameter.IsWritten where
  isName := .inl (isNameOf_singleton (by decide))
  before := rfl
  behind := rfl
  isType := by decide
  noSign := by decide
  isSign := .inr (.inr rfl)
  isNeutral := by decide

/-- A method with type parameters and two parameters. -/
def genericMethod : MethodText where
  name := ['m']
  marked := false
  generics := "<T>".toList
  params := ["a: string".toList, "...b: T[]".toList]
  back := ": void;".toList

theorem isWritten_genericMethod : genericMethod.IsWritten where
  isName := isNameOf_singleton (by decide)
  isGenerics := .inr ⟨['T'], by decide, rfl⟩
  isParam := by
    have hparam : ∀ p ∈ genericMethod.params, IsPiece p ∧ closesRound 0 p = true ∧
        ∀ c ∈ p, IsNeutral c := by
      decide
    exact fun p hp => ⟨(hparam p hp).1, (hparam p hp).2.1, (hparam p hp).2.2⟩
  isTail := by decide +kernel
  isNeutral := by decide

/-- A property, a method on one line and the same one on four lines. -/
def mixedLayout : List (InterfaceEntry × List Line) :=
  [(.property optionalKey, ["  readonly k?: string;".toList]),
   (.method genericMethod, ["  m<T>(a: string, ...b: T[]): void;".toList]),
   (.blank, [[]]),
   (.method genericMethod, "  m<T>(".toList ::
      (["    a: string,".toList, "    ...b: T[],".toList] ++ ["  ): void;".toList]))]

theorem isWrittenOn_mixedLayout : ∀ x ∈ mixedLayout, x.1.IsWrittenOn x.2 := by
  have hone : IsListOf ',' genericMethod.params "a: string, ...b: T[]".toList :=
    ⟨["a: string".toList, " ...b: T[]".toList], by decide, by decide, .inl (by decide)⟩
  have hbroken : IsListOf ',' genericMethod.params
      ([' '].intercalate [[], "a: string,".toList, "...b: T[],".toList, []]) :=
    ⟨[" a: string".toList, " ...b: T[]".toList, [' ']], by decide, by decide, .inr (by decide)⟩
  have hnone : ∀ l ∈ ["    a: string,".toList, "    ...b: T[],".toList] ++ ["  ): void;".toList],
      NoMethod (Text.trim l) := by
    have hparam : Text.trim "    a: string,".toList = listedParameter.text := by decide
    simp only [List.cons_append, List.nil_append, List.forall_mem_cons]
    exact ⟨hparam ▸ isWritten_listedParameter.noMethod, .inl (by decide), .inl (by decide),
      List.forall_mem_nil _⟩
  simp only [mixedLayout, List.forall_mem_cons]
  refine ⟨.property isWritten_optionalKey (by decide), ?_, .blank (by decide), ?_,
    List.forall_mem_nil _⟩
  · exact .method isWritten_genericMethod hone (by decide)
  · exact .broken (x := []) (y := []) isWritten_genericMethod hbroken (by decide) (by decide) hnone

/-- The method on one line is read; of the broken one the first parameter is taken for a
property. -/
theorem interfaceDeclaration?_mixedLayout :
    let head := "interface A \x7b".toList
    let m : FunctionRecord :=
      { name := "m", kind := .method, line := 3, complexity := 1, lineCount := 1,
        params := [{ name := "a", typeText := some "string" },
                   { name := "b", typeText := some "T[]", rest := true }],
        returnType := some "void" }
    let k : Property :=
      { name := "k", typeText := some "string", readonly := true, optional := true }
    let a : Property := { name := "a", typeText := some "string" }
    (∀ x ∈ mixedLayout, x.1.IsWrittenOn x.2) ∧
      interfaceDeclaration? (head :: (mixedLayout.flatMap (·.2) ++ ["\x7d".toList])) =
        some (.interface { name := "A", line := 1, methods := [m], properties := [k, a] }) := by
  intro head m k a
  have hread : interfaceDeclaration? [head] = some (.interface { name := "A", line := 1 }) := by
    decide +kernel
  have hclose : Text.trim "\x7d".toList = ['\x7d'] := by decide
  have hlayout := (interfaceDeclaration?_layout hread (by decide) isWrittenOn_mixedLayout
    hclose []).1
  have hmethods : methodsFrom 2 mixedLayout = [m] := by decide +kernel
  have hproperties : propertiesFrom mixedLayout = [k, a] := by decide +kernel
  rw [hmethods, hproperties] at hlayout
  exact ⟨isWrittenOn_mixedLayout, hlayout⟩

/-- The members of an interface are not the same if the parameter list of a method is broken. -/
theorem interfaceDeclaration?_brokenMethod :
    interfaceDeclaration? ["interface A \x7b".toList, "  m(a: string): void;".toList,
        "\x7d".toList] =
      some (.interface { name := "A", line := 1, methods :=
        [{ name := "m", kind := .method, line := 2, complexity := 1, lineCount := 1,
           params := [{ name := "a", typeText := some "string" }],
           returnType := some "void" }] }) ∧
    interfaceDeclaration? ["interface A \x7b".toList, "  m(".toList, "    a: string,".toList,
        "  ): void;".toList, "\x7d".toList] =
      some (.interface { name := "A", line := 1, properties :=
        [{ name := "a", typeText := some "string" }] }) := by
  decide +kernel

end CodeAtlas.Brace
