/-
Readers of records are lenient.

What stands for a record may leave out fields that have their defaults, and may hold
fields that nobody asks for, in records within records and in lists of them as well. A
`Shape` says where in a value records stand, so `Relaxed` can say which values are as
good as a written one without a word about how they are read.

A record is read field by field in the order in which it is written. So that it is read
back from all of these values follows one field at a time (`FaithfulFields.next`): either
the field is there once, with a value as good as the written one, or it is not there and
the default stands for it. The names of a record differ, which is where the two cases
come from (`RelaxedFields.stands`).
-/
import CodeAtlas.Json.Decode
import CodeAtlas.Outline.Encode
import CodeAtlas.Proofs.Json.RoundTrip
import Mathlib.Data.List.Forall2
import Mathlib.Data.List.Nodup

set_option autoImplicit false

namespace CodeAtlas.Json

/-! ## Values that stand for records -/

/-- The fields of an object. -/
def fields : Json → List (String × Json)
  | .obj fs => fs
  | _ => []

/-- Where records stand in a value. -/
inductive Shape where
  /-- no records in it -/
  | plain
  /-- an array -/
  | list (item : Shape)
  /-- a record, by the fields of its default and by what their values are -/
  | record (defaults : List (String × Json)) (field : String → Shape)

/-- The fields on the right stand for those on the left: in their order, with values that
are related, without some that have the default, and with others whose names the record
does not know. -/
inductive RelaxedFields (defaults : List (String × Json))
    (related : String → Json → Json → Prop) :
    List (String × Json) → List (String × Json) → Prop
  | nil : RelaxedFields defaults related [] []
  | keep {k : String} {v w : Json} {vs ws : List (String × Json)} (hvalue : related k v w)
      (h : RelaxedFields defaults related vs ws) :
      RelaxedFields defaults related ((k, v) :: vs) ((k, w) :: ws)
  | leave {k : String} {v : Json} {vs ws : List (String × Json)} (hdefault : (k, v) ∈ defaults)
      (h : RelaxedFields defaults related vs ws) : RelaxedFields defaults related ((k, v) :: vs) ws
  | add {k : String} {w : Json} {vs ws : List (String × Json)}
      (hunknown : k ∉ defaults.map Prod.fst) (h : RelaxedFields defaults related vs ws) :
      RelaxedFields defaults related vs ((k, w) :: ws)

/-- The second value stands for the first one, with fewer fields or more fields in the
records, at any depth. -/
def Relaxed : Shape → Json → Json → Prop
  | .plain => fun j j' => j' = j
  | .list item => fun j j' => ∃ items items',
      j = .arr items ∧ j' = .arr items' ∧ List.Forall₂ (Relaxed item) items items'
  | .record defaults field => fun j j' => ∃ vs ws,
      j = .obj vs ∧ j' = .obj ws ∧ RelaxedFields defaults (fun k => Relaxed (field k)) vs ws

/-! ## What is found for a field -/

section Fields

variable {defaults vs ws : List (String × Json)} {related : String → Json → Json → Prop}

/-- A known name is not among the given fields if it is not among the written ones. -/
theorem RelaxedFields.filter_eq_nil (h : RelaxedFields defaults related vs ws) {k : String}
    (hknown : k ∈ defaults.map Prod.fst) (hk : k ∉ vs.map Prod.fst) :
    ws.filter (·.1 == k) = [] := by
  induction h with
  | nil => rfl
  | @keep k' v w vs ws hvalue h ih =>
    rw [List.map_cons, List.mem_cons, not_or] at hk
    rw [List.filter_cons_of_neg (by simpa using Ne.symm hk.1), ih hk.2]
  | leave hdefault h ih =>
    rw [List.map_cons, List.mem_cons, not_or] at hk
    exact ih hk.2
  | @add k' w vs ws hunknown h ih =>
    have hne : k' ≠ k := fun heq => hunknown (heq ▸ hknown)
    rw [List.filter_cons_of_neg (by simpa using hne), ih hk]

/-- What the given fields hold for a written one: either nothing, and it has the default,
or one field, with a related value. -/
def Stands (related : String → Json → Json → Prop) (ws : List (String × Json))
    (default written : String × Json) : Prop :=
  (ws.filter (·.1 == written.1) = [] ∧ written = default) ∨
    ∃ w, ws.filter (·.1 == written.1) = [(written.1, w)] ∧ related written.1 written.2 w

theorem Stands.cons {k : String} {w : Json} {d f : String × Json} (h : Stands related ws d f)
    (hne : k ≠ f.1) : Stands related ((k, w) :: ws) d f := by
  have hfilter : ((k, w) :: ws).filter (·.1 == f.1) = ws.filter (·.1 == f.1) :=
    List.filter_cons_of_neg (by simpa using hne)
  rw [Stands, hfilter]
  exact h

/-- The default of a written field is the one with its name. -/
theorem eq_of_mem_defaults (hnames : (defaults.map Prod.fst).Nodup) {d f : String × Json}
    (hd : d ∈ defaults) (hf : f ∈ defaults) (hname : d.1 = f.1) : f = d :=
  (List.inj_on_of_nodup_map hnames hd hf hname).symm

theorem RelaxedFields.stands_of_mem (h : RelaxedFields defaults related vs ws)
    (hnames : (defaults.map Prod.fst).Nodup) (hvs : (vs.map Prod.fst).Nodup) {d f : String × Json}
    (hd : d ∈ defaults) (hf : f ∈ vs) (hname : d.1 = f.1) : Stands related ws d f := by
  -- the fields come in order, so only the first with the name counts and the rest has none
  induction h with
  | nil => simp at hf
  | @keep k v w vs ws hvalue h ih =>
    rw [List.map_cons, List.nodup_cons] at hvs
    rcases List.mem_cons.mp hf with rfl | hf
    · have hrest := h.filter_eq_nil (hname ▸ List.mem_map_of_mem hd) hvs.1
      refine .inr ⟨w, ?_, hvalue⟩
      rw [List.filter_cons_of_pos (by simp), hrest]
    · have hmem : f.1 ∈ vs.map Prod.fst := List.mem_map_of_mem hf
      have hne : k ≠ f.1 := fun heq => hvs.1 (heq ▸ hmem)
      exact (ih hvs.2 hf).cons hne
  | @leave k v vs ws hdefault h ih =>
    rw [List.map_cons, List.nodup_cons] at hvs
    rcases List.mem_cons.mp hf with rfl | hf
    · have hrest := h.filter_eq_nil (hname ▸ List.mem_map_of_mem hd) hvs.1
      exact .inl ⟨hrest, eq_of_mem_defaults hnames hd hdefault hname⟩
    · exact ih hvs.2 hf
  | @add k w vs ws hunknown h ih =>
    have hmem : d.1 ∈ defaults.map Prod.fst := List.mem_map_of_mem hd
    have hne : k ≠ f.1 := fun heq => hunknown (heq ▸ hname ▸ hmem)
    exact (ih hvs hf).cons hne

/-- What is found for all the fields of a record. -/
theorem RelaxedFields.stands (h : RelaxedFields defaults related vs ws)
    (hnames : (defaults.map Prod.fst).Nodup) (hsame : defaults.map Prod.fst = vs.map Prod.fst) :
    List.Forall₂ (Stands related ws) defaults vs := by
  have hzip : List.Forall₂ (fun d f : String × Json => d.1 = f.1) defaults vs := by
    have heq : List.Forall₂ Eq (defaults.map Prod.fst) (vs.map Prod.fst) := by
      rw [List.forall₂_eq_eq_eq]
      exact hsame
    exact List.forall₂_map_right_iff.mp (List.forall₂_map_left_iff.mp heq)
  rw [List.forall₂_iff_zip] at hzip ⊢
  refine ⟨hzip.1, fun {d f} hmem => ?_⟩
  obtain ⟨hd, hf⟩ := List.of_mem_zip hmem
  exact h.stands_of_mem hnames (hsame ▸ hnames) hd hf (hzip.2 hmem)

end Fields

/-! ## What is read back -/

/-- The value is read back from what is written for it, and from all that stands for it. -/
structure Faithful {α : Type} (shape : Shape) (read : Decoder α) (write : α → Json) (a : α) :
    Prop where
  same : Relaxed shape (write a) (write a)
  reads : ∀ j, Relaxed shape (write a) j → read j = some a
  exact : Exact (write a)

/-- The record is read back from fields that stand for the written ones, field by field. -/
structure FaithfulFields {α : Type} (field : String → Shape)
    (defaults written : List (String × Json)) (read : FieldReader α) (a : α) : Prop where
  names : defaults.map Prod.fst = written.map Prod.fst
  same : ∀ f ∈ written, Relaxed (field f.1) f.2 f.2
  reads : ∀ given, List.Forall₂ (Stands (fun k => Relaxed (field k)) given) defaults written →
    read (.named given) = some (a, .named given)
  exact : ∀ f ∈ written, Exact f.2

section Records

variable {α β : Type} {field : String → Shape} {defaults written : List (String × Json)}

theorem FaithfulFields.done (a : α) : FaithfulFields field [] [] (pure a) a where
  names := rfl
  same := by simp
  reads := fun _ _ => rfl
  exact := by simp

/-- A value from which another one is read is that one. -/
theorem Faithful.eq_of_write_eq {shape : Shape} {read : Decoder α} {write : α → Json} {a b : α}
    (ha : Faithful shape read write a) (hb : Faithful shape read write b)
    (h : write a = write b) : a = b := by
  have hread := ha.reads _ ha.same
  rw [h, hb.reads _ hb.same] at hread
  exact (Option.some.inj hread).symm

theorem FaithfulFields.next {k : String} {read : Decoder β} {write : β → Json} {b d : β}
    {rest : β → FieldReader α} {a : α} (hb : Faithful (field k) read write b)
    (hd : Faithful (field k) read write d)
    (h : FaithfulFields field defaults written (rest b) a) :
    FaithfulFields field ((k, write d) :: defaults) ((k, write b) :: written)
      (Json.next k read d >>= rest) a where
  names := by rw [List.map_cons, List.map_cons, h.names]
  same := by
    intro f hf
    rcases List.mem_cons.mp hf with rfl | hf
    · exact hb.same
    · exact h.same f hf
  reads := by
    intro given hgiven
    obtain ⟨hfirst, hrest⟩ := List.forall₂_cons.mp hgiven
    -- the field was left out, and then its value is the default, or it was written
    have hnext : Json.next k read d (.named given) = some (b, .named given) := by
      rcases hfirst with ⟨hnone, heq⟩ | ⟨w, hone, hvalue⟩
      · obtain rfl : b = d := hb.eq_of_write_eq hd (Prod.mk.inj heq).2
        simp only [Json.next, hnone]
      · simp only [Json.next, hone, hb.reads w hvalue, Option.map_some]
    have hbind : (Json.next k read d >>= rest) (.named given) =
        (Json.next k read d (.named given)).bind fun r => rest r.1 r.2 := rfl
    rw [hbind, hnext, Option.bind_some]
    exact h.reads given hrest
  exact := by
    intro f hf
    rcases List.mem_cons.mp hf with rfl | hf
    · exact hb.exact
    · exact h.exact f hf

theorem relaxedFields_refl {related : String → Json → Json → Prop}
    (h : ∀ f ∈ written, related f.1 f.2 f.2) : RelaxedFields defaults related written written := by
  induction written with
  | nil => exact .nil
  | cons f written ih =>
    exact .keep (h f List.mem_cons_self) (ih fun g hg => h g (List.mem_cons_of_mem _ hg))

/-- A record whose fields are read back is read back. -/
theorem FaithfulFields.faithful {read : FieldReader α} {write : α → Json} {a : α}
    (h : FaithfulFields field defaults (write a).fields read a)
    (hwrite : write a = .obj (write a).fields) (hnames : (defaults.map Prod.fst).Nodup) :
    Faithful (.record defaults field) (record? read) write a where
  same := ⟨_, _, hwrite, hwrite, relaxedFields_refl h.same⟩
  reads := by
    rintro j ⟨vs, ws, hvs, rfl, hrelaxed⟩
    have heq : (write a).fields = vs := by rw [hvs]; rfl
    subst heq
    rw [record?, h.reads ws (hrelaxed.stands hnames h.names)]
    rfl
  exact := by
    rw [hwrite]
    exact .obj h.exact

/-! ## Values without records -/

theorem faithful_plain {read : Decoder α} {write : α → Json} {a : α}
    (hread : read (write a) = some a) (hexact : Exact (write a)) :
    Faithful .plain read write a where
  same := rfl
  reads := by
    rintro j rfl
    exact hread
  exact := hexact

theorem faithful_text (s : String) : Faithful .plain text? .str s :=
  faithful_plain rfl (.str s)

theorem faithful_bool (b : Bool) : Faithful .plain bool? .bool b :=
  faithful_plain rfl (.bool b)

theorem faithful_natUpTo {max n : Nat} (hmax : max ≤ maxWord) (h : n ≤ max) :
    Faithful .plain (natUpTo? max) nat n :=
  faithful_plain (if_pos h) (.int (by omega) (by omega))

theorem faithful_list {shape : Shape} {read : Decoder α} {write : α → Json} {as : List α}
    (h : ∀ a ∈ as, Faithful shape read write a) :
    Faithful (.list shape) (list? read) (fun as => .arr (as.map write)) as where
  same := by
    refine ⟨_, _, rfl, rfl, ?_⟩
    rw [List.forall₂_map_left_iff, List.forall₂_map_right_iff, List.forall₂_same]
    exact fun a ha => (h a ha).same
  reads := by
    rintro j ⟨items, items', hitems, rfl, hrelaxed⟩
    obtain rfl := Json.arr.inj hitems
    rw [List.forall₂_map_left_iff] at hrelaxed
    rw [list?]
    clear hitems
    -- the items that are read stand for the written ones, one by one
    induction hrelaxed with
    | nil => rfl
    | @cons a item as items' hitem _ ih =>
      have hfirst := (h a List.mem_cons_self).reads item hitem
      rw [List.mapM_cons, hfirst, ih fun b hb => h b (List.mem_cons_of_mem _ hb)]
      rfl
  exact := by
    refine .arr fun j hj => ?_
    obtain ⟨a, ha, rfl⟩ := List.mem_map.mp hj
    exact (h a ha).exact

theorem faithful_texts (ts : List String) : Faithful .plain texts? strs ts := by
  have hlist : Faithful (.list .plain) texts? strs ts := faithful_list fun t _ => faithful_text t
  exact faithful_plain (hlist.reads _ hlist.same) hlist.exact

/-- A value that is written as a text may be absent. -/
theorem faithful_option {read : Decoder α} {write : α → Json} {o : Option α}
    (h : ∀ a, Faithful .plain read write a) (hstr : ∀ a, ∃ s, write a = .str s) :
    Faithful .plain (option? read) (ofOption write) o := by
  cases o with
  | none => exact faithful_plain rfl .null
  | some a =>
    obtain ⟨s, hs⟩ := hstr a
    have hread := (h a).reads _ rfl
    refine faithful_plain ?_ (h a).exact
    rw [ofOption, hs] at *
    rw [option?, hread]
    · rfl
    · simp

end Records

/-! ## Tags -/

/-- The names of a tag say which one it is, and all of them are listed. -/
class LawfulTag (α : Type) [Tag α] : Prop where
  ofName?_name (a : α) : Tag.ofName? (Tag.name a) = some a

instance : LawfulTag Family := ⟨fun a => by cases a <;> rfl⟩

instance : LawfulTag FunctionKind := ⟨fun a => by cases a <;> rfl⟩

instance : LawfulTag Visibility := ⟨fun a => by cases a <;> rfl⟩

instance : LawfulTag ImportOrigin := ⟨fun a => by cases a <;> rfl⟩

instance : LawfulTag ExportKind := ⟨fun a => by cases a <;> rfl⟩

instance : LawfulTag TypeKind := ⟨fun a => by cases a <;> rfl⟩

instance : LawfulTag DesignPattern := ⟨fun a => by cases a <;> rfl⟩

instance : LawfulTag Purpose := ⟨fun a => by cases a <;> rfl⟩

theorem faithful_tag {α : Type} [Tag α] [LawfulTag α] (a : α) :
    Faithful .plain tag? tagJson a :=
  faithful_plain (LawfulTag.ofName?_name a) (.str _)

/-! ## The kinds of fields -/

namespace FaithfulFields

variable {α β : Type} {field : String → Shape} {defaults written : List (String × Json)}
  {k : String} {a : α}

theorem plain {read : Decoder β} {write : β → Json} {b d : β} {rest : β → FieldReader α}
    (hk : field k = .plain) (hall : ∀ b, Faithful .plain read write b)
    (h : FaithfulFields field defaults written (rest b) a) :
    FaithfulFields field ((k, write d) :: defaults) ((k, write b) :: written)
      (Json.next k read d >>= rest) a :=
  .next (hk ▸ hall b) (hk ▸ hall d) h

theorem text {b d : String} {rest : String → FieldReader α}
    (hk : field k = .plain) (h : FaithfulFields field defaults written (rest b) a) :
    FaithfulFields field ((k, .str d) :: defaults) ((k, .str b) :: written)
      (Json.next k text? d >>= rest) a :=
  .plain hk faithful_text h

theorem flag {b d : Bool} {rest : Bool → FieldReader α}
    (hk : field k = .plain) (h : FaithfulFields field defaults written (rest b) a) :
    FaithfulFields field ((k, .bool d) :: defaults) ((k, .bool b) :: written)
      (Json.next k bool? d >>= rest) a :=
  .plain hk faithful_bool h

theorem texts {b d : List String} {rest : List String → FieldReader α}
    (hk : field k = .plain) (h : FaithfulFields field defaults written (rest b) a) :
    FaithfulFields field ((k, strs d) :: defaults) ((k, strs b) :: written)
      (Json.next k texts? d >>= rest) a :=
  .plain hk faithful_texts h

theorem textOption {b d : Option String} {rest : Option String → FieldReader α}
    (hk : field k = .plain) (h : FaithfulFields field defaults written (rest b) a) :
    FaithfulFields field ((k, textJson d) :: defaults) ((k, textJson b) :: written)
      (Json.next k textOption? d >>= rest) a :=
  .plain hk (fun _ => faithful_option faithful_text fun s => ⟨s, rfl⟩) h

theorem tag [Tag β] [LawfulTag β] {b d : β} {rest : β → FieldReader α}
    (hk : field k = .plain) (h : FaithfulFields field defaults written (rest b) a) :
    FaithfulFields field ((k, tagJson d) :: defaults) ((k, tagJson b) :: written)
      (Json.next k tag? d >>= rest) a :=
  .plain hk faithful_tag h

theorem tagOption [Tag β] [LawfulTag β] {b d : Option β} {rest : Option β → FieldReader α}
    (hk : field k = .plain) (h : FaithfulFields field defaults written (rest b) a) :
    FaithfulFields field ((k, tagJson? d) :: defaults) ((k, tagJson? b) :: written)
      (Json.next k (option? tag?) d >>= rest) a :=
  .plain hk (fun _ => faithful_option faithful_tag fun b => ⟨Tag.name b, rfl⟩) h

theorem natUpTo {max b : Nat} {rest : Nat → FieldReader α} (hk : field k = .plain) (hb : b ≤ max)
    (hmax : max ≤ maxWord) (h : FaithfulFields field defaults written (rest b) a) :
    FaithfulFields field ((k, nat 0) :: defaults) ((k, nat b) :: written)
      (Json.next k (natUpTo? max) 0 >>= rest) a :=
  .next (hk ▸ faithful_natUpTo hmax hb) (hk ▸ faithful_natUpTo hmax (Nat.zero_le max)) h

theorem count {b : Nat} {rest : Nat → FieldReader α} (hk : field k = .plain)
    (hb : b < Nat.pow 2 64) (h : FaithfulFields field defaults written (rest b) a) :
    FaithfulFields field ((k, nat 0) :: defaults) ((k, nat b) :: written)
      (Json.next k count? 0 >>= rest) a :=
  .natUpTo hk (Nat.le_sub_one_of_lt hb) (by decide) h

theorem score {b : Nat} {rest : Nat → FieldReader α} (hk : field k = .plain)
    (hb : b < Nat.pow 2 32) (h : FaithfulFields field defaults written (rest b) a) :
    FaithfulFields field ((k, nat 0) :: defaults) ((k, nat b) :: written)
      (Json.next k score? 0 >>= rest) a :=
  .natUpTo hk (Nat.le_sub_one_of_lt hb) (by decide) h

/-- A list of records. -/
theorem list {shape : Shape} {read : Decoder β} {write : β → Json} {b : List β}
    {rest : List β → FieldReader α} (hk : field k = .list shape)
    (hb : ∀ x ∈ b, Faithful shape read write x)
    (h : FaithfulFields field defaults written (rest b) a) :
    FaithfulFields field ((k, .arr ([].map write)) :: defaults) ((k, .arr (b.map write)) :: written)
      (Json.next k (list? read) [] >>= rest) a :=
  .next (hk ▸ faithful_list hb) (hk ▸ faithful_list (by simp)) h

end FaithfulFields

end CodeAtlas.Json
