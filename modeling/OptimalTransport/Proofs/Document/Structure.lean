import Mathlib.Data.List.Forall2
import Mathlib.Data.List.Nodup
import OptimalTransport.Document

namespace OptimalTransport.Document

variable {α : Type}

abbrev Form (α : Type) :=
  Document α → Prop

def exactly (x : Document α) : Form α :=
  fun d => d = x

theorem forall_exactly {β : Type} {x : Document α} {decode : Document α → Option β} {b : β}
    (h : decode x = some b) : ∀ d, exactly x d → decode d = some b := by
  rintro _ rfl
  exact h

inductive Named (name : String) : Form α
  | text : Named name (.text name)
  | record : Named name (.record [(name, .null)])

abbrev Filled (parts : List (String × Form α)) (fields : List (String × Document α)) : Prop :=
  List.Forall₂ (fun part field => field.1 = part.1 ∧ part.2 field.2) parts fields

/-- The documents of a structure that has fields of certain names, of which some are shown. In a
record they may stand in any order, and a list cannot leave out a field before another. -/
inductive Structure (names : List String) (parts : List (String × Form α)) : Form α
  | record {fields unknown all : List (String × Document α)} (hfilled : Filled parts fields)
      (hunknown : ∀ x ∈ unknown, x.1 ∉ names) (hall : all.Perm (fields ++ unknown)) :
      Structure names parts (.record all)
  | list {fields : List (String × Document α)} (hfilled : Filled parts fields)
      (hstart : parts.map Prod.fst <+: names) :
      Structure names parts (.list (fields.map Prod.snd))

namespace Filled

variable {parts : List (String × Form α)} {fields : List (String × Document α)}

theorem map_fst (h : Filled parts fields) : fields.map Prod.fst = parts.map Prod.fst := by
  induction h with
  | nil => rfl
  | cons hx _ ih => rw [List.map_cons, List.map_cons, hx.1, ih]

theorem exists_mem (h : Filled parts fields) {part : String × Form α} (hpart : part ∈ parts) :
    ∃ x, (part.1, x) ∈ fields ∧ part.2 x := by
  induction h with
  | nil => cases hpart
  | @cons p x ps xs hx _ ih =>
    rcases List.mem_cons.mp hpart with rfl | hpart
    · exact ⟨x.2, hx.1 ▸ List.mem_cons_self, hx.2⟩
    · obtain ⟨y, hy, hform⟩ := ih hpart
      exact ⟨y, List.mem_cons_of_mem _ hy, hform⟩

end Filled

theorem lookup_eq_some_of_unique {fields : List (String × Document α)} {name : String}
    {x : Document α} (hx : (name, x) ∈ fields) (hunique : ∀ y, (name, y) ∈ fields → y = x) :
    fields.lookup name = some x := by
  cases h : fields.lookup name with
  | none =>
    have hne := List.lookup_eq_none_iff.mp h _ hx
    simp at hne
  | some y =>
    obtain ⟨before, after, rfl, -⟩ := List.lookup_eq_some_iff.mp h
    rw [hunique y (List.mem_append_right _ List.mem_cons_self)]

structure Found (names : List String) (parts : List (String × Form α))
    (fields : List (String × Document α)) : Prop where
  present : ∀ part ∈ parts, ∃ x, fields.lookup part.1 = some x ∧ part.2 x
  absent : ∀ name ∈ names, name ∉ parts.map Prod.fst → fields.lookup name = none

variable {names : List String} {parts : List (String × Form α)}

theorem Filled.found {fields unknown all : List (String × Document α)} (h : Filled parts fields)
    (hnames : names.Nodup) (hparts : (parts.map Prod.fst).Sublist names)
    (hunknown : ∀ x ∈ unknown, x.1 ∉ names) (hall : all.Perm (fields ++ unknown)) :
    Found names parts all := by
  -- Unknown names may repeat, so names are unique among the known ones only.
  have hmem : ∀ {name x}, name ∈ names → ((name, x) ∈ all ↔ (name, x) ∈ fields) := by
    intro name x hname
    rw [hall.mem_iff, List.mem_append]
    exact or_iff_left fun hx => hunknown _ hx hname
  have hnodup : (fields.map Prod.fst).Nodup := h.map_fst ▸ hnames.sublist hparts
  constructor
  · intro part hpart
    have hname : part.1 ∈ names := hparts.subset (List.mem_map_of_mem hpart)
    obtain ⟨x, hx, hform⟩ := h.exists_mem hpart
    refine ⟨x, lookup_eq_some_of_unique ((hmem hname).mpr hx) fun y hy => ?_, hform⟩
    exact congrArg Prod.snd (List.inj_on_of_nodup_map hnodup ((hmem hname).mp hy) hx rfl)
  · intro name hname hmissing
    refine List.lookup_eq_none_iff.mpr fun x hx => ?_
    simp only [bne_iff_ne, ne_eq]
    rintro rfl
    have hfield : x ∈ fields := (hmem hname).mp hx
    exact hmissing (h.map_fst ▸ List.mem_map_of_mem hfield)

theorem zip_map_snd {fields : List (String × Document α)} (h : fields.map Prod.fst <+: names) :
    names.zip (fields.map Prod.snd) = fields := by
  obtain ⟨rest, rfl⟩ := h
  induction fields with
  | nil => exact List.zip_nil_right
  | cons x xs ih => exact congrArg (x :: ·) ih

namespace Structure

variable {d : Document α}

theorem exists_fields (h : Structure names parts d) (hnames : names.Nodup)
    (hparts : (parts.map Prod.fst).Sublist names) :
    ∃ fields, d.fields? names = some fields ∧ Found names parts fields := by
  cases h with
  | record hfilled hunknown hall => exact ⟨_, rfl, hfilled.found hnames hparts hunknown hall⟩
  | @list fields hfilled hstart =>
    have hfields : fields.map Prod.fst <+: names := hfilled.map_fst ▸ hstart
    have hlength : (fields.map Prod.snd).length ≤ names.length := by
      simpa only [List.length_map] using hfields.length_le
    refine ⟨fields, ?_, hfilled.found hnames hparts (List.forall_mem_nil _)
      (.of_eq (List.append_nil _).symm)⟩
    rw [fields?, if_pos hlength, zip_map_snd hfields]

theorem of_record {fields : List (String × Document α)} (h : Filled parts fields) :
    Structure names parts (.record fields) :=
  .record h (List.forall_mem_nil _) (.of_eq (List.append_nil _).symm)

end Structure

namespace Found

variable {fields : List (String × Document α)} {name : String} {form : Form α} {β : Type}
  {decode : Document α → Option β} {b : β}

theorem required_eq (h : Found names parts fields) (hpart : (name, form) ∈ parts)
    (hdecode : ∀ x, form x → decode x = some b) : required fields name decode = some b := by
  obtain ⟨x, hx, hform⟩ := h.present _ hpart
  rw [required, hx]
  exact hdecode x hform

theorem required_exactly {x : Document α} (h : Found names parts fields)
    (hpart : (name, exactly x) ∈ parts) (hdecode : decode x = some b) :
    required fields name decode = some b :=
  h.required_eq hpart (forall_exactly hdecode)

theorem defaulted_eq {keep : String → Bool}
    (h : Found names (parts.filter fun part => keep part.1) fields) (hname : name ∈ names)
    (hpart : (name, form) ∈ parts) (hdecode : ∀ x, form x → decode x = some b) (default : β) :
    defaulted fields name decode default = some (if keep name then b else default) := by
  rw [defaulted]
  cases hkeep : keep name with
  | true =>
    obtain ⟨x, hx, hform⟩ := h.present (name, form) (List.mem_filter.mpr ⟨hpart, hkeep⟩)
    rw [hx]
    exact hdecode x hform
  | false =>
    have hdropped : name ∉ (parts.filter fun part => keep part.1).map Prod.fst := by
      intro hmem
      obtain ⟨part, hkept, rfl⟩ := List.mem_map.mp hmem
      have htrue : keep part.1 = true := (List.mem_filter.mp hkept).2
      exact absurd (hkeep.symm.trans htrue) Bool.false_ne_true
    rw [h.absent name hname hdropped]
    rfl

end Found

theorem nat?_ofNat (k : Nat) : nat? (ofNat k : Document α) = some k := by
  rw [ofNat, nat?, if_pos (Int.natCast_nonneg k), Int.toNat_natCast]

theorem items?_map {β : Type} {encode : β → Document α} {decode : Document α → Option β}
    {xs : List β} (h : ∀ x ∈ xs, decode (encode x) = some x) :
    items? decode (.list (xs.map encode)) = some xs := by
  rw [items?]
  induction xs with
  | nil => rfl
  | cons x xs ih =>
    obtain ⟨hx, hxs⟩ := List.forall_mem_cons.mp h
    rw [List.map_cons, List.mapM_cons, hx, Option.bind_eq_bind, Option.bind_some, ih hxs]
    rfl

structure Choice {β : Type} (all : List β) (name : β → String) : Prop where
  complete : ∀ b, b ∈ all
  distinct : (all.map name).Nodup

namespace Choice

variable {β : Type} {all : List β} {name : β → String}

theorem find?_name (h : Choice all name) (b : β) : all.find? (name · == name b) = some b := by
  cases hfound : all.find? (name · == name b) with
  | none => exact absurd (List.find?_eq_none.mp hfound b (h.complete b)) (by simp)
  | some c =>
    have hc : (name c == name b) = true := List.find?_some (p := (name · == name b)) hfound
    exact congrArg some (List.inj_on_of_nodup_map h.distinct (h.complete c) (h.complete b)
      (beq_iff_eq.mp hc))

theorem choice?_of_named (h : Choice all name) {b : β} {d : Document α} (hd : Named (name b) d) :
    choice? all name d = some b := by
  cases hd with
  | text => exact h.find?_name b
  | record => exact h.find?_name b

end Choice

variable [Scalar α]

theorem scalar?_ofScalar {x : α} (h : Scalar.isFinite x) : scalar? (ofScalar x) = some x := by
  rw [ofScalar, if_pos h, scalar?]

theorem scalars?_ofScalars {xs : List α} (h : ∀ x ∈ xs, Scalar.isFinite x) :
    scalars? (ofScalars xs) = some xs :=
  items?_map fun x hx => scalar?_ofScalar (h x hx)

end OptimalTransport.Document
