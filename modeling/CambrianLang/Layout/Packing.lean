/-
  **Packing of records and payload enums into storage slots**
  (`codegen/storage_layout.rs`).

  `pack_record_fields` and `pack_payload_enum_fields` call each other on the types
  of the fields they meet and have no bound of their own; here they take fuel and
  return `none` when it runs out.  Packing a type ends exactly when no cycle of
  `Unfolds` is reached from it.
-/
import CambrianLang.Ast.Entity
import CambrianLang.Lib.Unfolding

namespace CambrianLang.Layout

open Ast Unfolding Relation

/-! ### Lookups -/

/-- `lookup_record`. -/
def lookupRecord (entity : Entity) (programRecords : List Record) : Ty → Option Record
  | .simple name =>
      (entity.records.find? (·.name == name)).or (programRecords.find? (·.name == name))
  | _ => none

/-- `lookup_enum`. -/
def lookupEnum (entity : Entity) (programEnums : List EnumDecl) : Ty → Option EnumDecl
  | .simple name =>
      (entity.enums.find? (·.name == name)).or (programEnums.find? (·.name == name))
  | _ => none

def isPayloadEnum (decl : EnumDecl) : Bool := decl.variants.any fun v => !v.fields.isEmpty

/-- `lookup_enum` followed by `is_payload_enum`. -/
def lookupPayloadEnum (entity : Entity) (programEnums : List EnumDecl) (ty : Ty) : Option EnumDecl :=
  (lookupEnum entity programEnums ty).filter isPayloadEnum

def isMappingType : Ty → Bool
  | .generic name _ => name == "HashMap"
  | _ => false

def isDynamicArray : Ty → Bool
  | .generic name _ => name == "Vec" || name == "array"
  | _ => false

/-- `sol_value_nbytes`. -/
def solValueNbytes : Ty → Option Nat
  | .simple name =>
      if ["bool", "u8", "i8", "uint8", "int8", "bytes1"].contains name then some 1
      else if ["u16", "i16", "uint16", "int16", "bytes2"].contains name then some 2
      else if ["u32", "i32", "uint32", "int32", "bytes4"].contains name then some 4
      else if ["u64", "i64", "uint64", "int64", "bytes8"].contains name then some 8
      else if ["u128", "i128", "uint128", "int128", "bytes16"].contains name then some 16
      else if name == "address" then some 20
      else some 32
  | .typedAddress _ => some 20
  | .generic name _ => if name == "HashMap" || name == "Vec" || name == "array" then none else some 32
  | .tuple _ => some 32

/-- `value_nbytes`. -/
def valueNbytes (entity : Entity) (programRecords : List Record) (programEnums : List EnumDecl)
    (ty : Ty) : Nat :=
  if (lookupRecord entity programRecords ty).isSome then 32
  else match lookupEnum entity programEnums ty with
    | some en => if isPayloadEnum en then 32 else 1
    | none => (solValueNbytes ty).getD 32

/-! ### The cursor -/

/-- `next_slot`, `used_in_slot` and `total_bytes`. -/
structure Cursor where
  nextSlot : Nat
  usedInSlot : Nat
  totalBytes : Nat
deriving DecidableEq

/-- The first slot nothing has been put in. -/
def Cursor.freshSlot (c : Cursor) : Nat := if 0 < c.usedInSlot then c.nextSlot + 1 else c.nextSlot

/-- Go on behind a nested struct. -/
def Cursor.after (c nested : Cursor) : Cursor :=
  { nextSlot := nested.freshSlot, usedInSlot := 0, totalBytes := c.totalBytes + nested.totalBytes }

/-- A mapping or a dynamic array takes a slot of its own. -/
def Cursor.ownSlot (c : Cursor) : Cursor :=
  { nextSlot := c.freshSlot + 1, usedInSlot := 0, totalBytes := c.totalBytes + 32 }

/-- A value of `size` bytes shares the current slot where it fits. -/
def Cursor.value (c : Cursor) (size : Nat) : Cursor :=
  let fits := !(decide (0 < c.usedInSlot) && decide (32 < c.usedInSlot + size))
  let slot := if fits then c.nextSlot else c.nextSlot + 1
  let used := (if fits then c.usedInSlot else 0) + size
  if used = 32 then { nextSlot := slot + 1, usedInSlot := 0, totalBytes := c.totalBytes + size }
  else { nextSlot := slot, usedInSlot := used, totalBytes := c.totalBytes + size }

/-! ### Packing -/

section Packing

variable (entity : Entity) (programRecords : List Record) (programEnums : List EnumDecl)

/-- One round of the loop of `pack_record_fields`. -/
def packField (packRecord : Record → Nat → Option Cursor) (packEnum : EnumDecl → Nat → Option Cursor)
    (c : Cursor) (ty : Ty) : Option Cursor :=
  match lookupRecord entity programRecords ty with
  | some nested => (packRecord nested c.freshSlot).map c.after
  | none =>
      match lookupPayloadEnum entity programEnums ty with
      | some en => (packEnum en c.freshSlot).map c.after
      | none =>
          if isMappingType ty || isDynamicArray ty then some c.ownSlot
          else some (c.value (valueNbytes entity programRecords programEnums ty))

/-- One round of the loops of `pack_payload_enum_fields`. -/
def packVariantField (packRecord : Record → Nat → Option Cursor) (c : Cursor) (ty : Ty) :
    Option Cursor :=
  match lookupRecord entity programRecords ty with
  | some nested => (packRecord nested c.freshSlot).map c.after
  | none => some (c.value (valueNbytes entity programRecords programEnums ty))

/-- The fields of all variants, in the order of the two loops. -/
def variantFields (decl : EnumDecl) : List Ty := decl.variants.flatMap (·.fields)

mutual
/-- `pack_record_fields`. -/
def packRecordFields : Nat → Record → Nat → Option Cursor
  | 0, _, _ => none
  | fuel + 1, rec, startSlot =>
      (rec.fields.map (·.ty)).foldlM
        (packField entity programRecords programEnums (packRecordFields fuel)
          (packPayloadEnumFields fuel))
        { nextSlot := startSlot, usedInSlot := 0, totalBytes := 0 }
/-- `pack_payload_enum_fields`: the tag takes the first byte. -/
def packPayloadEnumFields : Nat → EnumDecl → Nat → Option Cursor
  | 0, _, _ => none
  | fuel + 1, decl, startSlot =>
      (variantFields decl).foldlM
        (packVariantField entity programRecords programEnums (packRecordFields fuel))
        { nextSlot := startSlot, usedInSlot := 1, totalBytes := 1 }
end

/-- What the layout does with a member of a type, and a record with a field of it. -/
def packType (fuel : Nat) (c : Cursor) (ty : Ty) : Option Cursor :=
  packField entity programRecords programEnums
    (packRecordFields entity programRecords programEnums fuel)
    (packPayloadEnumFields entity programRecords programEnums fuel) c ty

/-- Packing a value of the first name goes on to pack one of the second. -/
inductive Unfolds : String → String → Prop
  | record {a b : String} {rec : Record}
      (ha : lookupRecord entity programRecords (.simple a) = some rec)
      (hb : Ty.simple b ∈ rec.fields.map (·.ty))
      (hnamed : (lookupRecord entity programRecords (.simple b)).isSome = true ∨
        (lookupPayloadEnum entity programEnums (.simple b)).isSome = true) : Unfolds a b
  | payload {a b : String} {decl : EnumDecl}
      (hrec : lookupRecord entity programRecords (.simple a) = none)
      (ha : lookupPayloadEnum entity programEnums (.simple a) = some decl)
      (hb : Ty.simple b ∈ variantFields decl)
      (hnamed : (lookupRecord entity programRecords (.simple b)).isSome = true) : Unfolds a b

/-! ### Fuel only matters when it runs out -/

theorem packField_mono {packRecord packRecord' : Record → Nat → Option Cursor}
    {packEnum packEnum' : EnumDecl → Nat → Option Cursor}
    (hrec : ∀ r s c, packRecord r s = some c → packRecord' r s = some c)
    (henum : ∀ e s c, packEnum e s = some c → packEnum' e s = some c) {c d : Cursor} {ty : Ty}
    (h : packField entity programRecords programEnums packRecord packEnum c ty = some d) :
    packField entity programRecords programEnums packRecord' packEnum' c ty = some d := by
  rw [packField] at h ⊢
  cases hr : lookupRecord entity programRecords ty with
  | some nested =>
    rw [hr] at h
    obtain ⟨e, he, hd⟩ := Option.map_eq_some_iff.mp h
    exact Option.map_eq_some_iff.mpr ⟨e, hrec _ _ _ he, hd⟩
  | none =>
    rw [hr] at h
    cases hp : lookupPayloadEnum entity programEnums ty with
    | some en =>
      rw [hp] at h
      obtain ⟨e, he, hd⟩ := Option.map_eq_some_iff.mp h
      exact Option.map_eq_some_iff.mpr ⟨e, henum _ _ _ he, hd⟩
    | none =>
      rw [hp] at h
      exact h

theorem packVariantField_mono {packRecord packRecord' : Record → Nat → Option Cursor}
    (hrec : ∀ r s c, packRecord r s = some c → packRecord' r s = some c) {c d : Cursor} {ty : Ty}
    (h : packVariantField entity programRecords programEnums packRecord c ty = some d) :
    packVariantField entity programRecords programEnums packRecord' c ty = some d := by
  rw [packVariantField] at h ⊢
  cases hr : lookupRecord entity programRecords ty with
  | some nested =>
    rw [hr] at h
    obtain ⟨e, he, hd⟩ := Option.map_eq_some_iff.mp h
    exact Option.map_eq_some_iff.mpr ⟨e, hrec _ _ _ he, hd⟩
  | none =>
    rw [hr] at h
    exact h

theorem pack_mono (fuel : Nat) :
    (∀ r s c, packRecordFields entity programRecords programEnums fuel r s = some c →
      packRecordFields entity programRecords programEnums (fuel + 1) r s = some c) ∧
    ∀ e s c, packPayloadEnumFields entity programRecords programEnums fuel e s = some c →
      packPayloadEnumFields entity programRecords programEnums (fuel + 1) e s = some c := by
  induction fuel with
  | zero => exact ⟨fun _ _ _ h => (nomatch h), fun _ _ _ h => (nomatch h)⟩
  | succ fuel ih =>
    obtain ⟨hrec, henum⟩ := ih
    constructor
    · intro r s c h
      rw [packRecordFields] at h ⊢
      exact foldlM_eq_some_mono (fun _ _ _ => packField_mono _ _ _ hrec henum) h
    · intro e s c h
      rw [packPayloadEnumFields] at h ⊢
      exact foldlM_eq_some_mono (fun _ _ _ => packVariantField_mono _ _ _ hrec) h

theorem packType_mono (fuel : Nat) (c : Cursor) (ty : Ty) (d : Cursor)
    (h : packType entity programRecords programEnums fuel c ty = some d) :
    packType entity programRecords programEnums (fuel + 1) c ty = some d :=
  packField_mono _ _ _ (pack_mono _ _ _ fuel).1 (pack_mono _ _ _ fuel).2 h

/-! ### Termination -/

/-- Packing a type ends, wherever it starts. -/
def PackTerminates (ty : Ty) : Prop :=
  ∀ c, ∃ fuel, (packType entity programRecords programEnums fuel c ty).isSome = true

theorem eq_simple_of_lookupRecord {ty : Ty} {r : Record}
    (h : lookupRecord entity programRecords ty = some r) : ∃ b, ty = .simple b := by
  cases ty with
  | simple b => exact ⟨b, rfl⟩
  | generic _ _ => cases h
  | tuple _ => cases h
  | typedAddress _ => cases h

theorem eq_simple_of_lookupPayloadEnum {ty : Ty} {e : EnumDecl}
    (h : lookupPayloadEnum entity programEnums ty = some e) : ∃ b, ty = .simple b := by
  cases ty with
  | simple b => exact ⟨b, rfl⟩
  | generic _ _ => cases h
  | tuple _ => cases h
  | typedAddress _ => cases h

/-- A type that names no record and no payload enum is packed at once. -/
theorem packTerminates_of_unnamed {ty : Ty} (hr : lookupRecord entity programRecords ty = none)
    (hp : lookupPayloadEnum entity programEnums ty = none) :
    PackTerminates entity programRecords programEnums ty := by
  intro c
  refine ⟨0, ?_⟩
  rw [packType, packField, hr, hp]
  by_cases hm : (isMappingType ty || isDynamicArray ty) = true
  · rw [if_pos hm]
    rfl
  · rw [if_neg hm]
    rfl

variable {entity programRecords programEnums}

theorem packTerminates_record {ty : Ty} {rec : Record}
    (hr : lookupRecord entity programRecords ty = some rec)
    (h : ∀ fty ∈ rec.fields.map (·.ty), PackTerminates entity programRecords programEnums fty) :
    PackTerminates entity programRecords programEnums ty := by
  intro c
  obtain ⟨fuel, hfuel⟩ := exists_foldlM (packType_mono entity programRecords programEnums) h
    { nextSlot := c.freshSlot, usedInSlot := 0, totalBytes := 0 }
  refine ⟨fuel + 1, ?_⟩
  rw [packType, packField, hr, Option.isSome_map, packRecordFields]
  exact hfuel

theorem packTerminates_payload {ty : Ty} {decl : EnumDecl}
    (hr : lookupRecord entity programRecords ty = none)
    (hp : lookupPayloadEnum entity programEnums ty = some decl)
    (h : ∀ fty ∈ variantFields decl, (lookupRecord entity programRecords fty).isSome = true →
      PackTerminates entity programRecords programEnums fty) :
    PackTerminates entity programRecords programEnums ty := by
  intro c
  have hstep : ∀ fty ∈ variantFields decl, ∀ c, ∃ fuel,
      (packVariantField entity programRecords programEnums
        (packRecordFields entity programRecords programEnums fuel) c fty).isSome = true := by
    intro fty hfty c
    cases hf : lookupRecord entity programRecords fty with
    | none => exact ⟨0, by rw [packVariantField, hf]; rfl⟩
    | some nested =>
      obtain ⟨fuel, hfuel⟩ := h fty hfty (by rw [hf]; rfl) c
      refine ⟨fuel, ?_⟩
      rw [packType, packField, hf] at hfuel
      rw [packVariantField, hf]
      exact hfuel
  have hmono : ∀ fuel c fty d, packVariantField entity programRecords programEnums
        (packRecordFields entity programRecords programEnums fuel) c fty = some d →
      packVariantField entity programRecords programEnums
        (packRecordFields entity programRecords programEnums (fuel + 1)) c fty = some d :=
    fun fuel _ _ _ => packVariantField_mono _ _ _ (pack_mono _ _ _ fuel).1
  obtain ⟨fuel, hfuel⟩ := exists_foldlM hmono hstep
    { nextSlot := c.freshSlot, usedInSlot := 1, totalBytes := 1 }
  refine ⟨fuel + 1, ?_⟩
  rw [packType, packField, hr, hp, Option.isSome_map, packPayloadEnumFields]
  exact hfuel

theorem packTerminates_of_acc {a : String}
    (h : Acc (fun b a => Unfolds entity programRecords programEnums a b) a) :
    PackTerminates entity programRecords programEnums (.simple a) := by
  induction h with
  | intro a _ ih =>
    cases hr : lookupRecord entity programRecords (.simple a) with
    | some rec =>
      refine packTerminates_record hr fun fty hfty => ?_
      cases hfr : lookupRecord entity programRecords fty with
      | some nested =>
        obtain ⟨b, rfl⟩ := eq_simple_of_lookupRecord _ _ hfr
        exact ih b (.record hr hfty (Or.inl (by rw [hfr]; rfl)))
      | none =>
        cases hfp : lookupPayloadEnum entity programEnums fty with
        | some en =>
          obtain ⟨b, rfl⟩ := eq_simple_of_lookupPayloadEnum _ _ hfp
          exact ih b (.record hr hfty (Or.inr (by rw [hfp]; rfl)))
        | none => exact packTerminates_of_unnamed _ _ _ hfr hfp
    | none =>
      cases hp : lookupPayloadEnum entity programEnums (.simple a) with
      | none => exact packTerminates_of_unnamed _ _ _ hr hp
      | some decl =>
        refine packTerminates_payload hr hp fun fty hfty hfr => ?_
        obtain ⟨nested, hn⟩ := Option.isSome_iff_exists.mp hfr
        obtain ⟨b, rfl⟩ := eq_simple_of_lookupRecord _ _ hn
        exact ih b (.payload hr hp hfty hfr)

theorem acc_of_packType (fuel : Nat) : ∀ (c : Cursor) (a : String),
    (packType entity programRecords programEnums fuel c (.simple a)).isSome = true →
    Acc (fun b a => Unfolds entity programRecords programEnums a b) a := by
  induction fuel with
  | zero =>
    intro c a h
    refine Acc.intro a fun b hb => ?_
    cases hb with
    | record ha _ _ =>
      rw [packType, packField, ha] at h
      cases h
    | payload hrec ha _ _ =>
      rw [packType, packField, hrec, ha] at h
      cases h
  | succ fuel ih =>
    intro c a h
    refine Acc.intro a fun b hb => ?_
    cases hb with
    | record ha hb _ =>
      rw [packType, packField, ha, Option.isSome_map, packRecordFields] at h
      obtain ⟨d, hd⟩ := isSome_of_foldlM h _ hb
      exact ih d b hd
    | payload hrec ha hb hnamed =>
      rw [packType, packField, hrec, ha, Option.isSome_map, packPayloadEnumFields] at h
      obtain ⟨d, hd⟩ := isSome_of_foldlM h _ hb
      refine ih d b ?_
      obtain ⟨nested, hn⟩ := Option.isSome_iff_exists.mp hnamed
      rw [packVariantField, hn] at hd
      rw [packType, packField, hn]
      exact hd

variable (entity programRecords programEnums) in
/-- The names packing can start from. -/
def declaredNames : List String :=
  (entity.records ++ programRecords).map Record.name ++ (entity.enums ++ programEnums).map EnumDecl.name

theorem mem_declaredNames {a b : String} (h : Unfolds entity programRecords programEnums a b) :
    a ∈ declaredNames entity programRecords programEnums := by
  rw [declaredNames, List.mem_append, List.mem_map, List.mem_map]
  cases h with
  | @record rec ha _ _ =>
    refine Or.inl ⟨rec, ?_⟩
    rw [List.mem_append]
    rcases Option.or_eq_some_iff.mp ha with hf | ⟨-, hf⟩
    · exact ⟨Or.inl (List.mem_of_find?_eq_some hf), by simpa using List.find?_some hf⟩
    · exact ⟨Or.inr (List.mem_of_find?_eq_some hf), by simpa using List.find?_some hf⟩
  | @payload decl _ ha _ _ =>
    refine Or.inr ⟨decl, ?_⟩
    rw [List.mem_append]
    rcases Option.or_eq_some_iff.mp (Option.filter_eq_some_iff.mp ha).1 with hf | ⟨-, hf⟩
    · exact ⟨Or.inl (List.mem_of_find?_eq_some hf), by simpa using List.find?_some hf⟩
    · exact ⟨Or.inr (List.mem_of_find?_eq_some hf), by simpa using List.find?_some hf⟩

/-- **Packing ends on every type exactly when `Unfolds` has no cycle.** -/
theorem packTerminates_iff_acyclic :
    (∀ ty, PackTerminates entity programRecords programEnums ty) ↔
      ∀ a, ¬ TransGen (Unfolds entity programRecords programEnums) a a := by
  constructor
  · intro h a
    obtain ⟨fuel, hfuel⟩ := h (.simple a) { nextSlot := 0, usedInSlot := 0, totalBytes := 0 }
    exact not_transGen_of_acc (acc_of_packType fuel _ a hfuel)
  · intro hacyc ty
    cases ty with
    | simple a => exact packTerminates_of_acc (acc_of_acyclic (fun _ _ => mem_declaredNames) hacyc a)
    | generic _ _ => exact packTerminates_of_unnamed _ _ _ rfl rfl
    | tuple _ => exact packTerminates_of_unnamed _ _ _ rfl rfl
    | typedAddress _ => exact packTerminates_of_unnamed _ _ _ rfl rfl

end Packing

end CambrianLang.Layout
