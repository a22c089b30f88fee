/-
  **The `u8` arithmetic of the storage layout** (`codegen/storage_layout.rs`).

  The layout once more, with every `u8` addition of the source checked.  Fewer than 32 bytes of
  the current slot are taken whenever a variable is placed, so no addition fails and the run is
  the one on natural numbers.  The wider counters, of slots and of bytes in all, stay natural
  numbers.
-/
import CambrianLang.Layout.Storage

namespace CambrianLang.Layout

open Ast Analysis

/-! ### The layout with checked additions -/

/-- `+` of `u8`. -/
def addU8 (a b : ℕ) : Option ℕ := if a + b < 256 then some (a + b) else none

/-- `used_in_slot > 0 && used_in_slot + size > 32`. -/
def Cursor.overflowsU8 (c : Cursor) (size : ℕ) : Option Bool :=
  if 0 < c.usedInSlot then (addU8 c.usedInSlot size).map fun total => decide (32 < total)
  else some false

/-- A value of `size` bytes shares the current slot where it fits. -/
def Cursor.valueU8 (c : Cursor) (size : ℕ) : Option Cursor := do
  let overflows ← c.overflowsU8 size
  let slot := if overflows then c.nextSlot + 1 else c.nextSlot
  let used ← addU8 (if overflows then 0 else c.usedInSlot) size
  if used = 32 then return ⟨slot + 1, 0, c.totalBytes + size⟩
  else return ⟨slot, used, c.totalBytes + size⟩

/-- The entry of a value. -/
def valueEntryU8 (c : Cursor) (name : String) (ty : Option Ty) (size : ℕ) : Option SlotInfo :=
  (c.overflowsU8 size).map fun overflows =>
    { name := name, ty := ty, slot := if overflows then c.nextSlot + 1 else c.nextSlot,
      offset := if overflows then 0 else c.usedInSlot, size := size, kind := .value }

section Checked

variable (entity : Entity) (deterministic : Bool) (programRecords : List Record)
  (programEnums : List EnumDecl)

/-- One round of the loop of `pack_record_fields`. -/
def packFieldU8 (packRecord : Record → ℕ → Option Cursor) (packEnum : EnumDecl → ℕ → Option Cursor)
    (c : Cursor) (ty : Ty) : Option Cursor :=
  match lookupRecord entity programRecords ty with
  | some nested => (packRecord nested c.freshSlot).map c.after
  | none =>
      match lookupPayloadEnum entity programEnums ty with
      | some en => (packEnum en c.freshSlot).map c.after
      | none =>
          if isMappingType ty || isDynamicArray ty then some c.ownSlot
          else c.valueU8 (valueNbytes entity programRecords programEnums ty)

/-- One round of the loops of `pack_payload_enum_fields`. -/
def packVariantFieldU8 (packRecord : Record → ℕ → Option Cursor) (c : Cursor) (ty : Ty) :
    Option Cursor :=
  match lookupRecord entity programRecords ty with
  | some nested => (packRecord nested c.freshSlot).map c.after
  | none => c.valueU8 (valueNbytes entity programRecords programEnums ty)

mutual
/-- `pack_record_fields`. -/
def packRecordFieldsU8 : ℕ → Record → ℕ → Option Cursor
  | 0, _, _ => none
  | fuel + 1, rec, startSlot =>
      (rec.fields.map (·.ty)).foldlM
        (packFieldU8 entity programRecords programEnums (packRecordFieldsU8 fuel)
          (packPayloadEnumFieldsU8 fuel))
        { nextSlot := startSlot, usedInSlot := 0, totalBytes := 0 }
/-- `pack_payload_enum_fields`. -/
def packPayloadEnumFieldsU8 : ℕ → EnumDecl → ℕ → Option Cursor
  | 0, _, _ => none
  | fuel + 1, decl, startSlot =>
      (variantFields decl).foldlM
        (packVariantFieldU8 entity programRecords programEnums (packRecordFieldsU8 fuel))
        { nextSlot := startSlot, usedInSlot := 1, totalBytes := 1 }
end

variable (fuel : ℕ)

/-- What packing a record or a payload enum comes to, if the type is one. -/
def packStructU8 (ty : Ty) (startSlot : ℕ) : Option (Option Cursor) :=
  match lookupRecord entity programRecords ty with
  | some rec => some (packRecordFieldsU8 entity programRecords programEnums fuel rec startSlot)
  | none =>
      (lookupPayloadEnum entity programEnums ty).map fun en =>
        packPayloadEnumFieldsU8 entity programRecords programEnums fuel en startSlot

/-- One round of the loop over the members. -/
def layoutMemberU8 (c : Cursor) (m : Member) : Option (Cursor × List SlotInfo) :=
  if m.isIdentity then some (c, [])
  else match packStructU8 entity programRecords programEnums fuel m.ty c.freshSlot with
    | some packed =>
        packed.map fun d =>
          (c.after d, [ownEntry c m.name (some m.ty) (min d.totalBytes 255) .struct])
    | none =>
        if isMappingType m.ty then
          if transformsUseExists entity.members m.name then
            some (c.ownSlot.ownSlot, [ownEntry c m.name (some m.ty) 32 .mapping,
              ownEntry c.ownSlot (m.name ++ "_exists") none 32 .mapping])
          else some (c.ownSlot, [ownEntry c m.name (some m.ty) 32 .mapping])
        else if isDynamicArray m.ty then
          some (c.ownSlot, [ownEntry c m.name (some m.ty) 32 .dynamicArray])
        else do
          let size := valueNbytes entity programRecords programEnums m.ty
          let entry ← valueEntryU8 c m.name (some m.ty) size
          let d ← c.valueU8 size
          return (d, [entry])

/-- The loop over the members. -/
def layoutMembersU8 (c : Cursor) : List Member → Option (Cursor × List SlotInfo)
  | [] => some (c, [])
  | m :: ms =>
      (layoutMemberU8 entity programRecords programEnums fuel c m).bind fun d =>
        (layoutMembersU8 d.1 ms).map fun r => (r.1, d.2 ++ r.2)

/-- `compute_layout_with_records`. -/
def computeLayoutU8 : Option (List SlotInfo) :=
  (layoutMembersU8 entity programRecords programEnums fuel
      { nextSlot := 0, usedInSlot := 0, totalBytes := 0 } entity.members).bind fun r =>
    if deterministic && hasNonIdentityInitParams entity then
      (valueEntryU8 r.1 "_initialized" (some (.simple "bool")) 1).map fun entry => r.2 ++ [entry]
    else some r.2

end Checked

/-! ### No addition fails -/

theorem addU8_of_lt {a b : ℕ} (h : a + b < 256) : addU8 a b = some (a + b) := if_pos h

/-- Where a variable is placed, and where it leaves off. -/
theorem Cursor.overflowsU8_eq {c : Cursor} {size : ℕ} (hc : c.usedInSlot < 32) (hsize : size ≤ 32) :
    c.overflowsU8 size = some (!c.fits size) := by
  have hsum : c.usedInSlot + size < 256 := by omega
  rw [Cursor.overflowsU8, Cursor.fits, Bool.not_not]
  by_cases hpos : 0 < c.usedInSlot
  · rw [if_pos hpos, addU8_of_lt hsum, Option.map_some, decide_eq_true hpos, Bool.true_and]
  · rw [if_neg hpos, decide_eq_false hpos, Bool.false_and]

theorem valueEntryU8_eq {c : Cursor} {size : ℕ} (hc : c.usedInSlot < 32) (hsize : size ≤ 32)
    (name : String) (ty : Option Ty) :
    valueEntryU8 c name ty size = some (valueEntry c name ty size) := by
  rw [valueEntryU8, Cursor.overflowsU8_eq hc hsize, Option.map_some, valueEntry, Cursor.valueSlot,
    Cursor.valueOffset]
  cases c.fits size <;> rfl

theorem Cursor.valueU8_eq {c : Cursor} {size : ℕ} (hc : c.usedInSlot < 32) (hsize : size ≤ 32) :
    c.valueU8 size = some (c.value size) := by
  have hsum : c.usedInSlot + size < 256 := by omega
  have hown : 0 + size < 256 := by omega
  rw [Cursor.valueU8, Cursor.overflowsU8_eq hc hsize, Cursor.value_eq, Cursor.valueSlot,
    Cursor.valueOffset]
  cases c.fits size with
  | true =>
    simp only [Option.bind_eq_bind, Option.bind_some, Bool.not_true, Bool.false_eq_true, if_false,
      if_true, addU8_of_lt hsum]
    split <;> rfl
  | false =>
    simp only [Option.bind_eq_bind, Option.bind_some, Bool.not_false, Bool.false_eq_true, if_false,
      if_true, addU8_of_lt hown]
    split <;> rfl

theorem Cursor.value_used {c : Cursor} {size : ℕ} (hc : c.usedInSlot < 32) (hsize : size ≤ 32) :
    (c.value size).usedInSlot < 32 :=
  (Cursor.value_addr hc hsize).1

section NoOverflow

variable {entity : Entity} {programRecords : List Record} {programEnums : List EnumDecl}
  {packRecord packRecordU8 : Record → ℕ → Option Cursor}
  {packEnum packEnumU8 : EnumDecl → ℕ → Option Cursor} {c d : Cursor} {ty : Ty}

theorem packFieldU8_eq (hrec : packRecordU8 = packRecord) (henum : packEnumU8 = packEnum)
    (hc : c.usedInSlot < 32) :
    packFieldU8 entity programRecords programEnums packRecordU8 packEnumU8 c ty =
      packField entity programRecords programEnums packRecord packEnum c ty := by
  subst hrec henum
  rewrite [packFieldU8, packField,
    Cursor.valueU8_eq hc (valueNbytes_bounds entity programRecords programEnums ty).2]
  cases lookupRecord entity programRecords ty with
  | some nested => rfl
  | none => cases lookupPayloadEnum entity programEnums ty <;> rfl

theorem packVariantFieldU8_eq (hrec : packRecordU8 = packRecord) (hc : c.usedInSlot < 32) :
    packVariantFieldU8 entity programRecords programEnums packRecordU8 c ty =
      packVariantField entity programRecords programEnums packRecord c ty := by
  subst hrec
  rewrite [packVariantFieldU8, packVariantField,
    Cursor.valueU8_eq hc (valueNbytes_bounds entity programRecords programEnums ty).2]
  cases lookupRecord entity programRecords ty <;> rfl

theorem packVariantField_used (hc : c.usedInSlot < 32)
    (h : packVariantField entity programRecords programEnums packRecord c ty = some d) :
    d.usedInSlot < 32 := by
  rw [packVariantField] at h
  cases hr : lookupRecord entity programRecords ty with
  | some nested =>
    rw [hr] at h
    obtain ⟨e, -, rfl⟩ := Option.map_eq_some_iff.mp h
    exact Nat.zero_lt_succ 31
  | none =>
    rw [hr] at h
    cases h
    exact Cursor.value_used hc (valueNbytes_bounds _ _ _ _).2

theorem packField_used (hc : c.usedInSlot < 32)
    (h : packField entity programRecords programEnums packRecord packEnum c ty = some d) :
    d.usedInSlot < 32 := by
  rw [packField] at h
  cases hr : lookupRecord entity programRecords ty with
  | some nested =>
    rw [hr] at h
    obtain ⟨e, -, rfl⟩ := Option.map_eq_some_iff.mp h
    exact Nat.zero_lt_succ 31
  | none =>
    rw [hr] at h
    cases hp : lookupPayloadEnum entity programEnums ty with
    | some en =>
      rw [hp] at h
      obtain ⟨e, -, rfl⟩ := Option.map_eq_some_iff.mp h
      exact Nat.zero_lt_succ 31
    | none =>
      rw [hp] at h
      by_cases hown : (isMappingType ty || isDynamicArray ty) = true
      · simp only [hown, if_true] at h
        cases h
        exact Nat.zero_lt_succ 31
      · simp only [hown] at h
        cases h
        exact Cursor.value_used hc (valueNbytes_bounds _ _ _ _).2

/-- Two loops that agree on the cursors that occur. -/
theorem foldlM_eq_of_used {f g : Cursor → Ty → Option Cursor}
    (hfg : ∀ c ty, c.usedInSlot < 32 → f c ty = g c ty)
    (hused : ∀ c ty d, c.usedInSlot < 32 → g c ty = some d → d.usedInSlot < 32) (tys : List Ty) :
    ∀ c : Cursor, c.usedInSlot < 32 → tys.foldlM f c = tys.foldlM g c := by
  induction tys with
  | nil => exact fun _ _ => rfl
  | cons ty tys ih =>
    intro c hc
    rw [List.foldlM_cons, List.foldlM_cons, hfg c ty hc]
    cases hstep : g c ty with
    | none => rfl
    | some d => exact ih d (hused c ty d hc hstep)

theorem packU8_eq (fuel : ℕ) :
    packRecordFieldsU8 entity programRecords programEnums fuel =
        packRecordFields entity programRecords programEnums fuel ∧
      packPayloadEnumFieldsU8 entity programRecords programEnums fuel =
        packPayloadEnumFields entity programRecords programEnums fuel := by
  induction fuel with
  | zero => exact ⟨rfl, rfl⟩
  | succ fuel ih =>
    obtain ⟨hrec, henum⟩ := ih
    constructor
    · funext rec s
      exact foldlM_eq_of_used (fun _ _ hc => packFieldU8_eq hrec henum hc)
        (fun _ _ _ hc h => packField_used hc h) _ ⟨s, 0, 0⟩ (Nat.zero_lt_succ 31)
    · funext decl s
      exact foldlM_eq_of_used (fun _ _ hc => packVariantFieldU8_eq hrec hc)
        (fun _ _ _ hc h => packVariantField_used hc h) _ ⟨s, 1, 1⟩
        (show 1 < 32 from Nat.one_lt_succ_succ 30)

theorem packStructU8_eq (fuel : ℕ) (ty : Ty) (s : ℕ) :
    packStructU8 entity programRecords programEnums fuel ty s =
      packStruct entity programRecords programEnums fuel ty s := by
  obtain ⟨hrec, henum⟩ := @packU8_eq entity programRecords programEnums fuel
  rewrite [packStructU8, packStruct, hrec, henum]
  cases lookupRecord entity programRecords ty <;> rfl

theorem layoutMemberU8_eq (fuel : ℕ) {m : Member} (hc : c.usedInSlot < 32) :
    layoutMemberU8 entity programRecords programEnums fuel c m =
      layoutMember entity programRecords programEnums fuel c m := by
  have hsize := (valueNbytes_bounds entity programRecords programEnums m.ty).2
  rw [layoutMemberU8, layoutMember, packStructU8_eq]
  simp only [Cursor.valueU8_eq hc hsize, valueEntryU8_eq hc hsize, Option.bind_eq_bind,
    Option.bind_some]
  rfl

theorem layoutMembersU8_eq (fuel : ℕ) (ms : List Member) : ∀ c : Cursor, c.usedInSlot < 32 →
    layoutMembersU8 entity programRecords programEnums fuel c ms =
      layoutMembers entity programRecords programEnums fuel c ms := by
  induction ms with
  | nil => exact fun _ _ => rfl
  | cons m ms ih =>
    intro c hc
    rw [layoutMembersU8, layoutMembers, layoutMemberU8_eq fuel hc]
    cases hstep : layoutMember entity programRecords programEnums fuel c m with
    | none => rfl
    | some r =>
      obtain ⟨cs, -, hplaces⟩ := places_layoutMember hc hstep
      rw [Option.bind_some, Option.bind_some, ih r.1 hplaces.1]

/-- **No `u8` addition of the layout overflows.** -/
theorem computeLayoutU8_eq (deterministic : Bool) (fuel : ℕ) :
    computeLayoutU8 entity deterministic programRecords programEnums fuel =
      computeLayoutWithRecords entity deterministic programRecords programEnums fuel := by
  rw [computeLayoutU8, computeLayoutWithRecords, layoutMembersU8_eq fuel _ _ (Nat.zero_lt_succ 31)]
  cases hloop : layoutMembers entity programRecords programEnums fuel ⟨0, 0, 0⟩ entity.members with
  | none => rfl
  | some r =>
    obtain ⟨css, -, hplaces⟩ := places_layoutMembers entity.members (Nat.zero_lt_succ 31) hloop
    rw [Option.bind_some, Option.map_some]
    by_cases hinit : (deterministic && hasNonIdentityInitParams entity) = true
    · rw [if_pos hinit, if_pos hinit, valueEntryU8_eq hplaces.1 (Nat.one_le_ofNat), Option.map_some]
    · rw [if_neg hinit, if_neg hinit, List.append_nil]

end NoOverflow

end CambrianLang.Layout
