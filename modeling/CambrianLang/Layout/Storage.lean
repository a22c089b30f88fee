/-
  **The computed storage layout** (`codegen/storage_layout.rs`).

  `compute_layout_with_records` keeps a cursor of a slot and the bytes used in it.
  Read as one address in bytes, every step of it lays the variable it counts behind
  the ones before, so the layout is the placement of the counted variables.
-/
import CambrianLang.Layout.Emitted

namespace CambrianLang.Layout

open Ast Analysis WordPacking

inductive SlotKind where
  | value
  | mapping
  | dynamicArray
  | struct
deriving DecidableEq

structure SlotInfo where
  name : String
  ty : Option Ty
  slot : ℕ
  offset : ℕ
  size : ℕ
  kind : SlotKind

/-- `used_in_slot + size` stays in the slot. -/
def Cursor.fits (c : Cursor) (size : ℕ) : Bool :=
  !(decide (0 < c.usedInSlot) && decide (32 < c.usedInSlot + size))

/-- The slot a value of `size` bytes goes to. -/
def Cursor.valueSlot (c : Cursor) (size : ℕ) : ℕ :=
  if c.fits size then c.nextSlot else c.nextSlot + 1

def Cursor.valueOffset (c : Cursor) (size : ℕ) : ℕ := if c.fits size then c.usedInSlot else 0

section Layout

variable (entity : Entity) (deterministic : Bool) (programRecords : List Record)
  (programEnums : List EnumDecl) (fuel : ℕ)

/-- The entry of a variable with slots of its own. -/
def ownEntry (c : Cursor) (name : String) (ty : Option Ty) (size : ℕ) (kind : SlotKind) : SlotInfo :=
  { name := name, ty := ty, slot := c.freshSlot, offset := 0, size := size, kind := kind }

/-- The entry of a value. -/
def valueEntry (c : Cursor) (name : String) (ty : Option Ty) (size : ℕ) : SlotInfo :=
  { name := name, ty := ty, slot := c.valueSlot size, offset := c.valueOffset size, size := size,
    kind := .value }

/-- What packing a record or a payload enum comes to, if the type is one. -/
def packStruct (ty : Ty) (startSlot : ℕ) : Option (Option Cursor) :=
  match lookupRecord entity programRecords ty with
  | some rec => some (packRecordFields entity programRecords programEnums fuel rec startSlot)
  | none =>
      (lookupPayloadEnum entity programEnums ty).map fun en =>
        packPayloadEnumFields entity programRecords programEnums fuel en startSlot

/-- One round of the loop over the members: the cursor behind the member and its entries. -/
def layoutMember (c : Cursor) (m : Member) : Option (Cursor × List SlotInfo) :=
  if m.isIdentity then some (c, [])
  else match packStruct entity programRecords programEnums fuel m.ty c.freshSlot with
    | some packed =>
        packed.map fun d =>
          (c.after d, [ownEntry c m.name (some m.ty) (min d.totalBytes 255) .struct])
    | none =>
        if isMappingType m.ty then
          if transformsUseExists entity.members m.name then
            some (c.ownSlot.ownSlot, [ownEntry c m.name (some m.ty) 32 .mapping,
              ownEntry c.ownSlot (m.name ++ "_exists") none 32 .mapping])
          else some (c.ownSlot, [ownEntry c m.name (some m.ty) 32 .mapping])
        else if isDynamicArray m.ty then
          some (c.ownSlot, [ownEntry c m.name (some m.ty) 32 .dynamicArray])
        else
          let size := valueNbytes entity programRecords programEnums m.ty
          some (c.value size, [valueEntry c m.name (some m.ty) size])

/-- The loop over the members. -/
def layoutMembers (c : Cursor) : List Member → Option (Cursor × List SlotInfo)
  | [] => some (c, [])
  | m :: ms =>
      (layoutMember entity programRecords programEnums fuel c m).bind fun d =>
        (layoutMembers d.1 ms).map fun r => (r.1, d.2 ++ r.2)

/-- `compute_layout_with_records`. -/
def computeLayoutWithRecords : Option (List SlotInfo) :=
  (layoutMembers entity programRecords programEnums fuel
      { nextSlot := 0, usedInSlot := 0, totalBytes := 0 } entity.members).map fun r =>
    r.2 ++ if deterministic && hasNonIdentityInitParams entity then
      [valueEntry r.1 "_initialized" (some (.simple "bool")) 1] else []

/-! ### The counted variables -/

/-- The sizes and rooms that go with a kind of entry. -/
inductive Counts : SlotKind → ℕ → Room → Prop
  | value {size : ℕ} : 0 < size → size ≤ 32 → Counts .value size (.part size)
  | mapping : Counts .mapping 32 (.words 1)
  | dynamicArray : Counts .dynamicArray 32 (.words 1)
  | struct (size slots : ℕ) : Counts .struct size (.words slots)

/-- A variable as the layout counts it. -/
structure Counted where
  name : String
  ty : Option Ty
  kind : SlotKind
  size : ℕ
  room : Room
  counts : Counts kind size room

end Layout

theorem solValueNbytes_bounds {ty : Ty} {size : ℕ} (h : solValueNbytes ty = some size) :
    0 < size ∧ size ≤ 32 := by
  cases ty with
  | simple name =>
    simp only [solValueNbytes] at h
    split_ifs at h <;> cases h <;> decide
  | generic name params =>
    simp only [solValueNbytes] at h
    split_ifs at h
    cases h
    decide
  | tuple | typedAddress =>
    cases h
    decide

theorem valueNbytes_bounds (entity : Entity) (programRecords : List Record)
    (programEnums : List EnumDecl) (ty : Ty) :
    0 < valueNbytes entity programRecords programEnums ty ∧
      valueNbytes entity programRecords programEnums ty ≤ 32 := by
  rw [valueNbytes]
  split
  · decide
  · split
    · split <;> decide
    · cases hsize : solValueNbytes ty with
      | none => decide
      | some size => exact solValueNbytes_bounds hsize

section Counting

variable (entity : Entity) (deterministic : Bool) (programRecords : List Record)
  (programEnums : List EnumDecl) (fuel : ℕ)

/-- A value of a number of bytes that fits a slot. -/
def countedBytes (name : String) (ty : Ty) (size : ℕ) (hsize : 0 < size ∧ size ≤ 32) : Counted where
  name := name
  ty := some ty
  kind := .value
  size := size
  room := .part size
  counts := .value hsize.1 hsize.2

def countedValue (name : String) (ty : Ty) : Counted :=
  countedBytes name ty _ (valueNbytes_bounds entity programRecords programEnums ty)

def countedMapping (name : String) (ty : Option Ty) : Counted where
  name := name
  ty := ty
  kind := .mapping
  size := 32
  room := .words 1
  counts := .mapping

def countedArray (name : String) (ty : Ty) : Counted where
  name := name
  ty := some ty
  kind := .dynamicArray
  size := 32
  room := .words 1
  counts := .dynamicArray

/-- A struct whose fields, packed from an empty slot, leave the cursor at `d`. -/
def countedStruct (name : String) (ty : Ty) (d : Cursor) : Counted where
  name := name
  ty := some ty
  kind := .struct
  size := min d.totalBytes 255
  room := .words d.freshSlot
  counts := .struct _ _

/-- The variables that the layout counts for one member. -/
def countedMember (m : Member) : Option (List Counted) :=
  if m.isIdentity then some []
  else match packStruct entity programRecords programEnums fuel m.ty 0 with
    | some packed => packed.map fun d => [countedStruct m.name m.ty d]
    | none =>
        if isMappingType m.ty then
          some (countedMapping m.name (some m.ty) ::
            if transformsUseExists entity.members m.name then
              [countedMapping (m.name ++ "_exists") none] else [])
        else if isDynamicArray m.ty then some [countedArray m.name m.ty]
        else some [countedValue entity programRecords programEnums m.name m.ty]

def initializedCounted : List Counted :=
  if deterministic && hasNonIdentityInitParams entity then
    [countedBytes "_initialized" (.simple "bool") 1 ⟨Nat.one_pos, by decide⟩] else []

/-- The variables that the layout counts. -/
def countedVariables : Option (List Counted) :=
  (entity.members.mapM (countedMember entity programRecords programEnums fuel)).map fun css =>
    css.flatten ++ initializedCounted entity deterministic

end Counting

/-! ### Packing does not depend on the slot it starts in -/

def Cursor.shift (k : ℕ) (c : Cursor) : Cursor := { c with nextSlot := c.nextSlot + k }

theorem Cursor.freshSlot_shift (k : ℕ) (c : Cursor) : (c.shift k).freshSlot = c.freshSlot + k := by
  rw [Cursor.freshSlot, Cursor.freshSlot]
  by_cases hused : 0 < c.usedInSlot
  · rw [if_pos hused, if_pos (show 0 < (c.shift k).usedInSlot from hused)]
    exact Nat.add_right_comm c.nextSlot k 1
  · rw [if_neg hused, if_neg (show ¬ 0 < (c.shift k).usedInSlot from hused)]
    rfl

theorem Cursor.map_after_shift (k : ℕ) (c : Cursor) (x : Option Cursor) :
    (x.map (Cursor.shift k)).map (c.shift k).after = (x.map c.after).map (Cursor.shift k) := by
  cases x with
  | none => rfl
  | some d =>
    rw [Option.map_some, Option.map_some, Option.map_some, Option.map_some, Cursor.after,
      Cursor.freshSlot_shift]
    rfl

theorem Cursor.ownSlot_shift (k : ℕ) (c : Cursor) : (c.shift k).ownSlot = c.ownSlot.shift k := by
  rw [Cursor.ownSlot, Cursor.freshSlot_shift, Nat.add_right_comm]
  rfl

theorem Cursor.value_eq (c : Cursor) (size : ℕ) :
    c.value size =
      if c.valueOffset size + size = 32 then ⟨c.valueSlot size + 1, 0, c.totalBytes + size⟩
      else ⟨c.valueSlot size, c.valueOffset size + size, c.totalBytes + size⟩ := rfl

theorem Cursor.valueSlot_shift (k : ℕ) (c : Cursor) (size : ℕ) :
    (c.shift k).valueSlot size = c.valueSlot size + k := by
  rw [Cursor.valueSlot, Cursor.valueSlot]
  by_cases hfit : c.fits size = true
  · rw [if_pos hfit, if_pos (show (c.shift k).fits size = true from hfit)]
    rfl
  · rw [if_neg hfit, if_neg (show ¬ (c.shift k).fits size = true from hfit)]
    exact Nat.add_right_comm c.nextSlot k 1

theorem Cursor.value_shift (k : ℕ) (c : Cursor) (size : ℕ) :
    (c.shift k).value size = (c.value size).shift k := by
  have hoffset : (c.shift k).valueOffset size = c.valueOffset size := rfl
  rw [Cursor.value_eq, Cursor.value_eq, Cursor.valueSlot_shift, hoffset]
  split
  · rw [Nat.add_right_comm]
    rfl
  · rfl

section Shift

variable {entity : Entity} {programRecords : List Record} {programEnums : List EnumDecl}
  {packRecord : Record → ℕ → Option Cursor} {packEnum : EnumDecl → ℕ → Option Cursor}

theorem packField_shift (k : ℕ)
    (hrec : ∀ r s, packRecord r (s + k) = (packRecord r s).map (Cursor.shift k))
    (henum : ∀ e s, packEnum e (s + k) = (packEnum e s).map (Cursor.shift k)) (c : Cursor) (ty : Ty) :
    packField entity programRecords programEnums packRecord packEnum (c.shift k) ty =
      (packField entity programRecords programEnums packRecord packEnum c ty).map (Cursor.shift k) := by
  rw [packField, packField]
  cases lookupRecord entity programRecords ty with
  | some nested =>
    simp only [Cursor.freshSlot_shift, hrec, Cursor.map_after_shift]
  | none =>
    cases lookupPayloadEnum entity programEnums ty with
    | some en => simp only [Cursor.freshSlot_shift, henum, Cursor.map_after_shift]
    | none =>
      simp only [Cursor.ownSlot_shift, Cursor.value_shift]
      split <;> rfl

theorem packVariantField_shift (k : ℕ)
    (hrec : ∀ r s, packRecord r (s + k) = (packRecord r s).map (Cursor.shift k)) (c : Cursor) (ty : Ty) :
    packVariantField entity programRecords programEnums packRecord (c.shift k) ty =
      (packVariantField entity programRecords programEnums packRecord c ty).map (Cursor.shift k) := by
  rw [packVariantField, packVariantField]
  cases lookupRecord entity programRecords ty with
  | some nested =>
    simp only [Cursor.freshSlot_shift, hrec, Cursor.map_after_shift]
  | none => exact congrArg some (Cursor.value_shift k c _)

theorem foldlM_shift (k : ℕ) {f : Cursor → Ty → Option Cursor}
    (hf : ∀ c ty, f (c.shift k) ty = (f c ty).map (Cursor.shift k)) (c : Cursor) (tys : List Ty) :
    tys.foldlM f (c.shift k) = (tys.foldlM f c).map (Cursor.shift k) := by
  induction tys generalizing c with
  | nil => rfl
  | cons ty tys ih =>
    rw [List.foldlM_cons, List.foldlM_cons, hf]
    cases f c ty with
    | none => rfl
    | some d => exact ih d

theorem pack_shift (k fuel : ℕ) :
    (∀ r s, packRecordFields entity programRecords programEnums fuel r (s + k) =
      (packRecordFields entity programRecords programEnums fuel r s).map (Cursor.shift k)) ∧
    ∀ e s, packPayloadEnumFields entity programRecords programEnums fuel e (s + k) =
      (packPayloadEnumFields entity programRecords programEnums fuel e s).map (Cursor.shift k) := by
  induction fuel with
  | zero => exact ⟨fun _ _ => rfl, fun _ _ => rfl⟩
  | succ fuel ih =>
    obtain ⟨hrec, henum⟩ := ih
    exact ⟨fun r s => foldlM_shift k (packField_shift k hrec henum) ⟨s, 0, 0⟩ _,
      fun e s => foldlM_shift k (packVariantField_shift k hrec) ⟨s, 1, 1⟩ _⟩

theorem packStruct_shift (fuel : ℕ) (ty : Ty) (s : ℕ) :
    packStruct entity programRecords programEnums fuel ty s =
      (packStruct entity programRecords programEnums fuel ty 0).map (Option.map (Cursor.shift s)) := by
  obtain ⟨hrec, henum⟩ := @pack_shift entity programRecords programEnums s fuel
  rw [packStruct, packStruct]
  cases lookupRecord entity programRecords ty with
  | some rec =>
    have hshift := hrec rec 0
    rw [Nat.zero_add] at hshift
    exact congrArg some hshift
  | none =>
    rw [Option.map_map]
    refine congrArg (Option.map · _) (funext fun en => ?_)
    have hshift := henum en 0
    rw [Nat.zero_add] at hshift
    exact hshift

end Shift

/-! ### The cursor as an address -/

namespace Cursor

/-- The first byte that is not taken. -/
def addr (c : Cursor) : ℕ := 32 * c.nextSlot + c.usedInSlot

theorem alignUp_addr {c : Cursor} (hc : c.usedInSlot < 32) :
    alignUp 32 c.addr = 32 * c.freshSlot := by
  rw [alignUp, addr, freshSlot]
  split <;> omega

theorem valueOffset_add_le (c : Cursor) {size : ℕ} (hsize : size ≤ 32) :
    c.valueOffset size + size ≤ 32 := by
  rw [valueOffset, fits]
  grind

theorem start_value {c : Cursor} (hc : c.usedInSlot < 32) (size : ℕ) :
    (Room.part size).start 32 c.addr = 32 * c.valueSlot size + c.valueOffset size := by
  have hmod : c.addr % 32 = c.usedInSlot := by
    rw [addr]
    omega
  by_cases hfit : c.usedInSlot + size ≤ 32
  · have hfits : c.fits size = true := by
      rw [fits]
      grind
    rw [Room.start, hmod, if_pos hfit, valueSlot, valueOffset, if_pos hfits, if_pos hfits, addr]
  · by_cases hused : 0 < c.usedInSlot
    · have hfits : ¬ c.fits size = true := by
        rw [fits]
        grind
      rw [Room.start, hmod, if_neg hfit, alignUp_addr hc, freshSlot, if_pos hused, valueSlot,
        valueOffset, if_neg hfits, if_neg hfits]
      rfl
    · have hfits : c.fits size = true := by
        rw [fits]
        grind
      rw [Room.start, hmod, if_neg hfit, alignUp_addr hc, freshSlot, if_neg hused, valueSlot,
        valueOffset, if_pos hfits, if_pos hfits, Nat.eq_zero_of_not_pos hused, Nat.add_zero]

theorem value_addr {c : Cursor} (hc : c.usedInSlot < 32) {size : ℕ} (hsize : size ≤ 32) :
    (c.value size).usedInSlot < 32 ∧ (c.value size).addr = (Room.part size).next 32 c.addr := by
  have hoffset := valueOffset_add_le c hsize
  rw [Room.next, start_value hc size, Room.size, value_eq]
  by_cases hfull : c.valueOffset size + size = 32
  · rw [if_pos hfull, addr]
    exact ⟨Nat.zero_lt_succ 31, by simp only; omega⟩
  · rw [if_neg hfull, addr]
    exact ⟨by simp only; omega, by simp only; omega⟩

theorem ownSlot_addr {c : Cursor} (hc : c.usedInSlot < 32) :
    c.ownSlot.addr = (Room.words 1).next 32 c.addr := by
  rw [Room.next, Room.start, alignUp_addr hc, Room.size, addr, ownSlot]
  simp only
  omega

theorem after_addr {c : Cursor} (hc : c.usedInSlot < 32) (d : Cursor) :
    (c.after (d.shift c.freshSlot)).addr = (Room.words d.freshSlot).next 32 c.addr := by
  rw [Room.next, Room.start, alignUp_addr hc, Room.size, addr, after, freshSlot_shift]
  simp only
  omega

theorem start_own {c : Cursor} (hc : c.usedInSlot < 32) (count : ℕ) :
    (Room.words count).start 32 c.addr = 32 * c.freshSlot := alignUp_addr hc

end Cursor

/-! ### The layout places the counted variables -/

/-- The entry of a counted variable that begins at a byte. -/
def Counted.entry (x : Counted × ℕ) : SlotInfo :=
  { name := x.1.name, ty := x.1.ty, slot := x.2 / 32, offset := x.2 % 32, size := x.1.size,
    kind := x.1.kind }

def placedEntries (p : ℕ) (cs : List Counted) : List SlotInfo :=
  (layOut 32 Counted.room p cs).map Counted.entry

theorem placedEntries_append (p : ℕ) (cs ds : List Counted) :
    placedEntries p (cs ++ ds) =
      placedEntries p cs ++ placedEntries (advance 32 Counted.room p cs) ds := by
  rw [placedEntries, layOut_append, List.map_append]
  rfl

/-- What a step of the loop does: it goes on behind the variables it counts and enters each of
them at its place. -/
def Places (c d : Cursor) (entries : List SlotInfo) (cs : List Counted) : Prop :=
  d.usedInSlot < 32 ∧ d.addr = advance 32 Counted.room c.addr cs ∧ entries = placedEntries c.addr cs

theorem places_struct {c : Cursor} (hc : c.usedInSlot < 32) (name : String) (ty : Ty) (d : Cursor) :
    Places c (c.after (d.shift c.freshSlot))
      [ownEntry c name (some ty) (min (d.shift c.freshSlot).totalBytes 255) .struct]
      [countedStruct name ty d] := by
  refine ⟨Nat.zero_lt_succ 31, Cursor.after_addr hc d, ?_⟩
  have hstart := Cursor.start_own hc d.freshSlot
  simp only [placedEntries, layOut, countedStruct, List.map_cons, List.map_nil, Counted.entry, hstart,
    Nat.mul_div_cancel_left c.freshSlot (Nat.zero_lt_succ 31), Nat.mul_mod_right]
  rfl

theorem places_bytes {c : Cursor} (hc : c.usedInSlot < 32) (name : String) (ty : Ty) (size : ℕ)
    (hsize : 0 < size ∧ size ≤ 32) :
    Places c (c.value size) [valueEntry c name (some ty) size] [countedBytes name ty size hsize] := by
  obtain ⟨hused, haddr⟩ := Cursor.value_addr hc hsize.2
  refine ⟨hused, haddr, ?_⟩
  have hstart := Cursor.start_value hc size
  have hoffset := Cursor.valueOffset_add_le c hsize.2
  have hlt : c.valueOffset size < 32 := by omega
  have hdiv : (32 * c.valueSlot size + c.valueOffset size) / 32 = c.valueSlot size := by omega
  have hmod : (32 * c.valueSlot size + c.valueOffset size) % 32 = c.valueOffset size := by omega
  simp only [placedEntries, layOut, countedBytes, List.map_cons, List.map_nil, Counted.entry, hstart,
    hdiv, hmod]
  rfl

theorem places_own {c : Cursor} (hc : c.usedInSlot < 32) (x : Counted) (hroom : x.room = .words 1) :
    Places c c.ownSlot [ownEntry c x.name x.ty x.size x.kind] [x] := by
  have hnext : c.ownSlot.addr = x.room.next 32 c.addr := by
    rw [hroom]
    exact Cursor.ownSlot_addr hc
  refine ⟨Nat.zero_lt_succ 31, hnext, ?_⟩
  have hstart : x.room.start 32 c.addr = 32 * c.freshSlot := by
    rw [hroom]
    exact Cursor.start_own hc 1
  simp only [placedEntries, layOut, List.map_cons, List.map_nil, Counted.entry, hstart,
    Nat.mul_div_cancel_left c.freshSlot (Nat.zero_lt_succ 31), Nat.mul_mod_right]
  rfl

theorem Places.append {c d e : Cursor} {xs ys : List SlotInfo} {cs ds : List Counted}
    (hcd : Places c d xs cs) (hde : Places d e ys ds) : Places c e (xs ++ ys) (cs ++ ds) := by
  obtain ⟨-, haddr, rfl⟩ := hcd
  obtain ⟨hused, haddr', rfl⟩ := hde
  refine ⟨hused, ?_, ?_⟩
  · rw [haddr', haddr, advance_append]
  · rw [haddr, placedEntries_append]

section Steps

variable {entity : Entity} {programRecords : List Record} {programEnums : List EnumDecl} {fuel : ℕ}

/-- One round of the loop. -/
theorem places_layoutMember {c d : Cursor} (hc : c.usedInSlot < 32) {m : Member}
    {entries : List SlotInfo}
    (h : layoutMember entity programRecords programEnums fuel c m = some (d, entries)) :
    ∃ cs, countedMember entity programRecords programEnums fuel m = some cs ∧
      Places c d entries cs := by
  rw [layoutMember, packStruct_shift] at h
  rw [countedMember]
  by_cases hid : m.isIdentity = true
  · rw [if_pos hid] at h ⊢
    cases h
    exact ⟨[], rfl, hc, rfl, rfl⟩
  rw [if_neg hid] at h ⊢
  cases hpack : packStruct entity programRecords programEnums fuel m.ty 0 with
  | some packed =>
    rw [hpack] at h
    cases packed with
    | none => cases h
    | some packed =>
      cases h
      exact ⟨_, rfl, places_struct hc m.name m.ty packed⟩
  | none =>
    rw [hpack] at h
    simp only [Option.map_none] at h ⊢
    by_cases hmap : isMappingType m.ty = true
    · rw [if_pos hmap] at h ⊢
      have hown := places_own hc (countedMapping m.name (some m.ty)) rfl
      by_cases hexists : transformsUseExists entity.members m.name = true
      · rw [if_pos hexists] at h ⊢
        cases h
        have hused : c.ownSlot.usedInSlot < 32 := hown.1
        exact ⟨_, rfl, hown.append (places_own hused (countedMapping (m.name ++ "_exists") none) rfl)⟩
      · rw [if_neg hexists] at h ⊢
        cases h
        exact ⟨_, rfl, hown⟩
    · rw [if_neg hmap] at h ⊢
      by_cases harray : isDynamicArray m.ty = true
      · rw [if_pos harray] at h ⊢
        cases h
        exact ⟨_, rfl, places_own hc (countedArray m.name m.ty) rfl⟩
      · rw [if_neg harray] at h ⊢
        cases h
        exact ⟨_, rfl, places_bytes hc m.name m.ty _ (valueNbytes_bounds _ _ _ _)⟩

/-- The whole loop. -/
theorem places_layoutMembers (ms : List Member) : ∀ {c d : Cursor}, c.usedInSlot < 32 →
    ∀ {entries : List SlotInfo},
      layoutMembers entity programRecords programEnums fuel c ms = some (d, entries) →
      ∃ css, ms.mapM (countedMember entity programRecords programEnums fuel) = some css ∧
        Places c d entries css.flatten := by
  induction ms with
  | nil =>
    intro c d hc entries h
    cases h
    exact ⟨[], rfl, hc, rfl, rfl⟩
  | cons m ms ih =>
    intro c d hc entries h
    obtain ⟨⟨c', first⟩, hstep, hrest⟩ := Option.bind_eq_some_iff.mp h
    obtain ⟨⟨d', rest⟩, hloop, heq⟩ := Option.map_eq_some_iff.mp hrest
    cases heq
    obtain ⟨cs, hcs, hplaces⟩ := places_layoutMember hc hstep
    obtain ⟨css, hcss, hplaces'⟩ := ih hplaces.1 hloop
    refine ⟨cs :: css, ?_, hplaces.append hplaces'⟩
    rw [List.mapM_cons, hcs, hcss]
    rfl

variable {deterministic : Bool}

/-- **The computed layout is the placement of the counted variables from slot 0 on.** -/
theorem computeLayout_eq_placed {layout : List SlotInfo}
    (h : computeLayoutWithRecords entity deterministic programRecords programEnums fuel = some layout) :
    ∃ counted, countedVariables entity deterministic programRecords programEnums fuel = some counted ∧
      layout = placedEntries 0 counted := by
  obtain ⟨⟨d, entries⟩, hloop, rfl⟩ := Option.map_eq_some_iff.mp h
  obtain ⟨css, hcss, hplaces⟩ := places_layoutMembers entity.members (Nat.zero_lt_succ 31) hloop
  refine ⟨css.flatten ++ initializedCounted entity deterministic, ?_, ?_⟩
  · rw [countedVariables, hcss]
    rfl
  · rw [initializedCounted]
    by_cases hinit : (deterministic && hasNonIdentityInitParams entity) = true
    · rw [if_pos hinit, if_pos hinit]
      exact (hplaces.append (places_bytes hplaces.1 "_initialized" (.simple "bool") 1 _)).2.2
    · rw [if_neg hinit, if_neg hinit, List.append_nil, List.append_nil]
      exact hplaces.2.2

end Steps

end CambrianLang.Layout
