/-
  **Which entries of the storage layout have their slot to themselves**
  (`codegen/storage_layout.rs`).

  The variables of a layout follow each other without overlap, and a value stays in one slot.
  `is_exclusive` takes every struct to be alone in its slot.  That holds except for a record
  without anything in it: it takes no slot, and the next variable begins where it does.
-/
import CambrianLang.Layout.Agreement
import CambrianLang.Layout.ByteArithmetic
import CambrianLang.Lib.UniqueMatch

namespace CambrianLang.Layout

open Ast MapM UniqueMatch
open WordPacking

/-! ### Entries -/

/-- `SlotInfo::occupies_full_slot`. -/
def SlotInfo.occupiesFullSlot (info : SlotInfo) : Bool := info.size == 32 || info.kind == .struct

/-- `StorageLayout::is_exclusive`. -/
def isExclusive (layout : List SlotInfo) (info : SlotInfo) : Bool :=
  info.occupiesFullSlot || info.kind == .struct ||
    (layout.filter fun other => other.slot == info.slot).length == 1

/-- The first byte of an entry. -/
def SlotInfo.start (info : SlotInfo) : ℕ := 32 * info.slot + info.offset

section Extents

variable (entity : Entity) (deterministic : Bool) (programRecords : List Record)
  (programEnums : List EnumDecl) (fuel : ℕ)

/-- The slots that the fields of a record or a payload enum are packed into. -/
def structSlots (ty : Option Ty) : ℕ :=
  match ty.bind fun ty => packStruct entity programRecords programEnums fuel ty 0 with
  | some (some d) => d.freshSlot
  | _ => 0

/-- The bytes an entry takes: a struct takes its slots whole. -/
def SlotInfo.extent (info : SlotInfo) : ℕ :=
  if info.kind = .struct then 32 * structSlots entity programRecords programEnums fuel info.ty
  else info.size

/-- A byte of storage belongs to an entry. -/
def SlotInfo.Covers (info : SlotInfo) (byte : ℕ) : Prop :=
  info.start ≤ byte ∧ byte < info.start + info.extent entity programRecords programEnums fuel

/-- What a layout promises. -/
structure LayoutSound (layout : List SlotInfo) : Prop where
  disjoint : layout.Pairwise fun a b => ∀ byte,
    ¬ (a.Covers entity programRecords programEnums fuel byte ∧
      b.Covers entity programRecords programEnums fuel byte)
  /-- The bytes an entry reports are among those it takes. -/
  reported : ∀ info ∈ layout, info.size ≤ info.extent entity programRecords programEnums fuel
  within : ∀ info ∈ layout, info.kind = .value → info.offset + info.size ≤ 32
  ordered : layout.Pairwise fun a b => a.slot ≤ b.slot
  /-- The additions of `u8` all succeed. -/
  bytes : computeLayoutU8 entity deterministic programRecords programEnums fuel = some layout
  /-- The slot of an exclusive entry is its own, and so is every byte in it. -/
  exclusive : ∀ (i j : ℕ) (info other : SlotInfo), layout[i]? = some info →
    isExclusive layout info = true → layout[j]? = some other → j ≠ i →
      other.slot ≠ info.slot ∧
        ∀ byte, other.Covers entity programRecords programEnums fuel byte → byte / 32 ≠ info.slot

/-- A record that stores nothing: its fields are such records. -/
inductive Hollow : Ty → Prop
  | record {ty : Ty} {rec : Record} (hrec : lookupRecord entity programRecords ty = some rec)
      (hfields : ∀ fty ∈ rec.fields.map (·.ty), Hollow fty) : Hollow ty

/-- A member that stores nothing comes before another variable. -/
def HollowBeforeAnother : Prop :=
  ∃ pre m post, entity.members = pre ++ m :: post ∧ m.isIdentity = false ∧
    Hollow entity programRecords m.ty ∧
    ((∃ n ∈ post, n.isIdentity = false) ∨ (deterministic && hasNonIdentityInitParams entity) = true)

end Extents

/-! ### Packing from an empty slot -/

section Packed

variable {entity : Entity} {programRecords : List Record} {programEnums : List EnumDecl}

/-- The bytes counted so far are bytes taken so far. -/
structure Cursor.Grown (s : ℕ) (c : Cursor) : Prop where
  used : c.usedInSlot < 32
  counted : c.totalBytes + 32 * s ≤ c.addr

theorem Cursor.Grown.value {s : ℕ} {c : Cursor} (h : c.Grown s) {size : ℕ} (hsize : size ≤ 32) :
    (c.value size).Grown s := by
  obtain ⟨hused, haddr⟩ := Cursor.value_addr h.used hsize
  have hstart : c.addr ≤ (Room.part size).start 32 c.addr := le_start (Nat.zero_lt_succ 31) c.addr _
  have htotal : (c.value size).totalBytes = c.totalBytes + size := by
    rw [Cursor.value_eq]
    split <;> rfl
  refine ⟨hused, ?_⟩
  have hcounted := h.counted
  rw [haddr, htotal, Room.next, Room.size]
  omega

theorem Cursor.Grown.ownSlot {s : ℕ} {c : Cursor} (h : c.Grown s) : c.ownSlot.Grown s := by
  have hstart := le_alignUp (Nat.zero_lt_succ 31) c.addr
  have hcounted := h.counted
  rw [Cursor.alignUp_addr h.used] at hstart
  refine ⟨Nat.zero_lt_succ 31, ?_⟩
  show c.totalBytes + 32 + 32 * s ≤ 32 * (c.freshSlot + 1) + 0
  omega

/-- Behind a nested struct the cursor is at the slot the struct leaves free. -/
theorem Cursor.Grown.after {s : ℕ} {c d : Cursor} (h : c.Grown s) (hd : d.Grown c.freshSlot) :
    (c.after d).Grown s := by
  have hstart := le_alignUp (Nat.zero_lt_succ 31) c.addr
  have hend := le_alignUp (Nat.zero_lt_succ 31) d.addr
  have hcounted := h.counted
  have hnested := hd.counted
  rw [Cursor.alignUp_addr h.used] at hstart
  rw [Cursor.alignUp_addr hd.used] at hend
  refine ⟨Nat.zero_lt_succ 31, ?_⟩
  show c.totalBytes + d.totalBytes + 32 * s ≤ 32 * d.freshSlot + 0
  omega

theorem grown_packVariantField {packRecord : Record → ℕ → Option Cursor}
    (hrec : ∀ r s d, packRecord r s = some d → d.Grown s) {s : ℕ} {c d : Cursor} {ty : Ty}
    (hc : c.Grown s)
    (h : packVariantField entity programRecords programEnums packRecord c ty = some d) : d.Grown s := by
  rw [packVariantField] at h
  cases hr : lookupRecord entity programRecords ty with
  | some nested =>
    rw [hr] at h
    obtain ⟨e, he, rfl⟩ := Option.map_eq_some_iff.mp h
    exact hc.after (hrec _ _ _ he)
  | none =>
    rw [hr] at h
    cases h
    exact hc.value (valueNbytes_bounds _ _ _ _).2

theorem grown_packField {packRecord : Record → ℕ → Option Cursor}
    {packEnum : EnumDecl → ℕ → Option Cursor} (hrec : ∀ r s d, packRecord r s = some d → d.Grown s)
    (henum : ∀ e s d, packEnum e s = some d → d.Grown s) {s : ℕ} {c d : Cursor} {ty : Ty}
    (hc : c.Grown s)
    (h : packField entity programRecords programEnums packRecord packEnum c ty = some d) :
    d.Grown s := by
  rw [packField] at h
  cases hr : lookupRecord entity programRecords ty with
  | some nested =>
    rw [hr] at h
    obtain ⟨e, he, rfl⟩ := Option.map_eq_some_iff.mp h
    exact hc.after (hrec _ _ _ he)
  | none =>
    rw [hr] at h
    cases hp : lookupPayloadEnum entity programEnums ty with
    | some en =>
      rw [hp] at h
      obtain ⟨e, he, rfl⟩ := Option.map_eq_some_iff.mp h
      exact hc.after (henum _ _ _ he)
    | none =>
      rw [hp] at h
      by_cases hown : (isMappingType ty || isDynamicArray ty) = true
      · simp only [hown, if_true] at h
        cases h
        exact hc.ownSlot
      · simp only [hown] at h
        cases h
        exact hc.value (valueNbytes_bounds _ _ _ _).2

theorem grown_foldlM {f : Cursor → Ty → Option Cursor} {s : ℕ}
    (hf : ∀ c ty d, c.Grown s → f c ty = some d → d.Grown s) (tys : List Ty) :
    ∀ {c d : Cursor}, c.Grown s → tys.foldlM f c = some d → d.Grown s := by
  induction tys with
  | nil =>
    intro c d hc h
    cases h
    exact hc
  | cons ty tys ih =>
    intro c d hc h
    rw [List.foldlM_cons] at h
    obtain ⟨e, he, hrest⟩ := Option.bind_eq_some_iff.mp h
    exact ih (hf c ty e hc he) hrest

theorem grown_pack (fuel : ℕ) :
    (∀ r s d, packRecordFields entity programRecords programEnums fuel r s = some d → d.Grown s) ∧
      ∀ e s d, packPayloadEnumFields entity programRecords programEnums fuel e s = some d →
        d.Grown s := by
  induction fuel with
  | zero => exact ⟨fun _ _ _ h => (nomatch h), fun _ _ _ h => (nomatch h)⟩
  | succ fuel ih =>
    obtain ⟨hrec, henum⟩ := ih
    constructor
    · intro r s d h
      refine grown_foldlM (fun _ _ _ => grown_packField hrec henum) _ (c := ⟨s, 0, 0⟩) ?_ h
      exact ⟨Nat.zero_lt_succ 31, by simp only [Cursor.addr]; omega⟩
    · intro e s d h
      refine grown_foldlM (fun _ _ _ => grown_packVariantField hrec) _ (c := ⟨s, 1, 1⟩) ?_ h
      exact ⟨by simp only; omega, by simp only [Cursor.addr]; omega⟩

theorem grown_packStruct {fuel : ℕ} {ty : Ty} {s : ℕ} {d : Cursor}
    (h : packStruct entity programRecords programEnums fuel ty s = some (some d)) : d.Grown s := by
  obtain ⟨hrec, henum⟩ := @grown_pack entity programRecords programEnums fuel
  rw [packStruct] at h
  cases hr : lookupRecord entity programRecords ty with
  | some rec =>
    rw [hr] at h
    exact hrec _ _ _ (Option.some.inj h)
  | none =>
    rw [hr] at h
    obtain ⟨en, -, hen⟩ := Option.map_eq_some_iff.mp h
    exact henum _ _ _ hen

/-! ### A struct takes no slot exactly when it is hollow -/

theorem Cursor.freshSlot_le_value {c : Cursor} {size : ℕ} (hpos : 0 < size) :
    c.freshSlot ≤ (c.value size).freshSlot ∧
      (c.usedInSlot = 0 → (c.value size).freshSlot = c.freshSlot + 1) := by
  rw [Cursor.value_eq, Cursor.valueOffset, Cursor.valueSlot, Cursor.fits, Cursor.freshSlot,
    Cursor.freshSlot]
  grind

theorem Cursor.Grown.le_freshSlot {s : ℕ} {c : Cursor} (h : c.Grown s) : s ≤ c.freshSlot := by
  have hend := le_alignUp (Nat.zero_lt_succ 31) c.addr
  have hcounted := h.counted
  rw [Cursor.alignUp_addr h.used] at hend
  omega

theorem freshSlot_le_packVariantField {fuel : ℕ} {c d : Cursor} {ty : Ty}
    (h : packVariantField entity programRecords programEnums
      (packRecordFields entity programRecords programEnums fuel) c ty = some d) :
    c.freshSlot ≤ d.freshSlot := by
  rw [packVariantField] at h
  cases hr : lookupRecord entity programRecords ty with
  | some nested =>
    rw [hr] at h
    obtain ⟨e, he, rfl⟩ := Option.map_eq_some_iff.mp h
    exact ((grown_pack fuel).1 _ _ _ he).le_freshSlot
  | none =>
    rw [hr] at h
    cases h
    exact (Cursor.freshSlot_le_value (valueNbytes_bounds _ _ _ _).1).1

theorem freshSlot_le_packType {fuel : ℕ} {c d : Cursor} {ty : Ty}
    (h : packType entity programRecords programEnums fuel c ty = some d) :
    c.freshSlot ≤ d.freshSlot := by
  rw [packType, packField] at h
  cases hr : lookupRecord entity programRecords ty with
  | some nested =>
    rw [hr] at h
    obtain ⟨e, he, rfl⟩ := Option.map_eq_some_iff.mp h
    exact ((grown_pack fuel).1 _ _ _ he).le_freshSlot
  | none =>
    rw [hr] at h
    cases hp : lookupPayloadEnum entity programEnums ty with
    | some en =>
      rw [hp] at h
      obtain ⟨e, he, rfl⟩ := Option.map_eq_some_iff.mp h
      exact ((grown_pack fuel).2 _ _ _ he).le_freshSlot
    | none =>
      rw [hp] at h
      by_cases hown : (isMappingType ty || isDynamicArray ty) = true
      · simp only [hown, if_true] at h
        cases h
        exact Nat.le_succ c.freshSlot
      · simp only [hown] at h
        cases h
        exact (Cursor.freshSlot_le_value (valueNbytes_bounds _ _ _ _).1).1

theorem freshSlot_le_foldlM {f : Cursor → Ty → Option Cursor}
    (hf : ∀ c ty d, f c ty = some d → c.freshSlot ≤ d.freshSlot) (tys : List Ty) :
    ∀ {c d : Cursor}, tys.foldlM f c = some d → c.freshSlot ≤ d.freshSlot := by
  induction tys with
  | nil =>
    intro c d h
    cases h
    exact Nat.le_refl _
  | cons ty tys ih =>
    intro c d h
    rw [List.foldlM_cons] at h
    obtain ⟨e, he, hrest⟩ := Option.bind_eq_some_iff.mp h
    exact (hf c ty e he).trans (ih hrest)

theorem not_hollow_of_lookup {ty : Ty} (h : lookupRecord entity programRecords ty = none) :
    ¬ Hollow entity programRecords ty := by
  rintro ⟨hrec, -⟩
  rw [h] at hrec
  cases hrec

/-- In an empty slot, a type moves the cursor exactly when it is not hollow. -/
theorem freshSlot_packType_iff {fuel : ℕ}
    (ih : ∀ ty s d, packStruct entity programRecords programEnums fuel ty s = some (some d) →
      (d.freshSlot = s ↔ Hollow entity programRecords ty)) {c d : Cursor} {ty : Ty}
    (hc : c.usedInSlot = 0) (h : packType entity programRecords programEnums fuel c ty = some d) :
    (d.freshSlot = c.freshSlot ↔ Hollow entity programRecords ty) ∧
      (Hollow entity programRecords ty → d.usedInSlot = 0) := by
  rw [packType, packField] at h
  cases hr : lookupRecord entity programRecords ty with
  | some nested =>
    rw [hr] at h
    obtain ⟨e, he, rfl⟩ := Option.map_eq_some_iff.mp h
    refine ⟨ih ty c.freshSlot e ?_, fun _ => rfl⟩
    rw [packStruct, hr]
    exact congrArg some he
  | none =>
    have hnot := not_hollow_of_lookup hr
    refine ⟨iff_of_false (fun heq => ?_) hnot, fun hhollow => absurd hhollow hnot⟩
    rw [hr] at h
    cases hp : lookupPayloadEnum entity programEnums ty with
    | some en =>
      rw [hp] at h
      obtain ⟨e, he, rfl⟩ := Option.map_eq_some_iff.mp h
      refine hnot ((ih ty c.freshSlot e ?_).mp heq)
      rw [packStruct, hr, hp]
      exact congrArg some he
    | none =>
      rw [hp] at h
      by_cases hown : (isMappingType ty || isDynamicArray ty) = true
      · simp only [hown, if_true] at h
        cases h
        exact absurd heq (Nat.succ_ne_self c.freshSlot)
      · simp only [hown] at h
        cases h
        have hmoved := (Cursor.freshSlot_le_value
          (valueNbytes_bounds entity programRecords programEnums ty).1).2 hc
        omega

theorem freshSlot_fields_iff {fuel : ℕ}
    (ih : ∀ ty s d, packStruct entity programRecords programEnums fuel ty s = some (some d) →
      (d.freshSlot = s ↔ Hollow entity programRecords ty)) (tys : List Ty) :
    ∀ {c d : Cursor}, c.usedInSlot = 0 →
      tys.foldlM (packType entity programRecords programEnums fuel) c = some d →
      (d.freshSlot = c.freshSlot ↔ ∀ ty ∈ tys, Hollow entity programRecords ty) := by
  induction tys with
  | nil =>
    intro c d _ h
    cases h
    exact iff_of_true rfl (List.forall_mem_nil _)
  | cons ty tys ihTys =>
    intro c d hc h
    rw [List.foldlM_cons] at h
    obtain ⟨e, he, hrest⟩ := Option.bind_eq_some_iff.mp h
    obtain ⟨hstep, hused⟩ := freshSlot_packType_iff ih hc he
    rw [List.forall_mem_cons]
    by_cases hty : Hollow entity programRecords ty
    · rw [← hstep.mpr hty, ihTys (hused hty) hrest]
      exact ⟨fun hall => ⟨hty, hall⟩, And.right⟩
    · refine iff_of_false (fun heq => ?_) (fun hall => hty hall.1)
      have hfirst := freshSlot_le_packType he
      have hlater := freshSlot_le_foldlM (fun _ _ _ => freshSlot_le_packType) tys hrest
      exact hty (hstep.mp (by omega))

/-- **What packs into no slot stores nothing**, and the other way around. -/
theorem freshSlot_packStruct_iff (fuel : ℕ) : ∀ (ty : Ty) (s : ℕ) (d : Cursor),
    packStruct entity programRecords programEnums fuel ty s = some (some d) →
      (d.freshSlot = s ↔ Hollow entity programRecords ty) := by
  induction fuel with
  | zero =>
    intro ty s d h
    rw [packStruct] at h
    cases hr : lookupRecord entity programRecords ty with
    | some rec =>
      rw [hr] at h
      cases h
    | none =>
      rw [hr] at h
      obtain ⟨en, -, hen⟩ := Option.map_eq_some_iff.mp h
      cases hen
  | succ fuel ih =>
    intro ty s d h
    rw [packStruct] at h
    cases hr : lookupRecord entity programRecords ty with
    | some rec =>
      rw [hr] at h
      have hfields := freshSlot_fields_iff ih _ (c := ⟨s, 0, 0⟩) rfl (Option.some.inj h)
      refine hfields.trans ⟨fun hall => .record hr hall, ?_⟩
      rintro ⟨hrec, hall⟩
      rw [hr, Option.some.injEq] at hrec
      subst hrec
      exact hall
    | none =>
      rw [hr] at h
      obtain ⟨en, -, hen⟩ := Option.map_eq_some_iff.mp h
      have hlater := freshSlot_le_foldlM (fun _ _ _ => freshSlot_le_packVariantField) _ hen
      refine iff_of_false (fun heq => ?_) (not_hollow_of_lookup hr)
      -- the tag has taken the first slot
      have htag : Cursor.freshSlot ⟨s, 1, 1⟩ = s + 1 := rfl
      omega

end Packed

/-! ### Placed variables -/

section Placed

/-- A placed variable lies in one slot or takes whole slots. -/
theorem placed_shape {cs : List Counted} {x : Counted × ℕ} (hx : x ∈ layOut 32 Counted.room 0 cs) :
    x.2 % 32 + x.1.room.size 32 ≤ 32 ∨ 32 ∣ x.2 ∧ 32 ∣ x.1.room.size 32 := by
  obtain ⟨-, q, hstart⟩ := mem_layOut hx
  obtain ⟨⟨name, ty, kind, size, room, counts⟩, start⟩ := x
  simp only at hstart ⊢
  cases counts with
  | value hpos hle =>
    rw [hstart]
    exact Or.inl (part_start_mod hle q)
  | mapping => exact Or.inr ⟨hstart ▸ dvd_alignUp q, Dvd.intro 1 rfl⟩
  | dynamicArray => exact Or.inr ⟨hstart ▸ dvd_alignUp q, Dvd.intro 1 rfl⟩
  | struct size slots => exact Or.inr ⟨hstart ▸ dvd_alignUp q, Dvd.intro slots rfl⟩

/-- An entry that counts as a full slot begins one and takes whole slots. -/
theorem placed_full {cs : List Counted} {x : Counted × ℕ} (hx : x ∈ layOut 32 Counted.room 0 cs)
    (hfull : (Counted.entry x).occupiesFullSlot = true) : 32 ∣ x.2 ∧ 32 ∣ x.1.room.size 32 := by
  obtain ⟨-, q, hstart⟩ := mem_layOut hx
  obtain ⟨⟨name, ty, kind, size, room, counts⟩, start⟩ := x
  rw [SlotInfo.occupiesFullSlot, Bool.or_eq_true, beq_iff_eq, beq_iff_eq] at hfull
  simp only [Counted.entry] at hstart hfull ⊢
  cases counts with
  | value hpos hle =>
    obtain rfl : size = 32 := by
      rcases hfull with hsize | hkind
      · exact hsize
      · cases hkind
    have hmod := part_start_mod (w := 32) (Nat.le_refl 32) q
    rw [← hstart] at hmod
    exact ⟨Nat.dvd_of_mod_eq_zero (by omega), Nat.dvd_refl 32⟩
  | mapping => exact ⟨hstart ▸ dvd_alignUp q, Dvd.intro 1 rfl⟩
  | dynamicArray => exact ⟨hstart ▸ dvd_alignUp q, Dvd.intro 1 rfl⟩
  | struct size slots => exact ⟨hstart ▸ dvd_alignUp q, Dvd.intro slots rfl⟩

theorem start_entry (x : Counted × ℕ) : (Counted.entry x).start = x.2 := Nat.div_add_mod x.2 32

theorem map_fst_layOut {w : ℕ} {α : Type*} (room : α → Room) (p : ℕ) (xs : List α) :
    (layOut w room p xs).map Prod.fst = xs := by
  induction xs generalizing p with
  | nil => rfl
  | cons x xs ih => exact congrArg (x :: ·) (ih _)

/-- Every variable that another one follows takes some room. -/
def RoomBeforeAnother (cs : List Counted) : Prop :=
  ∀ pre c post, cs = pre ++ c :: post → post ≠ [] → 0 < c.room.size 32

theorem RoomBeforeAnother.pos {cs : List Counted} (h : RoomBeforeAnother cs) {i j : ℕ}
    {x y : Counted × ℕ} (hx : (layOut 32 Counted.room 0 cs)[i]? = some x)
    (hy : (layOut 32 Counted.room 0 cs)[j]? = some y) (hij : i < j) : 0 < x.1.room.size 32 := by
  have hlen : (layOut 32 Counted.room 0 cs).length = cs.length := by
    rw [← List.length_map, map_fst_layOut]
  obtain ⟨hi, hxi⟩ := List.getElem?_eq_some_iff.mp hx
  obtain ⟨hj, -⟩ := List.getElem?_eq_some_iff.mp hy
  have hcs : cs[i]? = some x.1 := by
    have hmap := congrArg (·[i]?) (map_fst_layOut (w := 32) Counted.room 0 cs)
    simpa only [List.getElem?_map, hx, Option.map_some] using hmap.symm
  obtain ⟨hi', hci⟩ := List.getElem?_eq_some_iff.mp hcs
  refine h (cs.take i) x.1 (cs.drop (i + 1)) ?_ ?_
  · conv_lhs => rw [← List.take_append_drop i cs, List.drop_eq_getElem_cons hi', hci]
  · rw [Ne, List.drop_eq_nil_iff]
    omega

/-- What comes earlier ends before what comes later begins. -/
theorem placed_order {cs : List Counted} {i j : ℕ} {x y : Counted × ℕ}
    (hx : (layOut 32 Counted.room 0 cs)[i]? = some x)
    (hy : (layOut 32 Counted.room 0 cs)[j]? = some y) (hij : i < j) :
    x.2 + x.1.room.size 32 ≤ y.2 := by
  obtain ⟨hi, rfl⟩ := List.getElem?_eq_some_iff.mp hx
  obtain ⟨hj, rfl⟩ := List.getElem?_eq_some_iff.mp hy
  exact List.pairwise_iff_getElem.mp (pairwise_layOut (Nat.zero_lt_succ 31) Counted.room 0 cs) i j hi hj
    hij

/-- Two entries of one slot are counted twice. -/
theorem eq_of_count_one {layout : List SlotInfo} {i j : ℕ} {info other : SlotInfo}
    (hcount : (layout.filter fun entry => entry.slot == info.slot).length = 1)
    (hi : layout[i]? = some info) (hj : layout[j]? = some other) (hslot : other.slot = info.slot) :
    i = j := by
  have hinfo : (info.slot == info.slot) = true := beq_self_eq_true _
  have hother : (other.slot == info.slot) = true := beq_iff_eq.mpr hslot
  have hranki := getElem?_rank (u := fun entry => entry.slot == info.slot) hi hinfo
  have hrankj := getElem?_rank (u := fun entry => entry.slot == info.slot) hj hother
  have hlti := (List.getElem?_eq_some_iff.mp hranki).1
  have hltj := (List.getElem?_eq_some_iff.mp hrankj).1
  exact rank_inj (u := fun entry => entry.slot == info.slot) hi hinfo hj hother (by omega)

/-- An exclusive variable shares its slot with no byte of another. -/
theorem placed_exclusive {cs : List Counted} (hroom : RoomBeforeAnother cs) {i j : ℕ}
    {x y : Counted × ℕ} (hx : (layOut 32 Counted.room 0 cs)[i]? = some x)
    (hexclusive : isExclusive (placedEntries 0 cs) (Counted.entry x) = true)
    (hy : (layOut 32 Counted.room 0 cs)[j]? = some y) (hij : j ≠ i) :
    y.2 / 32 ≠ x.2 / 32 ∧
      ∀ byte, y.2 ≤ byte → byte < y.2 + y.1.room.size 32 → byte / 32 ≠ x.2 / 32 := by
  have hshape := placed_shape (List.mem_of_getElem? hy)
  rw [isExclusive, Bool.or_eq_true, Bool.or_eq_true] at hexclusive
  by_cases hfull : (Counted.entry x).occupiesFullSlot = true
  · obtain ⟨hstart, hsize⟩ := placed_full (List.mem_of_getElem? hx) hfull
    rcases Nat.lt_or_gt_of_ne hij with hlt | hgt
    · have hpos := hroom.pos hy hx hlt
      have horder := placed_order hy hx hlt
      exact ⟨by omega, fun byte hlow hhigh => by omega⟩
    · have hpos := hroom.pos hx hy hgt
      have horder := placed_order hx hy hgt
      exact ⟨by omega, fun byte hlow hhigh => by omega⟩
  · have hcount : ((placedEntries 0 cs).filter fun entry =>
        entry.slot == (Counted.entry x).slot).length = 1 := by
      rcases hexclusive with (hocc | hstruct) | hcount
      · exact absurd hocc hfull
      · exact absurd (by rw [SlotInfo.occupiesFullSlot, hstruct, Bool.or_true]) hfull
      · exact beq_iff_eq.mp hcount
    have hentryx : (placedEntries 0 cs)[i]? = some (Counted.entry x) := by
      rw [placedEntries, List.getElem?_map, hx, Option.map_some]
    have hentryy : (placedEntries 0 cs)[j]? = some (Counted.entry y) := by
      rw [placedEntries, List.getElem?_map, hy, Option.map_some]
    have hslot : y.2 / 32 ≠ x.2 / 32 :=
      fun heq => hij (eq_of_count_one hcount hentryx hentryy heq).symm
    refine ⟨hslot, fun byte hlow hhigh => ?_⟩
    rcases Nat.lt_or_gt_of_ne hij with hlt | hgt
    · have horder := placed_order hy hx hlt
      omega
    · have horder := placed_order hx hy hgt
      omega

/-- A variable without room and one behind it share a slot that counts as exclusive. -/
theorem shared_of_no_room (pre post : List Counted) {c : Counted} (d : Counted) (hc : c.room.size 32 = 0) :
    ∃ x y, (layOut 32 Counted.room 0 (pre ++ c :: d :: post))[pre.length]? = some x ∧
      (layOut 32 Counted.room 0 (pre ++ c :: d :: post))[pre.length + 1]? = some y ∧
      (Counted.entry x).kind = .struct ∧ (Counted.entry y).slot = (Counted.entry x).slot := by
  have hlen : (layOut 32 Counted.room 0 pre).length = pre.length := by
    rw [← List.length_map, map_fst_layOut]
  obtain ⟨name, ty, kind, size, room, counts⟩ := c
  simp only at hc
  cases counts with
  | value hpos hle =>
    rw [Room.size] at hc
    omega
  | mapping | dynamicArray => cases hc
  | struct size slots =>
    rw [Room.size] at hc
    have hslots : slots = 0 := by omega
    subst hslots
    have hstart : ∀ p, d.room.start 32 ((Room.words 0).next 32 p) = (Room.words 0).start 32 p := by
      intro p
      have hnext : (Room.words 0).next 32 p = alignUp 32 p := rfl
      rw [hnext, start_of_dvd (Nat.zero_lt_succ 31) (dvd_alignUp p)]
      rfl
    have hget : ∀ (rest : List (Counted × ℕ)) (k : ℕ),
        (layOut 32 Counted.room 0 pre ++ rest)[pre.length + k]? = rest[k]? := by
      intro rest k
      rw [List.getElem?_append_right (by omega), hlen, Nat.add_sub_cancel_left]
    rw [layOut_append, layOut, layOut, hget _ 1]
    exact ⟨_, _, hget _ 0, rfl, rfl, congrArg (· / 32) (hstart _)⟩

end Placed

/-! ### What the members count for -/

section Members

variable {entity : Entity} {deterministic : Bool} {programRecords : List Record}
  {programEnums : List EnumDecl} {fuel : ℕ}

variable (entity programRecords programEnums fuel) in
/-- A counted struct has the room its type packs into, and no entry reports more than its room. -/
structure Counted.Backed (c : Counted) : Prop where
  slots : c.kind = .struct →
    c.room = .words (structSlots entity programRecords programEnums fuel c.ty)
  reported : c.size ≤ c.room.size 32

theorem backed_countedMember {m : Member} {cs : List Counted}
    (h : countedMember entity programRecords programEnums fuel m = some cs) {c : Counted} (hc : c ∈ cs) :
    c.Backed entity programRecords programEnums fuel := by
  rw [countedMember] at h
  by_cases hid : m.isIdentity = true
  · rw [if_pos hid] at h
    cases h
    exact absurd hc List.not_mem_nil
  rw [if_neg hid] at h
  cases hpack : packStruct entity programRecords programEnums fuel m.ty 0 with
  | some packed =>
    rw [hpack] at h
    obtain ⟨d, rfl, rfl⟩ := Option.map_eq_some_iff.mp h
    obtain rfl := List.mem_singleton.mp hc
    have hgrown := grown_packStruct hpack
    have hend := le_alignUp (Nat.zero_lt_succ 31) d.addr
    have hcounted := hgrown.counted
    rw [Cursor.alignUp_addr hgrown.used] at hend
    refine ⟨fun _ => ?_, ?_⟩
    · simp only [countedStruct, structSlots, Option.bind_some, hpack]
    · show min d.totalBytes 255 ≤ 32 * d.freshSlot
      omega
  | none =>
    rw [hpack] at h
    by_cases hmap : isMappingType m.ty = true
    · simp only [hmap, if_true] at h
      cases h
      rcases List.mem_cons.mp hc with rfl | hc
      · exact ⟨fun hkind => (by cases hkind), Nat.le_refl 32⟩
      · split at hc
        · obtain rfl := List.mem_singleton.mp hc
          exact ⟨fun hkind => (by cases hkind), Nat.le_refl 32⟩
        · exact absurd hc List.not_mem_nil
    · simp only [hmap] at h
      by_cases harray : isDynamicArray m.ty = true
      · simp only [harray, if_true] at h
        cases h
        obtain rfl := List.mem_singleton.mp hc
        exact ⟨fun hkind => (by cases hkind), Nat.le_refl 32⟩
      · simp only [harray] at h
        cases h
        obtain rfl := List.mem_singleton.mp hc
        exact ⟨fun hkind => (by cases hkind), Nat.le_refl _⟩

theorem mem_initializedCounted {c : Counted} (hc : c ∈ initializedCounted entity deterministic) :
    (deterministic && hasNonIdentityInitParams entity) = true ∧
      c = countedBytes "_initialized" (.simple "bool") 1 ⟨Nat.one_pos, by decide⟩ := by
  rw [initializedCounted] at hc
  split at hc
  · rename_i hinit
    exact ⟨hinit, List.mem_singleton.mp hc⟩
  · exact absurd hc List.not_mem_nil

theorem backed_countedVariables {cs : List Counted}
    (h : countedVariables entity deterministic programRecords programEnums fuel = some cs) {c : Counted}
    (hc : c ∈ cs) : c.Backed entity programRecords programEnums fuel := by
  obtain ⟨css, hcss, rfl⟩ := Option.map_eq_some_iff.mp h
  rcases List.mem_append.mp hc with hmem | hinit
  · obtain ⟨ds, hds, hcd⟩ := List.mem_flatten.mp hmem
    obtain ⟨m, -, hm⟩ := (mem_of_mapM hcss).2 ds hds
    exact backed_countedMember hm hcd
  · obtain ⟨-, rfl⟩ := mem_initializedCounted hinit
    exact ⟨fun hkind => (by cases hkind), Nat.le_refl 1⟩

/-- A counted variable without room comes from a member that stores nothing. -/
theorem hollow_of_countedMember {m : Member} {cs : List Counted}
    (h : countedMember entity programRecords programEnums fuel m = some cs) {c : Counted} (hc : c ∈ cs)
    (hroom : c.room.size 32 = 0) :
    m.isIdentity = false ∧ Hollow entity programRecords m.ty ∧ cs = [c] := by
  have hbacked := backed_countedMember h hc
  rw [countedMember] at h
  by_cases hid : m.isIdentity = true
  · rw [if_pos hid] at h
    cases h
    exact absurd hc List.not_mem_nil
  rw [if_neg hid] at h
  cases hpack : packStruct entity programRecords programEnums fuel m.ty 0 with
  | some packed =>
    rw [hpack] at h
    obtain ⟨d, rfl, rfl⟩ := Option.map_eq_some_iff.mp h
    obtain rfl := List.mem_singleton.mp hc
    have hslots : 32 * d.freshSlot = 0 := hroom
    exact ⟨Bool.not_eq_true _ ▸ hid, (freshSlot_packStruct_iff fuel _ _ _ hpack).mp (by omega), rfl⟩
  | none =>
    exfalso
    rw [hpack] at h
    by_cases hmap : isMappingType m.ty = true
    · simp only [hmap, if_true] at h
      cases h
      rcases List.mem_cons.mp hc with rfl | hc
      · cases hroom
      · split at hc
        · obtain rfl := List.mem_singleton.mp hc
          cases hroom
        · exact absurd hc List.not_mem_nil
    · simp only [hmap] at h
      by_cases harray : isDynamicArray m.ty = true
      · simp only [harray, if_true] at h
        cases h
        obtain rfl := List.mem_singleton.mp hc
        cases hroom
      · simp only [harray] at h
        cases h
        obtain rfl := List.mem_singleton.mp hc
        have hpos := (valueNbytes_bounds entity programRecords programEnums m.ty).1
        have hzero : valueNbytes entity programRecords programEnums m.ty = 0 := hroom
        omega

/-- Members that count for no variable are identity members. -/
theorem counted_nonempty {ms : List Member} {css : List (List Counted)}
    (h : ms.mapM (countedMember entity programRecords programEnums fuel) = some css)
    (hne : css.flatten ≠ []) : ∃ n ∈ ms, n.isIdentity = false := by
  obtain ⟨c, hc⟩ := List.exists_mem_of_ne_nil _ hne
  obtain ⟨ds, hds, hcd⟩ := List.mem_flatten.mp hc
  obtain ⟨n, hn, hcounted⟩ := (mem_of_mapM h).2 ds hds
  refine ⟨n, hn, Bool.eq_false_iff.mpr fun hid => ?_⟩
  rw [countedMember, if_pos hid] at hcounted
  cases hcounted
  exact absurd hcd List.not_mem_nil

theorem countedMember_ne_nil {m : Member} (hid : m.isIdentity = false) {cs : List Counted}
    (h : countedMember entity programRecords programEnums fuel m = some cs) : cs ≠ [] := by
  rw [countedMember, if_neg (by rw [hid]; exact Bool.false_ne_true)] at h
  cases hpack : packStruct entity programRecords programEnums fuel m.ty 0 with
  | some packed =>
    rw [hpack] at h
    obtain ⟨d, -, rfl⟩ := Option.map_eq_some_iff.mp h
    exact List.cons_ne_nil _ _
  | none =>
    rw [hpack] at h
    split_ifs at h <;> cases h <;> exact List.cons_ne_nil _ _

/-- Another variable follows the members: a member's own, or `_initialized`. -/
theorem another_iff {ms : List Member} {css : List (List Counted)}
    (h : ms.mapM (countedMember entity programRecords programEnums fuel) = some css) :
    css.flatten ++ initializedCounted entity deterministic ≠ [] ↔
      (∃ n ∈ ms, n.isIdentity = false) ∨
        (deterministic && hasNonIdentityInitParams entity) = true := by
  rw [Ne, List.append_eq_nil_iff, not_and_or]
  constructor
  · rintro (hcss | hinit)
    · exact Or.inl (counted_nonempty h hcss)
    · obtain ⟨c, hc⟩ := List.exists_mem_of_ne_nil _ hinit
      exact Or.inr (mem_initializedCounted hc).1
  · rintro (⟨n, hn, hid⟩ | hinit)
    · obtain ⟨cs, hcs, hcounted⟩ := (mem_of_mapM h).1 n hn
      obtain ⟨c, hc⟩ := List.exists_mem_of_ne_nil _ (countedMember_ne_nil hid hcounted)
      exact Or.inl (List.ne_nil_of_mem (List.mem_flatten.mpr ⟨cs, hcs, hc⟩))
    · rw [initializedCounted, if_pos hinit]
      exact Or.inr (List.cons_ne_nil _ _)

/-- Where a counted variable without room stands, its member stands before the members of the
variables behind it. -/
theorem hollow_of_split {ms : List Member} : ∀ {css : List (List Counted)} (pre : List Counted)
    {post : List Counted} {c : Counted}, ms.mapM (countedMember entity programRecords programEnums fuel) = some css →
    css.flatten ++ initializedCounted entity deterministic = pre ++ c :: post →
    c.room.size 32 = 0 → post ≠ [] →
    ∃ before m after, ms = before ++ m :: after ∧ m.isIdentity = false ∧
      Hollow entity programRecords m.ty ∧
      ((∃ n ∈ after, n.isIdentity = false) ∨
        (deterministic && hasNonIdentityInitParams entity) = true) := by
  induction ms with
  | nil =>
    intro css pre post c h hsplit hroom _
    rw [List.mapM_nil] at h
    cases h
    have hc : c ∈ initializedCounted entity deterministic := by
      rw [List.flatten_nil, List.nil_append] at hsplit
      rw [hsplit]
      exact List.mem_append_right _ List.mem_cons_self
    obtain ⟨-, rfl⟩ := mem_initializedCounted hc
    cases hroom
  | cons m ms ih =>
    intro css pre post c h hsplit hroom hpost
    rw [List.mapM_cons] at h
    obtain ⟨cs, hcs, h⟩ := Option.bind_eq_some_iff.mp h
    obtain ⟨css', hcss', h⟩ := Option.bind_eq_some_iff.mp h
    cases h
    rw [List.flatten_cons, List.append_assoc] at hsplit
    rcases List.append_eq_append_iff.mp hsplit with ⟨mid, rfl, hrest⟩ | ⟨mid, hmem, hrest⟩
    · obtain ⟨before, m', after, rfl, hm'⟩ := ih mid hcss' hrest hroom hpost
      exact ⟨m :: before, m', after, rfl, hm'⟩
    · cases mid with
      | nil =>
        -- the variable comes from a later member
        obtain ⟨before, m', after, rfl, hm'⟩ := ih [] hcss' hrest.symm hroom hpost
        exact ⟨m :: before, m', after, rfl, hm'⟩
      | cons d mid =>
        obtain ⟨rfl, rfl⟩ := List.cons.inj hrest
        have hc : c ∈ cs := by
          rw [hmem]
          exact List.mem_append_right _ List.mem_cons_self
        obtain ⟨hid, hhollow, hsingle⟩ := hollow_of_countedMember hcs hc hroom
        have hmid : mid = [] := by
          have hlen := congrArg List.length (hmem.symm.trans hsingle)
          simp only [List.length_append, List.length_cons, List.length_nil] at hlen
          exact List.eq_nil_of_length_eq_zero (by omega)
        subst hmid
        exact ⟨[], m, ms, rfl, hid, hhollow, (another_iff hcss').mp hpost⟩

theorem hollowBeforeAnother_iff {cs : List Counted}
    (h : countedVariables entity deterministic programRecords programEnums fuel = some cs) :
    HollowBeforeAnother entity deterministic programRecords ↔
      ∃ pre c post, cs = pre ++ c :: post ∧ post ≠ [] ∧ c.room.size 32 = 0 := by
  obtain ⟨css, hcss, rfl⟩ := Option.map_eq_some_iff.mp h
  constructor
  · rintro ⟨before, m, after, hmembers, hid, hhollow, hanother⟩
    rw [hmembers, List.mapM_append, List.mapM_cons] at hcss
    obtain ⟨css₁, -, hcss⟩ := Option.bind_eq_some_iff.mp hcss
    obtain ⟨both, hboth, hcss⟩ := Option.bind_eq_some_iff.mp hcss
    obtain ⟨cs, hcs, hboth⟩ := Option.bind_eq_some_iff.mp hboth
    obtain ⟨css₂, hcss₂, hboth⟩ := Option.bind_eq_some_iff.mp hboth
    cases hboth
    cases hcss
    have hlookup := hhollow
    obtain ⟨hrec, -⟩ := hlookup
    rw [countedMember, if_neg (by rw [hid]; exact Bool.false_ne_true), packStruct, hrec] at hcs
    obtain ⟨d, hd, rfl⟩ := Option.map_eq_some_iff.mp hcs
    have hpack : packStruct entity programRecords programEnums fuel m.ty 0 = some (some d) := by
      rw [packStruct, hrec]
      exact congrArg some hd
    have hslots := (freshSlot_packStruct_iff fuel _ _ _ hpack).mpr hhollow
    refine ⟨css₁.flatten, countedStruct m.name m.ty d, _, ?_, (another_iff hcss₂).mpr hanother, ?_⟩
    · simp only [List.flatten_append, List.flatten_cons, List.append_assoc, List.cons_append,
        List.nil_append]
    · show 32 * d.freshSlot = 0
      rw [hslots]
  · rintro ⟨pre, c, post, hsplit, hpost, hroom⟩
    exact hollow_of_split pre hcss hsplit hroom hpost

/-- The entry of a counted variable takes its room. -/
theorem extent_entry {x : Counted × ℕ} (h : x.1.Backed entity programRecords programEnums fuel) :
    (Counted.entry x).extent entity programRecords programEnums fuel = x.1.room.size 32 := by
  obtain ⟨hslots, -⟩ := h
  obtain ⟨⟨name, ty, kind, size, room, counts⟩, start⟩ := x
  rw [SlotInfo.extent]
  cases counts with
  | value hpos hle => rfl
  | mapping | dynamicArray => rfl
  | struct size slots =>
    have hroom := hslots rfl
    simp only [Counted.entry, if_true]
    simp only at hroom
    rw [hroom, Room.size]

end Members

/-! ### A ledger and a marker without fields -/

/-- A record without fields before a flag. -/
def marked : Entity :=
  { syntheticEntity "Marked" with
    records := [{ name := "Marker", fields := [] }],
    members := [plainMember "m_marker" (.simple "Marker") false,
      plainMember "m_flag" (.simple "bool") false] }

end CambrianLang.Layout
