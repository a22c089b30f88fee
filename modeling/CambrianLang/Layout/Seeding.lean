/-
  **Seeding the state of a deployed contract** (`gen_state_init` in
  `codegen/evm_test_codegen.rs`).

  A test writes the members of its `with` clause into the storage of the contract it
  has deployed.  A member that the layout has alone in its slot is stored as a whole
  word; any other is patched into the word that is there.  What a sequence of such
  writes leaves is read byte by byte: a byte holds what the last write that reaches it
  puts there.
-/
import CambrianLang.Layout.Exclusive

namespace CambrianLang.Layout

open Ast WordPacking

/-! ### Storage by bytes -/

abbrev Storage := ℕ → BitVec 256

/-- The byte of a word that counts `256 ^ i`. -/
def byteOf (word : BitVec 256) (i : ℕ) : BitVec 8 := word.extractLsb' (8 * i) 8

def byteAt (σ : Storage) (p : ℕ) : BitVec 8 := byteOf (σ (p / 32)) (p % 32)

theorem byteOf_getLsbD (word : BitVec 256) (i k : ℕ) :
    (byteOf word i).getLsbD k = (decide (k < 8) && word.getLsbD (8 * i + k)) := by
  rw [byteOf, BitVec.getLsbD_extractLsb']

theorem byteOf_zero (i : ℕ) : byteOf 0 i = 0 := by
  apply BitVec.eq_of_getLsbD_eq
  intro k hk
  rw [byteOf_getLsbD]
  simp

/-- The word whose byte `i` is one. -/
def unit (i : ℕ) : BitVec 256 := BitVec.twoPow 256 (8 * i)

theorem byteOf_unit {i : ℕ} (hi : i < 32) : byteOf (unit i) i ≠ 0 := by
  intro hzero
  have hbit := congrArg (fun b => b.getLsbD 0) hzero
  rw [byteOf_getLsbD, unit, BitVec.getLsbD_twoPow] at hbit
  simp at hbit
  omega

theorem byteOf_unit_of_ne {i j : ℕ} (hij : j ≠ i) : byteOf (unit i) j = 0 := by
  apply BitVec.eq_of_getLsbD_eq
  intro k hk
  rw [byteOf_getLsbD, unit, BitVec.getLsbD_twoPow]
  have hne : decide (8 * i = 8 * j + k) = false := decide_eq_false (by omega)
  rw [hne]
  simp

theorem unit_toNat_lt {i n : ℕ} (hi : i < n) : (unit i).toNat < 256 ^ n := by
  have hpow : (256 : ℕ) ^ n = 2 ^ (8 * n) := by rw [Nat.pow_mul]
  rw [hpow, unit, BitVec.toNat_twoPow]
  exact lt_of_le_of_lt (Nat.mod_le _ _) (Nat.pow_lt_pow_right (by decide) (by omega))

/-- A slot is written, the other slots stay. -/
theorem byteAt_update (σ : Storage) (slot : ℕ) (word : BitVec 256) (p : ℕ) :
    byteAt (Function.update σ slot word) p =
      if p / 32 = slot then byteOf word (p % 32) else byteAt σ p := by
  rw [byteAt, Function.update_apply]
  split <;> rfl

/-! ### What is printed for a value -/

/-- The elementary types that a printed value may have. -/
inductive SolScalar where
  | bool
  | uint (bits : ℕ)
  | int (bits : ℕ)
  | address
  | enum
  | fixedBytes (count : ℕ)
deriving DecidableEq

/-- The form of the expression that is printed for a value.  `negative` is a literal with a sign;
`unprinted` is a value that `gen_expr_test` has no text for, which becomes the text `0`. -/
inductive SolForm where
  | boolLiteral
  | number
  | negative
  | unprinted
  | typed (ty : SolScalar) (startsWithAddress : Bool)
deriving DecidableEq

/-- The text begins with `address(`. -/
def SolForm.startsWithAddress : SolForm → Bool
  | .typed _ starts => starts
  | _ => false

/-- The compiler takes the conversion of an expression to `uint<bits>`. -/
def SolForm.convertsTo (bits : ℕ) : SolForm → Bool
  | .boolLiteral => false
  | .number => true
  | .negative => false
  | .unprinted => true
  | .typed ty _ =>
      match ty with
      | .bool => false
      | .uint _ => true
      | .int n => n == bits
      | .address => bits == 160
      | .enum => true
      | .fixedBytes count => 8 * count == bits

/-- The conversion keeps the low bits of a value; a literal is in range. -/
def SolForm.converted (bits : ℕ) (value : BitVec 256) : SolForm → BitVec 256
  | .typed _ _ => (value.setWidth bits).setWidth 256
  | .unprinted => 0
  | _ => value

/-- What `vm_store_slot_value` makes of a printed value. -/
inductive SlotText where
  | uint160 (form : SolForm)
  | digit
  | other (form : SolForm)

def isAddressMember (member : Option Member) : Bool :=
  member.any fun m => match m.ty with
    | .simple name => name == "address"
    | _ => false

/-- `vm_store_slot_value`. -/
def vmStoreSlotValue (rendered : SolForm) (member : Option Member) : SlotText :=
  if isAddressMember member || rendered.startsWithAddress then .uint160 rendered
  else match rendered with
    | .boolLiteral => .digit
    | other => .other other

/-- The compiler takes `uint256(..)` of the text. -/
def SlotText.accepted : SlotText → Bool
  | .uint160 form => form.convertsTo 160
  | .digit => true
  | .other form => form.convertsTo 256

/-- The word that `uint256(..)` of the text comes to. -/
def SlotText.word (value : BitVec 256) : SlotText → BitVec 256
  | .uint160 form => form.converted 160 value
  | .digit => value
  | .other form => form.converted 256 value

/-- The word has the low bytes of the value. -/
def SlotText.keeps (bytes : ℕ) : SlotText → Bool
  | .uint160 (.typed _ _) => decide (bytes ≤ 20)
  | .uint160 .unprinted => false
  | .other .unprinted => false
  | _ => true

theorem byteOf_setWidth (bits : ℕ) (value : BitVec 256) (i : ℕ) (h : bits = 8 * (bits / 8)) :
    byteOf ((value.setWidth bits).setWidth 256) i = if i < bits / 8 then byteOf value i else 0 := by
  apply BitVec.eq_of_getLsbD_eq
  intro k hk
  have hvalue : 256 ≤ 8 * i + k → value.getLsbD (8 * i + k) = false :=
    fun hge => BitVec.getLsbD_of_ge value _ hge
  split
  · rw [byteOf_getLsbD, byteOf_getLsbD, BitVec.getLsbD_setWidth, BitVec.getLsbD_setWidth,
      decide_eq_true (show 8 * i + k < bits by omega), Bool.true_and]
    by_cases hlt : 8 * i + k < 256
    · rw [decide_eq_true hlt, Bool.true_and]
    · rw [hvalue (by omega), Bool.and_false]
  · rw [byteOf_getLsbD, BitVec.getLsbD_setWidth, BitVec.getLsbD_setWidth,
      decide_eq_false (show ¬ 8 * i + k < bits by omega)]
    simp

theorem byteOf_word_keeps {text : SlotText} {bytes : ℕ} (hkeeps : text.keeps bytes = true)
    (hbytes : bytes ≤ 32) (value : BitVec 256) {i : ℕ} (hi : i < bytes) :
    byteOf (text.word value) i = byteOf value i := by
  cases text with
  | digit => rfl
  | uint160 form =>
    cases form with
    | boolLiteral | number | negative => rfl
    | unprinted => cases hkeeps
    | typed ty starts =>
      have hle : bytes ≤ 20 := of_decide_eq_true hkeeps
      rw [SlotText.word, SolForm.converted, byteOf_setWidth 160 value i rfl, if_pos (by omega)]
  | other form =>
    cases form with
    | boolLiteral | number | negative => rfl
    | unprinted => cases hkeeps
    | typed ty starts =>
      rw [SlotText.word, SolForm.converted, byteOf_setWidth 256 value i rfl, if_pos (by omega)]

/-- A conversion never makes a byte of zero anything else. -/
theorem byteOf_word_zero (text : SlotText) {value : BitVec 256} {i : ℕ}
    (hzero : byteOf value i = 0) : byteOf (text.word value) i = 0 := by
  have hconv : ∀ bits form, bits = 8 * (bits / 8) →
      byteOf (SolForm.converted bits value form) i = 0 := by
    intro bits form hbits
    cases form with
    | boolLiteral | number | negative => exact hzero
    | unprinted => exact byteOf_zero i
    | typed ty starts =>
      rw [SolForm.converted, byteOf_setWidth bits value i hbits, hzero, ite_self]
  cases text with
  | digit => exact hzero
  | uint160 form => exact hconv 160 form rfl
  | other form => exact hconv 256 form rfl

/-- A text that does not keep the low bytes loses one of them. -/
theorem byteOf_word_cut {text : SlotText} {bytes : ℕ} (hpos : 0 < bytes)
    (hkeeps : text.keeps bytes = false) :
    ∃ i < bytes, i < 32 ∧ ∀ value, byteOf (text.word value) i = 0 := by
  have hunprinted : ∃ i < bytes, i < 32 ∧ byteOf 0 i = 0 :=
    ⟨0, hpos, by decide, byteOf_zero 0⟩
  cases text with
  | digit => cases hkeeps
  | other form =>
    cases form with
    | boolLiteral | number | negative | typed => cases hkeeps
    | unprinted =>
      obtain ⟨i, hi, hword, hzero⟩ := hunprinted
      exact ⟨i, hi, hword, fun _ => hzero⟩
  | uint160 form =>
    cases form with
    | boolLiteral | number | negative => cases hkeeps
    | unprinted =>
      obtain ⟨i, hi, hword, hzero⟩ := hunprinted
      exact ⟨i, hi, hword, fun _ => hzero⟩
    | typed ty starts =>
      have hlt : ¬ bytes ≤ 20 := of_decide_eq_false hkeeps
      refine ⟨20, by omega, by decide, fun value => ?_⟩
      rw [SlotText.word, SolForm.converted, byteOf_setWidth 160 value 20 rfl, if_neg (by decide)]

/-! ### The emitted sequence -/

/-- An entry of a `with` clause: the field and the form of its value. -/
structure InitEntry where
  fieldName : String
  form : SolForm

/-- An entry with the value that it gives. -/
structure Given extends InitEntry where
  value : BitVec 256

/-- What is emitted for one entry, with the value of the printed expression in place of its text. -/
inductive SeedStep where
  | comment
  | store (slot : ℕ) (val : BitVec 256)
  | patch (slot : ℕ) (lowMask : BitVec 128) (bitOffset : ℕ) (val : BitVec 256)

/-- The mask of a packed member, computed in `u128`. -/
def lowMask (bitSize : ℕ) : BitVec 128 :=
  if 128 ≤ bitSize then BitVec.allOnes 128 else (1#128 <<< bitSize) - 1#128

def SeedStep.run : SeedStep → Storage → Storage
  | .comment, σ => σ
  | .store slot val, σ => Function.update σ slot val
  | .patch slot lowMask bitOffset val, σ =>
      let camMask := ~~~(lowMask.setWidth 256 <<< bitOffset)
      let camCleared := σ slot &&& camMask
      let camPlaced := (val &&& lowMask.setWidth 256) <<< bitOffset
      Function.update σ slot (camCleared ||| camPlaced)

def runSteps (steps : List SeedStep) (σ : Storage) : Storage :=
  steps.foldl (fun σ step => step.run σ) σ

section Emitted

variable (entity : Entity) (layout : List SlotInfo)

def findMember (name : String) : Option Member := entity.members.find? (·.name == name)

/-- The entry of the layout that a field is stored through; a comment is all that is emitted for a
field without one. -/
def seedSlot (name : String) : Option SlotInfo :=
  if (findMember entity name).any (·.isIdentity) then none
  else (layout.find? (·.name == name)).filter fun info =>
    info.kind != .dynamicArray && info.kind != .mapping

def seedText (e : InitEntry) : SlotText :=
  vmStoreSlotValue e.form (findMember entity e.fieldName)

/-- One round of the loop; `none` is a text that the compiler rejects. -/
def genEntry (g : Given) : Option SeedStep :=
  match seedSlot entity layout g.fieldName with
  | none => some .comment
  | some info =>
      if (seedText entity g.toInitEntry).accepted then
        let val := (seedText entity g.toInitEntry).word g.value
        if isExclusive layout info then some (.store info.slot val)
        else some (.patch info.slot (lowMask (8 * info.size)) (8 * info.offset) val)
      else none

/-- `gen_state_init`. -/
def genStateInit (gs : List Given) : Option (List SeedStep) := gs.mapM (genEntry entity layout)

/-! ### The bytes that a step writes -/

/-- Where the bytes begin that seeding a field writes, and how many they are. -/
def writtenBytes (name : String) : Option (ℕ × ℕ) :=
  (seedSlot entity layout name).map fun info =>
    if isExclusive layout info then (32 * info.slot, 32)
    else (info.start, min info.size 16)

def Touches (name : String) (p : ℕ) : Prop :=
  ∃ r, writtenBytes entity layout name = some r ∧ r.1 ≤ p ∧ p < r.1 + r.2

/-- The byte that an entry writes at a place. -/
def byteWritten (p : ℕ) (g : Given) : Option (BitVec 8) :=
  (writtenBytes entity layout g.fieldName).bind fun r =>
    if r.1 ≤ p ∧ p < r.1 + r.2 then
      some (byteOf ((seedText entity g.toInitEntry).word g.value) (p - r.1))
    else none

end Emitted

theorem lowMask_getLsbD (bitSize k : ℕ) :
    (lowMask bitSize).getLsbD k = decide (k < min bitSize 128) := by
  rw [lowMask]
  split
  · rw [BitVec.getLsbD_allOnes]
    exact decide_eq_decide.mpr (by omega)
  · have hlt : bitSize < 128 := by omega
    have hone : (1 : ℕ) < 2 ^ 128 := by decide
    have hpow : 2 ^ bitSize < 2 ^ 128 := Nat.pow_lt_pow_right (by decide) hlt
    have hpos : 0 < 2 ^ bitSize := Nat.two_pow_pos bitSize
    have hnat : ((1#128 <<< bitSize) - 1#128).toNat = 2 ^ bitSize - 1 := by
      have hshift : (1#128 <<< bitSize).toNat = 2 ^ bitSize := by
        rw [BitVec.toNat_shiftLeft, BitVec.toNat_ofNat, Nat.mod_eq_of_lt hone, Nat.shiftLeft_eq,
          Nat.one_mul, Nat.mod_eq_of_lt hpow]
      rw [BitVec.toNat_sub_of_le, hshift]
      · rfl
      · rw [BitVec.le_def, hshift]
        exact hpos
    rw [BitVec.getLsbD, hnat, Nat.testBit_two_pow_sub_one]
    exact decide_eq_decide.mpr (by omega)

/-- What a patch leaves in the bytes of its word. -/
theorem byteOf_patched (word val : BitVec 256) {offset size i : ℕ} (hi : i < 32) :
    byteOf ((word &&& ~~~((lowMask (8 * size)).setWidth 256 <<< (8 * offset))) |||
        ((val &&& (lowMask (8 * size)).setWidth 256) <<< (8 * offset))) i =
      if offset ≤ i ∧ i < offset + min size 16 then byteOf val (i - offset) else byteOf word i := by
  apply BitVec.eq_of_getLsbD_eq
  intro k hk
  have hlt : 8 * i + k < 256 := by omega
  have hmask : ((lowMask (8 * size)).setWidth 256).getLsbD (8 * i + k - 8 * offset) =
      decide (8 * i + k - 8 * offset < min (8 * size) 128) := by
    rw [BitVec.getLsbD_setWidth, lowMask_getLsbD, decide_eq_true (show _ < 256 by omega),
      Bool.true_and]
  rw [byteOf_getLsbD, BitVec.getLsbD_or, BitVec.getLsbD_and, BitVec.getLsbD_not,
    BitVec.getLsbD_shiftLeft, BitVec.getLsbD_shiftLeft, BitVec.getLsbD_and, hmask,
    decide_eq_true hk, decide_eq_true hlt]
  by_cases hbefore : 8 * i + k < 8 * offset
  · rw [if_neg (by omega), byteOf_getLsbD, decide_eq_true hbefore, decide_eq_true hk]
    simp
  · rw [decide_eq_false hbefore]
    by_cases hin : 8 * i + k - 8 * offset < min (8 * size) 128
    · rw [if_pos (by omega), byteOf_getLsbD, decide_eq_true hin, decide_eq_true hk,
        show 8 * (i - offset) + k = 8 * i + k - 8 * offset by omega]
      simp
    · rw [if_neg (by omega), byteOf_getLsbD, decide_eq_false hin, decide_eq_true hk]
      simp

theorem within_slot {entity : Entity} {deterministic : Bool} {programRecords : List Record}
    {programEnums : List EnumDecl} {fuel : ℕ} {layout : List SlotInfo}
    (hlayout : computeLayoutWithRecords entity deterministic programRecords programEnums fuel =
      some layout) {info : SlotInfo} (hinfo : info ∈ layout) (hvalue : info.kind = .value) :
    info.offset + info.size ≤ 32 := by
  obtain ⟨counted, -, rfl⟩ := computeLayout_eq_placed hlayout
  obtain ⟨x, hx, rfl⟩ := List.mem_map.mp hinfo
  obtain ⟨-, q, hstart⟩ := mem_layOut hx
  obtain ⟨⟨name, ty, kind, size, room, counts⟩, start⟩ := x
  simp only [Counted.entry] at hstart hvalue ⊢
  subst hvalue
  cases counts with
  | value hpos hle =>
    rw [hstart]
    exact part_start_mod hle q

section Runs

variable {entity : Entity} {deterministic : Bool} {programRecords : List Record}
  {programEnums : List EnumDecl} {fuel : ℕ} {layout : List SlotInfo}

theorem value_of_seedSlot {name : String} {info : SlotInfo}
    (hslot : seedSlot entity layout name = some info) (hshared : isExclusive layout info = false) :
    info ∈ layout ∧ info.kind = .value := by
  rw [seedSlot] at hslot
  split_ifs at hslot
  obtain ⟨hfind, hkind⟩ := Option.filter_eq_some_iff.mp hslot
  refine ⟨List.mem_of_find?_eq_some hfind, ?_⟩
  rw [Bool.and_eq_true, bne_iff_ne, bne_iff_ne] at hkind
  rw [isExclusive, Bool.or_eq_false_iff, Bool.or_eq_false_iff] at hshared
  cases hcase : info.kind with
  | value => rfl
  | mapping => exact absurd hcase hkind.2
  | dynamicArray => exact absurd hcase hkind.1
  | struct =>
    have hstruct := hshared.1.2
    rw [hcase] at hstruct
    cases hstruct

/-- One entry: its bytes are written, every other byte stays. -/
theorem byteAt_run
    (hlayout : computeLayoutWithRecords entity deterministic programRecords programEnums fuel =
      some layout) {g : Given} {step : SeedStep} (hstep : genEntry entity layout g = some step)
    (σ : Storage) (p : ℕ) :
    byteAt (step.run σ) p = (byteWritten entity layout p g).getD (byteAt σ p) := by
  rw [genEntry] at hstep
  rw [byteWritten, writtenBytes]
  cases hslot : seedSlot entity layout g.fieldName with
  | none =>
    rw [hslot] at hstep
    cases hstep
    rfl
  | some info =>
    simp only [hslot] at hstep
    split_ifs at hstep with haccepted hexclusive
    · cases hstep
      rw [Option.map_some, Option.bind_some, if_pos hexclusive, SeedStep.run, byteAt_update]
      by_cases hin : p / 32 = info.slot
      · rw [if_pos hin, if_pos (by omega), Option.getD_some]
        congr 1
        omega
      · rw [if_neg hin, if_neg (by omega)]
        rfl
    · cases hstep
      have hshared : isExclusive layout info = false := Bool.eq_false_iff.mpr hexclusive
      obtain ⟨hmem, hvalue⟩ := value_of_seedSlot hslot hshared
      have hwithin := within_slot hlayout hmem hvalue
      rw [Option.map_some, Option.bind_some, if_neg hexclusive, SeedStep.run, byteAt_update,
        SlotInfo.start]
      by_cases hin : p / 32 = info.slot
      · rw [if_pos hin, byteOf_patched _ _ (Nat.mod_lt p (by decide))]
        by_cases hbytes : info.offset ≤ p % 32 ∧ p % 32 < info.offset + min info.size 16
        · rw [if_pos hbytes, if_pos (by omega), Option.getD_some]
          congr 1
          omega
        · rw [if_neg hbytes, if_neg (by omega), ← hin]
          rfl
      · rw [if_neg hin, if_neg (by omega)]
        rfl

/-- The whole sequence: a byte holds what the entries write over it one after the other. -/
theorem byteAt_runSteps
    (hlayout : computeLayoutWithRecords entity deterministic programRecords programEnums fuel =
      some layout) (p : ℕ) (gs : List Given) : ∀ {steps : List SeedStep},
    genStateInit entity layout gs = some steps → ∀ σ : Storage,
      byteAt (runSteps steps σ) p =
        gs.foldl (fun b g => (byteWritten entity layout p g).getD b) (byteAt σ p) := by
  induction gs with
  | nil =>
    intro steps hsteps σ
    cases hsteps
    rfl
  | cons g gs ih =>
    intro steps hsteps σ
    rw [genStateInit, List.mapM_cons] at hsteps
    obtain ⟨step, hstep, hrest⟩ := Option.bind_eq_some_iff.mp hsteps
    obtain ⟨rest, hgs, hrest⟩ := Option.bind_eq_some_iff.mp hrest
    cases hrest
    rw [List.foldl_cons, ← byteAt_run hlayout hstep σ p]
    exact ih hgs (step.run σ)

theorem byteWritten_eq_none {p : ℕ} {g : Given} (h : ¬ Touches entity layout g.fieldName p) :
    byteWritten entity layout p g = none := by
  rw [byteWritten]
  cases hwritten : writtenBytes entity layout g.fieldName with
  | none => rfl
  | some r => exact if_neg fun hr => h ⟨r, hwritten, hr⟩

end Runs

/-! ### Writing over -/

section Overwrite

variable {α β : Type*} (write : α → Option β)

theorem foldl_unwritten {xs : List α} (h : ∀ x ∈ xs, write x = none) (b : β) :
    xs.foldl (fun b x => (write x).getD b) b = b := by
  induction xs with
  | nil => rfl
  | cons x xs ih =>
    rw [List.foldl_cons, h x List.mem_cons_self]
    exact ih fun y hy => h y (List.mem_cons_of_mem x hy)

theorem foldl_written {pre post : List α} {x : α} {c : β} (hx : write x = some c)
    (hpost : ∀ y ∈ post, write y = none) (b : β) :
    (pre ++ x :: post).foldl (fun b x => (write x).getD b) b = c := by
  rw [List.foldl_append, List.foldl_cons, hx]
  exact foldl_unwritten write hpost c

/-- Either nothing writes or something is the last that does. -/
theorem unwritten_or_last (xs : List α) :
    (∀ x ∈ xs, write x = none) ∨
      ∃ pre x post c, xs = pre ++ x :: post ∧ write x = some c ∧ ∀ y ∈ post, write y = none := by
  induction xs with
  | nil => exact Or.inl fun x hx => absurd hx List.not_mem_nil
  | cons x xs ih =>
    rcases ih with hnone | ⟨pre, y, post, c, rfl, hy, hpost⟩
    · cases hx : write x with
      | none => exact Or.inl fun y hy => (List.mem_cons.mp hy).elim (fun h => h ▸ hx) (hnone y)
      | some c => exact Or.inr ⟨[], x, xs, c, rfl, hx, hnone⟩
    · exact Or.inr ⟨x :: pre, y, post, c, rfl, hy, hpost⟩

end Overwrite

/-! ### Exactly the named members -/

/-- A byte of storage belongs to a variable. -/
def Within (x : Variable × ℕ) (p : ℕ) : Prop := x.2 ≤ p ∧ p < x.2 + x.1.room.bytes

def Holds (σ : Storage) (x : Variable × ℕ) (value : BitVec 256) : Prop :=
  ∀ i < x.1.room.bytes, byteAt σ (x.2 + i) = byteOf value i

/-- The value is one of the type of the variable. -/
def IsValue (g : Given) (x : Variable × ℕ) : Prop :=
  g.value.toNat < 256 ^ x.1.room.bytes ∧ (g.form = .boolLiteral → g.value.toNat ≤ 1)

/-- The entries name scalars, and a literal of `bool` is given for one of a single byte. -/
def ScalarEntries (vars : List (Variable × ℕ)) (entries : List InitEntry) : Prop :=
  ∀ e ∈ entries, ∃ n, 0 < n ∧ n ≤ 32 ∧ (e.form = .boolLiteral → n = 1) ∧
    ∀ x ∈ vars, x.1.name = e.fieldName → x.1.room = .plain (.part n)

/-- What seeding leaves: a named variable holds the value that was given for it last, the bytes of
any other variable are those from before. -/
structure Seeded (vars : List (Variable × ℕ)) (gs : List Given) (σ σ' : Storage) : Prop where
  named : ∀ pre g post, gs = pre ++ g :: post → (∀ h ∈ post, h.fieldName ≠ g.fieldName) →
    ∀ x ∈ vars, x.1.name = g.fieldName → Holds σ' x g.value
  others : ∀ x ∈ vars, (∀ g ∈ gs, g.fieldName ≠ x.1.name) → ∀ p, Within x p →
    byteAt σ' p = byteAt σ p

section Exact

variable (entity : Entity) (layout : List SlotInfo) (vars : List (Variable × ℕ))
  (entries : List InitEntry)

/-- Seeding these fields, with values printed in these forms, is accepted by the compiler and writes
exactly the named members, whatever the values and the storage. -/
def SeedsExactly : Prop :=
  ∀ gs : List Given, gs.map Given.toInitEntry = entries →
    (∀ g ∈ gs, ∀ x ∈ vars, x.1.name = g.fieldName → IsValue g x) →
    ∀ σ, ∃ steps, genStateInit entity layout gs = some steps ∧
      Seeded vars gs σ (runSteps steps σ)

/-- When that is so. -/
structure Seedable : Prop where
  /-- The compiler takes the text of every value that is stored. -/
  accepted : ∀ e ∈ entries, (seedSlot entity layout e.fieldName).isSome = true →
    (seedText entity e).accepted = true
  /-- The bytes written for a variable begin where it does and are no fewer. -/
  placed : ∀ pre e post, entries = pre ++ e :: post → (∀ d ∈ post, d.fieldName ≠ e.fieldName) →
    ∀ x ∈ vars, x.1.name = e.fieldName →
      (∃ len, writtenBytes entity layout e.fieldName = some (x.2, len) ∧ x.1.room.bytes ≤ len) ∧
        (seedText entity e).keeps x.1.room.bytes = true
  /-- What is written later lies elsewhere. -/
  kept : ∀ pre e post, entries = pre ++ e :: post → (∀ d ∈ post, d.fieldName ≠ e.fieldName) →
    ∀ x ∈ vars, x.1.name = e.fieldName →
      ∀ d ∈ post, ∀ p, Within x p → ¬ Touches entity layout d.fieldName p
  /-- No byte of a variable that is not named is written. -/
  others : ∀ x ∈ vars, (∀ e ∈ entries, e.fieldName ≠ x.1.name) →
    ∀ e ∈ entries, ∀ p, Within x p → ¬ Touches entity layout e.fieldName p

end Exact

theorem exists_byteAt (p : ℕ) (b : BitVec 8) : ∃ σ : Storage, byteAt σ p = b := by
  refine ⟨fun _ => b.setWidth 256 <<< (8 * (p % 32)), ?_⟩
  have hp : p % 32 < 32 := Nat.mod_lt p (by decide)
  apply BitVec.eq_of_getLsbD_eq
  intro k hk
  rw [byteAt, byteOf_getLsbD, BitVec.getLsbD_shiftLeft, BitVec.getLsbD_setWidth, decide_eq_true hk,
    decide_eq_true (show 8 * (p % 32) + k < 256 by omega),
    decide_eq_false (show ¬ 8 * (p % 32) + k < 8 * (p % 32) by omega),
    decide_eq_true (show 8 * (p % 32) + k - 8 * (p % 32) < 256 by omega), Nat.add_sub_cancel_left]
  simp

def InitEntry.zeroed (e : InitEntry) : Given := { e with value := 0 }

section Exactness

variable {entity : Entity} {programRecords : List Record} {programEnums : List EnumDecl} {fuel : ℕ}
  {deterministic : Bool} {layout : List SlotInfo} {vars : List (Variable × ℕ)}
  {entries : List InitEntry}

theorem isValue_zeroed (e : InitEntry) (x : Variable × ℕ) : IsValue e.zeroed x :=
  ⟨Nat.pow_pos (by decide), fun _ => Nat.zero_le 1⟩

theorem map_zeroed (es : List InitEntry) :
    (es.map InitEntry.zeroed).map Given.toInitEntry = es := by
  rw [List.map_map]
  exact List.map_id es

/-- What is written with the value zero is zero. -/
theorem byteWritten_zeroed {es : List InitEntry} {g : Given} (hg : g ∈ es.map InitEntry.zeroed)
    {p : ℕ} {c : BitVec 8} (hc : byteWritten entity layout p g = some c) : c = 0 := by
  obtain ⟨e, -, rfl⟩ := List.mem_map.mp hg
  obtain ⟨r, -, hr⟩ := Option.bind_eq_some_iff.mp hc
  split_ifs at hr
  cases hr
  exact byteOf_word_zero _ (byteOf_zero _)

theorem byteWritten_of_touches {g : Given} {p : ℕ} (h : Touches entity layout g.fieldName p) :
    ∃ c, byteWritten entity layout p g = some c := by
  obtain ⟨r, hr, hin⟩ := h
  rw [byteWritten, hr, Option.bind_some, if_pos hin]
  exact ⟨_, rfl⟩

section Necessary

variable (hexact : SeedsExactly entity layout vars entries)
include hexact

theorem accepted_of_exact {e : InitEntry} (he : e ∈ entries)
    (hslot : (seedSlot entity layout e.fieldName).isSome = true) :
    (seedText entity e).accepted = true := by
  obtain ⟨steps, hsteps, -⟩ := hexact (entries.map InitEntry.zeroed) (map_zeroed entries)
    (fun g hg x _ _ => by
      obtain ⟨d, -, rfl⟩ := List.mem_map.mp hg
      exact isValue_zeroed d x) (fun _ => 0)
  obtain ⟨step, -, hstep⟩ := (MapM.mem_of_mapM hsteps).1 e.zeroed (List.mem_map_of_mem he)
  obtain ⟨info, hinfo⟩ := Option.isSome_iff_exists.mp hslot
  have hslot' : seedSlot entity layout e.zeroed.fieldName = some info := hinfo
  simp only [genEntry, hslot'] at hstep
  split_ifs at hstep with haccepted
  all_goals exact haccepted

variable (hlayout : computeLayoutWithRecords entity deterministic programRecords programEnums fuel =
    some layout)
include hlayout

theorem others_of_exact {x : Variable × ℕ} (hx : x ∈ vars)
    (hother : ∀ e ∈ entries, e.fieldName ≠ x.1.name) {e : InitEntry} (he : e ∈ entries) {p : ℕ}
    (hp : Within x p) : ¬ Touches entity layout e.fieldName p := by
  intro htouch
  have hkept : ∀ b : BitVec 8, b = 0 := by
    intro b
    obtain ⟨σ, hσ⟩ := exists_byteAt p b
    obtain ⟨steps, hsteps, hseeded⟩ := hexact (entries.map InitEntry.zeroed) (map_zeroed entries)
      (fun g hg x _ _ => by
        obtain ⟨d, -, rfl⟩ := List.mem_map.mp hg
        exact isValue_zeroed d x) σ
    have hbyte := hseeded.others x hx (fun g hg => by
      obtain ⟨d, hd, rfl⟩ := List.mem_map.mp hg
      exact hother d hd) p hp
    rw [byteAt_runSteps hlayout p _ hsteps, hσ] at hbyte
    rcases unwritten_or_last (byteWritten entity layout p) (entries.map InitEntry.zeroed) with
      hnone | ⟨pre, g, post, c, hsplit, hc, hpost⟩
    · obtain ⟨c, hc⟩ := byteWritten_of_touches (g := e.zeroed) htouch
      rw [hnone e.zeroed (List.mem_map_of_mem he)] at hc
      cases hc
    · rw [hsplit, foldl_written _ hc hpost] at hbyte
      rw [← hbyte]
      exact byteWritten_zeroed (hsplit ▸ List.mem_append_right pre List.mem_cons_self) hc
  have hone := hkept 1
  cases hone

/-- The last entry for a variable writes each byte of it, and nothing writes there afterwards. -/
theorem last_of_exact {pre post : List InitEntry} {e : InitEntry} (hsplit : entries = pre ++ e :: post)
    (hlast : ∀ d ∈ post, d.fieldName ≠ e.fieldName) {x : Variable × ℕ} (hx : x ∈ vars)
    (hname : x.1.name = e.fieldName) {i : ℕ} (hi : i < x.1.room.bytes) (hword : i < 32)
    (hvalue : ∀ y ∈ vars, y.1.name = e.fieldName → IsValue { e with value := unit i } y) :
    (∀ d ∈ post, ¬ Touches entity layout d.fieldName (x.2 + i)) ∧
      ∃ len, writtenBytes entity layout e.fieldName = some (x.2, len) ∧ i < len ∧
        byteOf ((seedText entity e).word (unit i)) i = byteOf (unit i) i := by
  have hgs : (pre.map InitEntry.zeroed ++ { e with value := unit i } ::
      post.map InitEntry.zeroed).map Given.toInitEntry = entries := by
    rw [List.map_append, List.map_cons, map_zeroed, map_zeroed, hsplit]
  have hbyte : ∀ σ : Storage,
      (pre.map InitEntry.zeroed ++ { e with value := unit i } :: post.map InitEntry.zeroed).foldl
        (fun b g => (byteWritten entity layout (x.2 + i) g).getD b) (byteAt σ (x.2 + i)) =
        byteOf (unit i) i := by
    intro σ
    obtain ⟨steps, hsteps, hseeded⟩ := hexact _ hgs (fun g hg y hy hgy => by
      rcases List.mem_append.mp hg with hg | hg
      · obtain ⟨d, -, rfl⟩ := List.mem_map.mp hg
        exact isValue_zeroed d y
      · rcases List.mem_cons.mp hg with rfl | hg
        · exact hvalue y hy hgy
        · obtain ⟨d, -, rfl⟩ := List.mem_map.mp hg
          exact isValue_zeroed d y) σ
    rw [← byteAt_runSteps hlayout _ _ hsteps]
    exact hseeded.named _ _ _ rfl (fun h hh => by
      obtain ⟨d, hd, rfl⟩ := List.mem_map.mp hh
      exact hlast d hd) x hx hname i hi
  have hunit := byteOf_unit hword
  have hafter : ∀ g ∈ post.map InitEntry.zeroed, byteWritten entity layout (x.2 + i) g = none := by
    rcases unwritten_or_last (byteWritten entity layout (x.2 + i)) (post.map InitEntry.zeroed) with
      hnone | ⟨before, g, rest, c, hpost, hc, hrest⟩
    · exact hnone
    · exfalso
      have hfinal := hbyte (fun _ => 0)
      rw [hpost, ← List.cons_append, ← List.append_assoc, foldl_written _ hc hrest] at hfinal
      refine hunit (hfinal.symm.trans ?_)
      exact byteWritten_zeroed (hpost ▸ List.mem_append_right before List.mem_cons_self) hc
  refine ⟨fun d hd htouch => ?_, ?_⟩
  · obtain ⟨c, hc⟩ := byteWritten_of_touches (g := d.zeroed) htouch
    rw [hafter d.zeroed (List.mem_map_of_mem hd)] at hc
    cases hc
  cases hown : byteWritten entity layout (x.2 + i) { e with value := unit i } with
  | none =>
    exfalso
    obtain ⟨σ, hσ⟩ := exists_byteAt (x.2 + i) 0
    have hfinal := hbyte σ
    rw [List.foldl_append, List.foldl_cons, hown, foldl_unwritten _ hafter, Option.getD_none, hσ]
      at hfinal
    rcases unwritten_or_last (byteWritten entity layout (x.2 + i)) (pre.map InitEntry.zeroed) with
      hnone | ⟨before, g, rest, c, hpre, hc, hrest⟩
    · rw [foldl_unwritten _ hnone] at hfinal
      exact hunit hfinal.symm
    · rw [hpre, foldl_written _ hc hrest] at hfinal
      refine hunit (hfinal.symm.trans ?_)
      exact byteWritten_zeroed (hpre ▸ List.mem_append_right before List.mem_cons_self) hc
  | some c =>
    have hfinal := hbyte (fun _ => 0)
    rw [foldl_written _ hown hafter] at hfinal
    obtain ⟨⟨base, len⟩, hwritten, hr⟩ := Option.bind_eq_some_iff.mp hown
    split_ifs at hr with hin
    cases hr
    have hplace : x.2 + i - base = i := by
      by_contra hne
      refine hunit (hfinal.symm.trans ?_)
      exact byteOf_word_zero _ (byteOf_unit_of_ne hne)
    simp only at hin
    rw [hplace] at hfinal
    obtain rfl : base = x.2 := by omega
    exact ⟨len, hwritten, by omega, hfinal⟩

end Necessary

/-- What every byte of an entry's variables says of the entry. -/
theorem placed_of_exact
    (hlayout : computeLayoutWithRecords entity deterministic programRecords programEnums fuel =
      some layout) (hscalar : ScalarEntries vars entries)
    (hexact : SeedsExactly entity layout vars entries) {pre post : List InitEntry} {e : InitEntry}
    (hsplit : entries = pre ++ e :: post) (hlast : ∀ d ∈ post, d.fieldName ≠ e.fieldName)
    {x : Variable × ℕ} (hx : x ∈ vars) (hname : x.1.name = e.fieldName) :
    ((∃ len, writtenBytes entity layout e.fieldName = some (x.2, len) ∧ x.1.room.bytes ≤ len) ∧
        (seedText entity e).keeps x.1.room.bytes = true) ∧
      ∀ d ∈ post, ∀ p, Within x p → ¬ Touches entity layout d.fieldName p := by
  have he : e ∈ entries := hsplit ▸ List.mem_append_right pre List.mem_cons_self
  obtain ⟨n, hpos, hle, hbool, hroom⟩ := hscalar e he
  have hsize : ∀ y ∈ vars, y.1.name = e.fieldName → y.1.room.bytes = n := by
    intro y hy hnamed
    rw [hroom y hy hnamed]
    rfl
  have hbytes := hsize x hx hname
  have hbyte : ∀ i < n, (∀ d ∈ post, ¬ Touches entity layout d.fieldName (x.2 + i)) ∧
      ∃ len, writtenBytes entity layout e.fieldName = some (x.2, len) ∧ i < len ∧
        byteOf ((seedText entity e).word (unit i)) i = byteOf (unit i) i := by
    intro i hi
    refine last_of_exact hexact hlayout hsplit hlast hx hname (hbytes ▸ hi) (by omega) ?_
    intro y hy hnamed
    refine ⟨?_, fun hform => ?_⟩
    · rw [hsize y hy hnamed]
      exact unit_toNat_lt hi
    · obtain rfl : i = 0 := by
        have hone := hbool hform
        omega
      exact Nat.le_refl 1
  have hend : n - 1 < n := by omega
  obtain ⟨len, hwritten, hlen, -⟩ := (hbyte (n - 1) hend).2
  rw [hbytes]
  refine ⟨⟨⟨len, hwritten, by omega⟩, ?_⟩, ?_⟩
  · by_contra hcut
    obtain ⟨i, hi, hword, hzero⟩ := byteOf_word_cut hpos (Bool.eq_false_iff.mpr hcut)
    obtain ⟨-, -, -, hkept⟩ := (hbyte i hi).2
    exact byteOf_unit hword (hkept.symm.trans (hzero (unit i)))
  · rintro d hd p ⟨hge, hlt⟩
    rw [hbytes] at hlt
    have hmissed := (hbyte (p - x.2) (by omega)).1 d hd
    rwa [Nat.add_sub_cancel' hge] at hmissed

theorem seedable_of_exact
    (hlayout : computeLayoutWithRecords entity deterministic programRecords programEnums fuel =
      some layout) (hscalar : ScalarEntries vars entries)
    (hexact : SeedsExactly entity layout vars entries) : Seedable entity layout vars entries where
  accepted _ := accepted_of_exact hexact
  placed _ _ _ hsplit hlast _ hx hname :=
    (placed_of_exact hlayout hscalar hexact hsplit hlast hx hname).1
  kept _ _ _ hsplit hlast _ hx hname :=
    (placed_of_exact hlayout hscalar hexact hsplit hlast hx hname).2
  others _ hx hother _ he _ := others_of_exact hexact hlayout hx hother he

theorem exact_of_seedable
    (hlayout : computeLayoutWithRecords entity deterministic programRecords programEnums fuel =
      some layout) (hscalar : ScalarEntries vars entries)
    (hseedable : Seedable entity layout vars entries) : SeedsExactly entity layout vars entries := by
  intro gs hgs hvalues σ
  have hmem : ∀ g ∈ gs, g.toInitEntry ∈ entries := by
    intro g hg
    rw [← hgs]
    exact List.mem_map_of_mem hg
  obtain ⟨steps, hsteps⟩ : ∃ steps, genStateInit entity layout gs = some steps := by
    refine MapM.mapM_returns.mpr fun g hg => ?_
    rw [genEntry]
    cases hslot : seedSlot entity layout g.fieldName with
    | none => exact ⟨_, rfl⟩
    | some info =>
      have haccepted := hseedable.accepted g.toInitEntry (hmem g hg) (by rw [hslot]; rfl)
      simp only [haccepted, if_true]
      split
      · exact ⟨_, rfl⟩
      · exact ⟨_, rfl⟩
  refine ⟨steps, hsteps, ?_, ?_⟩
  · rintro pre g post rfl hlast x hx hname i hi
    have hsplit : entries = pre.map Given.toInitEntry ++ g.toInitEntry ::
        post.map Given.toInitEntry := by
      rw [← hgs, List.map_append, List.map_cons]
    have hlast' : ∀ d ∈ post.map Given.toInitEntry, d.fieldName ≠ g.fieldName := by
      intro d hd
      obtain ⟨h, hh, rfl⟩ := List.mem_map.mp hd
      exact hlast h hh
    obtain ⟨⟨len, hwritten, hlen⟩, hkeeps⟩ := hseedable.placed _ _ _ hsplit hlast' x hx hname
    have hkept := hseedable.kept _ _ _ hsplit hlast' x hx hname
    obtain ⟨n, -, hle, -, hroom⟩ := hscalar g.toInitEntry
      (hmem g (List.mem_append_right pre List.mem_cons_self))
    have hbytes : x.1.room.bytes ≤ 32 := by
      rw [hroom x hx hname]
      exact hle
    have hown : byteWritten entity layout (x.2 + i) g = some (byteOf g.value i) := by
      rw [byteWritten, hwritten, Option.bind_some, if_pos ⟨by omega, by omega⟩,
        Nat.add_sub_cancel_left, byteOf_word_keeps hkeeps hbytes g.value hi]
    have hpost : ∀ h ∈ post, byteWritten entity layout (x.2 + i) h = none := by
      intro h hh
      exact byteWritten_eq_none
        (hkept h.toInitEntry (List.mem_map_of_mem hh) (x.2 + i) ⟨by omega, by omega⟩)
    rw [byteAt_runSteps hlayout _ _ hsteps]
    exact foldl_written _ hown hpost _
  · intro x hx hother p hp
    have hnone : ∀ g ∈ gs, byteWritten entity layout p g = none := by
      intro g hg
      refine byteWritten_eq_none (hseedable.others x hx ?_ g.toInitEntry (hmem g hg) p hp)
      intro e he
      rw [← hgs] at he
      obtain ⟨h, hh, rfl⟩ := List.mem_map.mp he
      exact hother h hh
    rw [byteAt_runSteps hlayout _ _ hsteps]
    exact foldl_unwritten _ hnone _

end Exactness

/-- What the seeding reads and where it goes: the layout is computed without the flag
`_initialized`, and the contract that is deployed is the deterministic build. -/
structure Deployed (program : Program) (entity : Entity) (sidecars : Sidecars) (fuel : ℕ)
    (layout : List SlotInfo) (vars : List (Variable × ℕ)) : Prop where
  layout : computeLayoutWithRecords entity false program.records program.enums fuel = some layout
  vars : (emittedVariables program entity sidecars fuel true).map assignedStorage = some vars

/-- **Seeding writes exactly the named members** when the compiler takes every value, the bytes
written for a member begin where the deployed contract has it and are no fewer than its own, and
they reach neither a member that is not named nor one that an earlier entry has set; and only
then. -/
theorem seedsExactly_iff {program : Program} {entity : Entity} {sidecars : Sidecars} {fuel : ℕ}
    {layout : List SlotInfo} {vars : List (Variable × ℕ)} {entries : List InitEntry}
    (hdeployed : Deployed program entity sidecars fuel layout vars)
    (hscalar : ScalarEntries vars entries) :
    SeedsExactly entity layout vars entries ↔ Seedable entity layout vars entries :=
  ⟨seedable_of_exact hdeployed.layout hscalar, exact_of_seedable hdeployed.layout hscalar⟩

/-- A counter and the total of the ledger are seeded. -/
theorem seedsExactly_ledger :
    let entries : List InitEntry := [⟨"m_count", .number⟩, ⟨"m_total", .typed (.uint 256) false⟩]
    let layout : List SlotInfo := [⟨"m_admin", some (.simple "address"), 0, 0, 20, .value⟩,
      ⟨"m_count", some (.simple "u64"), 0, 20, 8, .value⟩,
      ⟨"m_balances", some (.generic "HashMap" [.simple "address", .simple "U256"]), 1, 0, 32,
        .mapping⟩,
      ⟨"m_total", some (.simple "U256"), 2, 0, 32, .value⟩]
    SeedsExactly ledger layout (assignedStorage ledgerVariables) entries ↔
      Seedable ledger layout (assignedStorage ledgerVariables) entries := by
  intro entries layout
  have hdeployed : Deployed bareProgram ledger noSidecars 1 layout
      (assignedStorage ledgerVariables) := ⟨rfl, rfl⟩
  refine seedsExactly_iff hdeployed ?_
  intro e he
  rcases List.mem_cons.mp he with rfl | he
  · exact ⟨8, by decide, by decide, nofun, by decide⟩
  · rw [List.mem_singleton.mp he]
    exact ⟨32, by decide, by decide, nofun, by decide⟩

/-- An owner and a flag in one slot. -/
def owned : Entity :=
  { syntheticEntity "Owned" with
    members := [plainMember "m_owner" (.simple "address") false,
      plainMember "m_flag" (.simple "bool") false] }

/-- The mask of the owner has 128 bits, so 4 of its 20 bytes are never written. -/
theorem owner_seeded_in_part :
    ∃ layout vars, Deployed bareProgram owned noSidecars 1 layout vars ∧
      ScalarEntries vars [⟨"m_owner", .typed .address false⟩] ∧
      ¬ SeedsExactly owned layout vars [⟨"m_owner", .typed .address false⟩] := by
  have hscalar : ScalarEntries
      [(⟨"m_owner", .plain (.part 20)⟩, 0), (⟨"m_flag", .plain (.part 1)⟩, 20)]
      [⟨"m_owner", .typed .address false⟩] := by
    intro e he
    rw [List.mem_singleton.mp he]
    exact ⟨20, by decide, by decide, nofun, by decide⟩
  refine ⟨[⟨"m_owner", some (.simple "address"), 0, 0, 20, .value⟩,
      ⟨"m_flag", some (.simple "bool"), 0, 20, 1, .value⟩], _, ⟨rfl, rfl⟩, hscalar, ?_⟩
  intro hexact
  have hlayout : computeLayoutWithRecords owned false [] [] 1 = some _ := rfl
  have hplaced := placed_of_exact hlayout hscalar hexact (List.nil_append _).symm nofun
    List.mem_cons_self rfl
  obtain ⟨⟨⟨len, hwritten, hlen⟩, -⟩, -⟩ := hplaced
  have hmask : writtenBytes owned
      [⟨"m_owner", some (.simple "address"), 0, 0, 20, .value⟩,
        ⟨"m_flag", some (.simple "bool"), 0, 20, 1, .value⟩] "m_owner" = some (0, 16) := by decide
  cases hmask.symm.trans hwritten
  exact absurd hlen (by decide)

end CambrianLang.Layout
