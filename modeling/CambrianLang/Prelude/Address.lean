/-
  **Entity addresses in a generated Lean project**
  (`codegen/lean/evm/address.rs`, `codegen/lean/core/types.rs`).

  For every entity the Lean back end writes a deployer, an init-code hash and a
  salt over the identity members, and passes the three to `create2Address`.  The
  file gives the Lean type each member is lowered to and the value of the three
  terms, and says when they tell two instances apart.
-/
import CambrianLang.Ast.Entity
import CambrianLang.Prelude.Axioms

namespace CambrianLang.Prelude

open Ast

/-! ### The Lean type of a member -/

/-- Bit widths of the integer primitives. -/
inductive Width
  | w8 | w16 | w32 | w64 | w128
deriving DecidableEq

def Width.bits : Width → Nat
  | .w8 => 8
  | .w16 => 16
  | .w32 => 32
  | .w64 => 64
  | .w128 => 128

/-- The type names that `lower_simple` knows. -/
inductive Primitive
  | bool
  | unsigned (w : Width)
  | signed (w : Width)
  | usize
  | isize
  | u256
  | bytes32
  | address
  | pubkey
  | bytes4
  | string
  | bytes
deriving DecidableEq

def primitiveOf : String → Option Primitive
  | "bool" => some .bool
  | "u8" => some (.unsigned .w8)
  | "u16" => some (.unsigned .w16)
  | "u32" => some (.unsigned .w32)
  | "u64" => some (.unsigned .w64)
  | "u128" => some (.unsigned .w128)
  | "i8" => some (.signed .w8)
  | "i16" => some (.signed .w16)
  | "i32" => some (.signed .w32)
  | "i64" => some (.signed .w64)
  | "i128" => some (.signed .w128)
  | "usize" => some .usize
  | "isize" => some .isize
  | "U256" | "uint256" => some .u256
  | "bytes32" => some .bytes32
  | "address" => some .address
  | "pubkey" => some .pubkey
  | "bytes4" => some .bytes4
  | "String" | "string" => some .string
  | "bytes" | "CamData" => some .bytes
  | _ => none

/-- What the names declared by the program stand for: the Lean types generated for
    records and enums (aliases resolved), and the placeholder `Unsupported`. -/
structure TypeEnv where
  named : String → Type
  Unsupported : Type

section Lowering

variable (env : TypeEnv) (nat : Bool)

/-- `lower_simple` on a known name; `nat` is `lean.numerics: nat`. -/
def Primitive.carrier : Primitive → Bool → Type
  | .bool, _ => Bool
  | .unsigned _, true => Nat
  | .unsigned w, false => BitVec w.bits
  | .signed _, true => Int
  | .signed w, false => BitVec w.bits
  | .usize, _ => Nat
  | .isize, true => Int
  | .isize, false => env.named "isize"
  | .u256, true => Nat
  | .u256, false => BitVec 256
  | .bytes32, true => Nat
  | .bytes32, false => BitVec 256
  | .address, _ => Address
  | .pubkey, _ => BitVec 256
  | .bytes4, _ => BitVec 32
  | .string, _ => String
  | .bytes, _ => List (BitVec 8)

/-- `lower_simple`. -/
def simpleCarrier (name : String) : Option Primitive → Type
  | some p => p.carrier env nat
  | none => env.named name

/-- `lower_generic`. -/
def lowerGeneric : String → List Type → Type
  | "Vec", [t] => List t
  | "HashMap", [k, v] => List (k × v)
  | "Option", [t] => Option t
  | _, _ => env.Unsupported

/-- `lower_tuple`. -/
def lowerTuple : List Type → Type
  | [] => Unit
  | [t] => t
  | t :: ts => t × lowerTuple ts

mutual
/-- `lower_type`. -/
def lowerType : Ty → Type
  | .simple name => simpleCarrier env nat name (primitiveOf name)
  | .generic name params => lowerGeneric env name (lowerTypes params)
  | .tuple elems => lowerTuple (lowerTypes elems)
  | .typedAddress _ => Address
def lowerTypes : List Ty → List Type
  | [] => []
  | t :: ts => lowerType t :: lowerTypes ts
end

/-! ### The salt -/

/-- `Cambrian.castWidth`. -/
def castWidth (n : Nat) {m : Nat} (x : BitVec m) : BitVec n := BitVec.ofNat n x.toNat

/-- The encoding of a `bool`. -/
def encodeBool (b : Bool) : BitVec 256 := if b then 1#256 else 0#256

/-- `encode_field` on a known name. -/
def Primitive.encode : (p : Primitive) → (nat : Bool) → p.carrier env nat → BitVec 256
  | .bool, _, b => encodeBool b
  | .unsigned _, true, x => BitVec.ofNat 256 x
  | .unsigned _, false, x => castWidth 256 x
  | .signed _, true, x => BitVec.ofInt 256 x
  | .signed _, false, x => castWidth 256 x
  | .u256, true, x => BitVec.ofNat 256 x
  | .u256, false, x => x
  | .address, _, x => castWidth 256 x
  | .pubkey, _, x => castWidth 256 x
  -- the arms of the source that print `0#256 /- TODO: encode identity field … -/`
  | .usize, _, _ | .isize, _, _ | .bytes32, _, _ | .bytes4, _, _ | .string, _, _
  | .bytes, _, _ => 0#256

def simpleEncode (name : String) :
    (p : Option Primitive) → simpleCarrier env nat name p → BitVec 256
  | some p, x => p.encode env nat x
  | none, _ => 0#256

/-- `encode_field`. -/
def encodeField : (ty : Ty) → lowerType env nat ty → BitVec 256
  | .simple name, x => simpleEncode env nat name (primitiveOf name) x
  | .generic _ _, _ | .tuple _, _ | .typedAddress _, _ => 0#256

/-- The structure `Identity` of an entity with these identity members. -/
def Identity : List Member → Type
  | [] => Unit
  | m :: ms => lowerType env nat m.ty × Identity ms

/-- The encoded identity fields in declaration order. -/
def encodeFields : (ms : List Member) → Identity env nat ms → List (BitVec 256)
  | [], _ => []
  | m :: ms, id => encodeField env nat m.ty id.1 :: encodeFields ms id.2

/-- `parts.join(" ^^^ ")`, and `0#256` for a singleton entity. -/
def joinParts : List (BitVec 256) → BitVec 256
  | [] => 0#256
  | p :: ps => ps.foldl (· ^^^ ·) p

/-- `salt`. -/
def salt (ms : List Member) (id : Identity env nat ms) : BitVec 256 :=
  joinParts (encodeFields env nat ms id)

end Lowering

/-! ### The constants of an entity -/

/-- FNV-1a with the given offset basis and prime. -/
def fnv1a {w : Nat} (prime seed : BitVec w) (bytes : List UInt8) : BitVec w :=
  bytes.foldl (fun h b => (h ^^^ BitVec.ofNat w b.toNat) * prime) seed

def fnv1a32 (bytes : List UInt8) : BitVec 32 := fnv1a 0x01000193#32 0x811c9dc5#32 bytes

def fnv1a64Seeded (bytes : List UInt8) (seed : BitVec 64) : BitVec 64 :=
  fnv1a 0x00000100000001B3#64 seed bytes

/-- `name.as_bytes()`. -/
def nameBytes (name : String) : List UInt8 := name.toUTF8.data.toList

/-- `entity_deployer_addr`, a `u128` that `emit_address` prints as a 160-bit literal. -/
def entityDeployerAddr (name : String) : BitVec 128 :=
  let h := (fnv1a32 (nameBytes name)).setWidth 128
  let salted := (h ^^^ 0xDEADBEEF#128) &&& 0xFFFFFFFF#128
  salted ||| ((salted ^^^ 0xFACE#128) <<< 32) ||| ((salted ^^^ 0xCAFE#128) <<< 64) |||
    ((salted ^^^ 0xBABE#128) <<< 96)

def deployer (name : String) : Address := (entityDeployerAddr name).setWidth 160

/-- `entity_init_code_hash`, printed most significant chunk first. -/
def initCodeHash (name : String) : BitVec 256 :=
  let h := fnv1a64Seeded (nameBytes name)
  h 0xCBF29CE484222325#64 ++ h 0x9E3779B97F4A7C15#64 ++ h 0xBB67AE8584CAA73B#64 ++
    h 0x3C6EF372FE94F82B#64

def identityMembers (entity : Entity) : List Member := entity.members.filter Member.isIdentity

/-- The identities of an entity. -/
abbrev EntityId (env : Entity → TypeEnv) (nat : Bool) (e : Entity) : Type :=
  Identity (env e) nat (identityMembers e)

/-- The arguments that `E.address id` passes to `create2Address`. -/
def addressArgs (env : Entity → TypeEnv) (nat : Bool) (e : Entity) (id : EntityId env nat e) :
    Address × BitVec 256 × BitVec 256 :=
  (deployer e.name, salt (env e) nat (identityMembers e) id, initCodeHash e.name)

/-! ### Encoders combined by exclusive or -/

section Spread

variable {α β : Type} {w : Nat}

/-- What every field encoding has: some value is encoded as zero, and when values
    are told apart at all, some value is encoded as one. -/
structure Spread (f : α → BitVec w) : Prop where
  zero : Nonempty α → ∃ a, f a = 0#w
  one : Function.Injective f → Nontrivial α → ∃ a, f a = 1#w

/-- The two fields side by side, as the salt combines them. -/
def xorPair (f : α → BitVec w) (g : β → BitVec w) (p : α × β) : BitVec w := f p.1 ^^^ g p.2

theorem xorPair_injective_left [Nonempty β] {f : α → BitVec w} {g : β → BitVec w}
    (h : Function.Injective (xorPair f g)) : Function.Injective f := by
  intro a a' heq
  obtain ⟨b⟩ := ‹Nonempty β›
  have hpair := @h (a, b) (a', b) (by simp only [xorPair, heq])
  exact (Prod.mk.inj hpair).1

theorem xorPair_injective_right [Nonempty α] {f : α → BitVec w} {g : β → BitVec w}
    (h : Function.Injective (xorPair f g)) : Function.Injective g := by
  intro b b' heq
  obtain ⟨a⟩ := ‹Nonempty α›
  have hpair := @h (a, b) (a, b') (by simp only [xorPair, heq])
  exact (Prod.mk.inj hpair).2

/-- Two encoded fields are told apart only when one of them has a single value:
    otherwise `(0, 1)` and `(1, 0)` collide. -/
theorem xorPair_injective_iff [Nonempty α] [Nonempty β] {f : α → BitVec w} {g : β → BitVec w}
    (hw : 0 < w) (hf : Spread f) (hg : Spread g) :
    Function.Injective (xorPair f g) ↔
      Function.Injective f ∧ Function.Injective g ∧ ¬ (Nontrivial α ∧ Nontrivial β) := by
  constructor
  · intro h
    have hfi := xorPair_injective_left h
    have hgi := xorPair_injective_right h
    refine ⟨hfi, hgi, ?_⟩
    rintro ⟨hα, hβ⟩
    obtain ⟨a, ha⟩ := hf.zero inferInstance
    obtain ⟨a', ha'⟩ := hf.one hfi hα
    obtain ⟨b, hb⟩ := hg.zero inferInstance
    obtain ⟨b', hb'⟩ := hg.one hgi hβ
    have hpair := @h (a, b') (a', b) (by simp only [xorPair, ha, ha', hb, hb', BitVec.xor_zero,
      BitVec.zero_xor])
    have hcode : (0#w) = 1#w := by rw [← ha, ← ha', (Prod.mk.inj hpair).1]
    have hval := congrArg BitVec.toNat hcode
    rw [BitVec.toNat_ofNat, BitVec.toNat_ofNat, Nat.zero_mod,
      Nat.mod_eq_of_lt (Nat.one_lt_two_pow hw.ne')] at hval
    exact absurd hval (by decide)
  · rintro ⟨hfi, hgi, hne⟩ ⟨a, b⟩ ⟨a', b'⟩ heq
    simp only [xorPair] at heq
    rcases not_and_or.mp hne with hα | hβ
    · rw [not_nontrivial_iff_subsingleton] at hα
      obtain rfl := Subsingleton.elim a a'
      rw [BitVec.xor_right_inj] at heq
      rw [hgi heq]
    · rw [not_nontrivial_iff_subsingleton] at hβ
      obtain rfl := Subsingleton.elim b b'
      rw [BitVec.xor_left_inj] at heq
      rw [hfi heq]

theorem Spread.xorPair {f : α → BitVec w} {g : β → BitVec w} (hw : 0 < w) (hf : Spread f)
    (hg : Spread g) : Spread (xorPair f g) where
  zero := by
    rintro ⟨a, b⟩
    obtain ⟨a₀, ha₀⟩ := hf.zero ⟨a⟩
    obtain ⟨b₀, hb₀⟩ := hg.zero ⟨b⟩
    exact ⟨(a₀, b₀), by simp only [Prelude.xorPair, ha₀, hb₀, BitVec.xor_zero]⟩
  one := by
    rintro h ⟨⟨a, b⟩, ⟨a', b'⟩, hne⟩
    have : Nonempty α := ⟨a⟩
    have : Nonempty β := ⟨b⟩
    obtain ⟨hfi, hgi, -⟩ := (xorPair_injective_iff hw hf hg).mp h
    obtain ⟨a₀, ha₀⟩ := hf.zero ⟨a⟩
    obtain ⟨b₀, hb₀⟩ := hg.zero ⟨b⟩
    by_cases ha : a = a'
    · have hb : b ≠ b' := fun hb => hne (by rw [ha, hb])
      obtain ⟨b₁, hb₁⟩ := hg.one hgi ⟨b, b', hb⟩
      exact ⟨(a₀, b₁), by simp only [Prelude.xorPair, ha₀, hb₁, BitVec.zero_xor]⟩
    · obtain ⟨a₁, ha₁⟩ := hf.one hfi ⟨a, a', ha⟩
      exact ⟨(a₁, b₀), by simp only [Prelude.xorPair, ha₁, hb₀, BitVec.xor_zero]⟩

end Spread

/-! ### Which field types are encoded without loss -/

/-- The names whose encoding loses nothing.  Under `numerics: nat` the integers are
    unbounded and are cut to 256 bits. -/
def Primitive.lossless (nat : Bool) : Primitive → Bool
  | .bool | .address | .pubkey => true
  | .unsigned _ | .signed _ | .u256 => !nat
  | .usize | .isize | .bytes32 | .bytes4 | .string | .bytes => false

def lossless (nat : Bool) : Ty → Bool
  | .simple name => (primitiveOf name).any (Primitive.lossless nat)
  | .generic _ _ | .tuple _ | .typedAddress _ => false

theorem Width.bits_le (w : Width) : 0 < w.bits ∧ w.bits ≤ 256 := by
  cases w <;> decide

theorem castWidth_injective {m n : Nat} (h : m ≤ n) :
    Function.Injective (castWidth n : BitVec m → BitVec n) := by
  intro x y heq
  have hpow : 2 ^ m ≤ 2 ^ n := Nat.pow_le_pow_right (by decide) h
  have hval := congrArg BitVec.toNat heq
  rw [castWidth, castWidth, BitVec.toNat_ofNat, BitVec.toNat_ofNat,
    Nat.mod_eq_of_lt (x.isLt.trans_le hpow), Nat.mod_eq_of_lt (y.isLt.trans_le hpow)] at hval
  exact BitVec.eq_of_toNat_eq hval

theorem castWidth_ofNat {m n k : Nat} (h : k < 2 ^ m) :
    castWidth n (BitVec.ofNat m k) = BitVec.ofNat n k := by
  rw [castWidth, BitVec.toNat_ofNat, Nat.mod_eq_of_lt h]

theorem spread_castWidth {m n : Nat} (hm : 0 < m) :
    Spread (castWidth n : BitVec m → BitVec n) where
  zero _ := ⟨BitVec.ofNat m 0, castWidth_ofNat (Nat.two_pow_pos m)⟩
  one _ _ := ⟨BitVec.ofNat m 1, castWidth_ofNat (Nat.one_lt_two_pow hm.ne')⟩

/-- The arms that print a constant: nothing is told apart. -/
theorem spread_const {α : Type} {w : Nat} : Spread (fun _ : α => 0#w) where
  zero := fun ⟨a⟩ => ⟨a, rfl⟩
  one := fun h ⟨_, _, hne⟩ => absurd (h rfl) hne

theorem const_injective_iff {α : Type} {w : Nat} :
    Function.Injective (fun _ : α => 0#w) ↔ (Nontrivial α → false = true) := by
  constructor
  · rintro h ⟨_, _, hne⟩
    exact absurd (h rfl) hne
  · intro h a b _
    by_contra hne
    exact Bool.false_ne_true (h ⟨a, b, hne⟩)

theorem spread_ofNat : Spread (BitVec.ofNat 256) := ⟨fun _ => ⟨0, rfl⟩, fun _ _ => ⟨1, rfl⟩⟩

theorem spread_ofInt : Spread (BitVec.ofInt 256) := ⟨fun _ => ⟨0, rfl⟩, fun _ _ => ⟨1, rfl⟩⟩

theorem ofNat_not_injective : ¬ Function.Injective (BitVec.ofNat 256) := by
  intro h
  have heq : BitVec.ofNat 256 (2 ^ 256) = BitVec.ofNat 256 0 :=
    BitVec.eq_of_toNat_eq (by rw [BitVec.toNat_ofNat, BitVec.toNat_ofNat, Nat.mod_self,
      Nat.zero_mod])
  exact absurd (h heq) (Nat.two_pow_pos 256).ne'

theorem ofInt_not_injective : ¬ Function.Injective (BitVec.ofInt 256) := by
  intro h
  apply ofNat_not_injective
  intro a b heq
  have hint : ((a : Nat) : Int) = (b : Nat) := h (by rw [BitVec.ofInt_natCast, BitVec.ofInt_natCast, heq])
  exact Int.ofNat.inj hint

section Fields

variable (env : TypeEnv) (nat : Bool)

theorem Primitive.spread_encode (p : Primitive) : Spread (p.encode env nat) := by
  cases p with
  | bool => exact ⟨fun _ => ⟨false, rfl⟩, fun _ _ => ⟨true, rfl⟩⟩
  | unsigned w =>
    cases nat with
    | true => exact spread_ofNat
    | false => exact spread_castWidth w.bits_le.1
  | signed w =>
    cases nat with
    | true => exact spread_ofInt
    | false => exact spread_castWidth w.bits_le.1
  | u256 =>
    cases nat with
    | true => exact spread_ofNat
    | false => exact ⟨fun _ => ⟨0#256, rfl⟩, fun _ _ => ⟨1#256, rfl⟩⟩
  | address => exact spread_castWidth (by decide)
  | pubkey => exact spread_castWidth (by decide)
  | usize | isize | bytes32 | bytes4 | string | bytes => exact spread_const

/-- A name is encoded injectively when nothing is lost, or when its type has a
    single value. -/
theorem Primitive.encode_injective_iff (p : Primitive) :
    Function.Injective (p.encode env nat) ↔
      (Nontrivial (p.carrier env nat) → p.lossless nat = true) := by
  cases p with
  | bool => exact iff_of_true (by decide : Function.Injective encodeBool) fun _ => rfl
  | unsigned w =>
    cases nat with
    | true =>
      exact iff_of_false ofNat_not_injective fun h => Bool.false_ne_true (h (inferInstanceAs (Nontrivial Nat)))
    | false => exact iff_of_true (castWidth_injective w.bits_le.2) fun _ => rfl
  | signed w =>
    cases nat with
    | true =>
      exact iff_of_false ofInt_not_injective fun h => Bool.false_ne_true (h (inferInstanceAs (Nontrivial Int)))
    | false => exact iff_of_true (castWidth_injective w.bits_le.2) fun _ => rfl
  | u256 =>
    cases nat with
    | true =>
      exact iff_of_false ofNat_not_injective fun h => Bool.false_ne_true (h (inferInstanceAs (Nontrivial Nat)))
    | false => exact iff_of_true (fun _ _ h => h) fun _ => rfl
  | address => exact iff_of_true (castWidth_injective (by decide)) fun _ => rfl
  | pubkey => exact iff_of_true (castWidth_injective (by decide)) fun _ => rfl
  | usize | isize | bytes32 | bytes4 | string | bytes => exact const_injective_iff

theorem spread_encodeField (ty : Ty) : Spread (encodeField env nat ty) := by
  cases ty with
  | simple name =>
    change Spread (simpleEncode env nat name (primitiveOf name))
    cases primitiveOf name with
    | none => exact spread_const
    | some p => exact p.spread_encode env nat
  | generic | tuple | typedAddress => exact spread_const

theorem encodeField_injective_iff (ty : Ty) :
    Function.Injective (encodeField env nat ty) ↔
      (Nontrivial (lowerType env nat ty) → lossless nat ty = true) := by
  cases ty with
  | simple name =>
    change Function.Injective (simpleEncode env nat name (primitiveOf name)) ↔
      (Nontrivial (simpleCarrier env nat name (primitiveOf name)) →
        (primitiveOf name).any (Primitive.lossless nat) = true)
    cases primitiveOf name with
    | none => exact const_injective_iff
    | some p => exact p.encode_injective_iff env nat
  | generic | tuple | typedAddress => exact const_injective_iff

/-! ### The salt tells identities apart -/

/-- The salt of one more field. -/
theorem joinParts_cons (p : BitVec 256) (ps : List (BitVec 256)) :
    joinParts (p :: ps) = p ^^^ joinParts ps := by
  cases ps with
  | nil => rw [joinParts, joinParts, List.foldl_nil, BitVec.xor_zero]
  | cons q ps =>
    simp only [joinParts, List.foldl_cons]
    rw [List.foldl_assoc]

theorem salt_cons (m : Member) (ms : List Member) :
    salt env nat (m :: ms) = xorPair (encodeField env nat m.ty) (salt env nat ms) := by
  funext id
  exact joinParts_cons ..

theorem nonempty_identity_iff (ms : List Member) :
    Nonempty (Identity env nat ms) ↔ ∀ m ∈ ms, Nonempty (lowerType env nat m.ty) := by
  induction ms with
  | nil => exact iff_of_true ⟨()⟩ (by simp)
  | cons m ms ih =>
    rw [List.forall_mem_cons, ← ih]
    exact nonempty_prod

theorem nontrivial_prod_iff {α β : Type} [Nonempty α] [Nonempty β] :
    Nontrivial (α × β) ↔ Nontrivial α ∨ Nontrivial β := by
  constructor
  · rintro ⟨⟨a, b⟩, ⟨a', b'⟩, hne⟩
    by_cases ha : a = a'
    · exact Or.inr ⟨b, b', fun hb => hne (by rw [ha, hb])⟩
    · exact Or.inl ⟨a, a', ha⟩
  · rintro (h | h) <;> infer_instance

theorem nontrivial_identity_iff {ms : List Member} (h : Nonempty (Identity env nat ms)) :
    Nontrivial (Identity env nat ms) ↔ ∃ m ∈ ms, Nontrivial (lowerType env nat m.ty) := by
  induction ms with
  | nil =>
    refine iff_of_false (fun hn => ?_) (by simp)
    obtain ⟨_, _, hne⟩ := hn
    exact hne rfl
  | cons m ms ih =>
    obtain ⟨hm, hms⟩ := nonempty_prod.mp h
    rw [List.exists_mem_cons_iff, ← ih hms]
    exact nontrivial_prod_iff

theorem spread_salt (ms : List Member) : Spread (salt env nat ms) := by
  induction ms with
  | nil => exact spread_const
  | cons m ms ih =>
    rw [salt_cons]
    exact (spread_encodeField env nat m.ty).xorPair (by decide) ih

/-- The identity members keep two instances apart: no value of theirs is lost, and
    at most one of them has more than one value. -/
structure SeparableMembers (ms : List Member) : Prop where
  lossless : ∀ m ∈ ms, Nontrivial (lowerType env nat m.ty) → lossless nat m.ty = true
  single : ms.Pairwise fun m m' =>
    ¬ (Nontrivial (lowerType env nat m.ty) ∧ Nontrivial (lowerType env nat m'.ty))

theorem separableMembers_cons_iff {m : Member} {ms : List Member}
    (h : Nonempty (Identity env nat ms)) :
    SeparableMembers env nat (m :: ms) ↔
      (Nontrivial (lowerType env nat m.ty) → Prelude.lossless nat m.ty = true) ∧
        SeparableMembers env nat ms ∧
          ¬ (Nontrivial (lowerType env nat m.ty) ∧ Nontrivial (Identity env nat ms)) := by
  rw [nontrivial_identity_iff env nat h]
  constructor
  · rintro ⟨hl, hs⟩
    rw [List.forall_mem_cons] at hl
    rw [List.pairwise_cons] at hs
    refine ⟨hl.1, ⟨hl.2, hs.2⟩, ?_⟩
    rintro ⟨hm, m', hm', hn⟩
    exact hs.1 m' hm' ⟨hm, hn⟩
  · rintro ⟨hm, ⟨hl, hs⟩, hne⟩
    refine ⟨List.forall_mem_cons.mpr ⟨hm, hl⟩, List.pairwise_cons.mpr ⟨?_, hs⟩⟩
    rintro m' hm' ⟨hn, hn'⟩
    exact hne ⟨hn, m', hm', hn'⟩

/-- The salt is injective exactly on separable identity members. -/
theorem salt_injective_iff {ms : List Member} (h : Nonempty (Identity env nat ms)) :
    Function.Injective (salt env nat ms) ↔ SeparableMembers env nat ms := by
  induction ms with
  | nil => exact iff_of_true (fun _ _ _ => rfl) ⟨by simp, List.Pairwise.nil⟩
  | cons m ms ih =>
    obtain ⟨hm, hms⟩ := nonempty_prod.mp h
    rw [separableMembers_cons_iff env nat hms, salt_cons, ← ih hms,
      ← encodeField_injective_iff env nat m.ty]
    exact xorPair_injective_iff (by decide) (spread_encodeField env nat m.ty)
      (spread_salt env nat ms)

end Fields

/-! ### The constants tell entities apart -/

/-- The two names have the same FNV-1a hash in 32 bits and, under each of the four
    seeds, in 64 bits. -/
structure HashCollision (a b : String) : Prop where
  low : fnv1a32 (nameBytes a) = fnv1a32 (nameBytes b)
  wide : ∀ seed ∈ [0xCBF29CE484222325#64, 0x9E3779B97F4A7C15#64, 0xBB67AE8584CAA73B#64,
    0x3C6EF372FE94F82B#64], fnv1a64Seeded (nameBytes a) seed = fnv1a64Seeded (nameBytes b) seed

theorem initCodeHash_eq_iff {a b : String} :
    initCodeHash a = initCodeHash b ↔
      ∀ seed ∈ [0xCBF29CE484222325#64, 0x9E3779B97F4A7C15#64, 0xBB67AE8584CAA73B#64,
        0x3C6EF372FE94F82B#64],
        fnv1a64Seeded (nameBytes a) seed = fnv1a64Seeded (nameBytes b) seed := by
  simp only [List.forall_mem_cons, List.not_mem_nil, false_imp_iff, implies_true, and_true]
  constructor
  · intro h
    obtain ⟨h012, h3⟩ := append_inj h
    obtain ⟨h01, h2⟩ := append_inj h012
    obtain ⟨h0, h1⟩ := append_inj h01
    exact ⟨h0, h1, h2, h3⟩
  · rintro ⟨h0, h1, h2, h3⟩
    simp only [initCodeHash, h0, h1, h2, h3]

theorem setWidth_shiftLeft_eq_zero {w k s : Nat} (x : BitVec w) (h : k ≤ s) :
    (x <<< s).setWidth k = 0#k := by
  ext i hi
  simp only [BitVec.getElem_setWidth, BitVec.getLsbD_shiftLeft, BitVec.getElem_zero]
  rw [decide_eq_true (show i < s by omega), Bool.not_true, Bool.and_false, Bool.false_and]

/-- The low word of the deployer is the hash up to a constant mask. -/
theorem setWidth_entityDeployerAddr (name : String) :
    (entityDeployerAddr name).setWidth 32 = fnv1a32 (nameBytes name) ^^^ 0xDEADBEEF#32 := by
  have hmask : (0xFFFFFFFF#128).setWidth 32 = BitVec.allOnes 32 := by decide
  have hconst : (0xDEADBEEF#128).setWidth 32 = 0xDEADBEEF#32 := by decide
  simp only [entityDeployerAddr, BitVec.setWidth_or, BitVec.setWidth_and, BitVec.setWidth_xor,
    setWidth_shiftLeft_eq_zero _ (show 32 ≤ 32 by omega),
    setWidth_shiftLeft_eq_zero _ (show 32 ≤ 64 by omega),
    setWidth_shiftLeft_eq_zero _ (show 32 ≤ 96 by omega), hmask, hconst, BitVec.or_zero,
    BitVec.and_allOnes]
  rw [BitVec.setWidth_setWidth_of_le _ (by omega), BitVec.setWidth_eq]

theorem deployer_eq_iff {a b : String} :
    deployer a = deployer b ↔ fnv1a32 (nameBytes a) = fnv1a32 (nameBytes b) := by
  constructor
  · intro h
    have hback := congrArg (BitVec.setWidth 32) h
    rw [deployer, deployer, BitVec.setWidth_setWidth_of_le _ (by omega),
      BitVec.setWidth_setWidth_of_le _ (by omega), setWidth_entityDeployerAddr,
      setWidth_entityDeployerAddr, BitVec.xor_left_inj] at hback
    exact hback
  · intro h
    simp only [deployer, entityDeployerAddr, h]

theorem hashCollision_iff {a b : String} :
    HashCollision a b ↔ deployer a = deployer b ∧ initCodeHash a = initCodeHash b := by
  rw [deployer_eq_iff, initCodeHash_eq_iff]
  exact ⟨fun h => ⟨h.low, h.wide⟩, fun h => ⟨h.1, h.2⟩⟩

/-! ### Addresses of a whole program -/

section Program

variable (env : Entity → TypeEnv) (nat : Bool)

/-- What the address model promises for a program: two identities of an entity that
    differ in some field, and any two identities of entities with different names,
    reach `create2Address` with different arguments. -/
structure AddressesIdentify (p : Program) : Prop where
  instances : ∀ e ∈ p.entities, ∀ id id' : EntityId env nat e, id ≠ id' →
    addressArgs env nat e id ≠ addressArgs env nat e id'
  entities : ∀ e ∈ p.entities, ∀ f ∈ p.entities, e.name ≠ f.name →
    ∀ (id : EntityId env nat e) (id' : EntityId env nat f),
      addressArgs env nat e id ≠ addressArgs env nat f id'

/-- No identity of the entity exists: a field type has no value. -/
def Uninhabited (e : Entity) : Prop :=
  ∃ m ∈ identityMembers e, IsEmpty (lowerType (env e) nat m.ty)

/-- The programs whose instances and entities keep apart. -/
structure SeparableProgram (p : Program) : Prop where
  instances : ∀ e ∈ p.entities,
    Uninhabited env nat e ∨ SeparableMembers (env e) nat (identityMembers e)
  entities : ∀ e ∈ p.entities, ∀ f ∈ p.entities, e.name ≠ f.name →
    Uninhabited env nat e ∨ Uninhabited env nat f ∨ ¬ HashCollision e.name f.name

theorem uninhabited_iff (e : Entity) : Uninhabited env nat e ↔ IsEmpty (EntityId env nat e) := by
  rw [← not_nonempty_iff, nonempty_identity_iff]
  simp only [Uninhabited, not_forall, not_nonempty_iff, exists_prop]

theorem addressArgs_injective_iff (e : Entity) :
    (∀ id id' : EntityId env nat e, id ≠ id' →
      addressArgs env nat e id ≠ addressArgs env nat e id') ↔
      Function.Injective (salt (env e) nat (identityMembers e)) := by
  simp only [addressArgs, ne_eq, Prod.mk.injEq, true_and, and_true, not_imp_not]
  exact Iff.rfl

theorem instances_separated_iff (e : Entity) :
    (∀ id id' : EntityId env nat e, id ≠ id' →
      addressArgs env nat e id ≠ addressArgs env nat e id') ↔
      Uninhabited env nat e ∨ SeparableMembers (env e) nat (identityMembers e) := by
  rw [addressArgs_injective_iff]
  rcases isEmpty_or_nonempty (EntityId env nat e) with hempty | hne
  · exact iff_of_true (fun id => hempty.elim id) (Or.inl ((uninhabited_iff env nat e).mpr hempty))
  · rw [salt_injective_iff (env e) nat hne]
    have hu : ¬ Uninhabited env nat e := by
      rw [uninhabited_iff]
      exact not_isEmpty_iff.mpr hne
    simp only [hu, false_or]

/-- Every salt takes the value zero, so entities are told apart by their constants
    alone. -/
theorem entities_separated_iff (e f : Entity) :
    (∀ (id : EntityId env nat e) (id' : EntityId env nat f),
      addressArgs env nat e id ≠ addressArgs env nat f id') ↔
      Uninhabited env nat e ∨ Uninhabited env nat f ∨ ¬ HashCollision e.name f.name := by
  rw [uninhabited_iff, uninhabited_iff, hashCollision_iff]
  constructor
  · intro h
    by_contra hcon
    simp only [not_or, not_isEmpty_iff, not_not] at hcon
    obtain ⟨he, hf, hdep, hinit⟩ := hcon
    obtain ⟨id, hid⟩ := (spread_salt (env e) nat (identityMembers e)).zero he
    obtain ⟨id', hid'⟩ := (spread_salt (env f) nat (identityMembers f)).zero hf
    exact h id id' (by simp only [addressArgs, hid, hid', hdep, hinit])
  · rintro (h | h | h) id id' heq
    · exact h.elim id
    · exact h.elim id'
    · simp only [addressArgs, Prod.mk.injEq] at heq
      exact h ⟨heq.1, heq.2.2⟩

/-- **When generated addresses identify instances**: exactly when every entity has
    at most one identity member with more than one value, that member is encoded
    without loss, and no two entity names collide under the hashes. -/
theorem addressesIdentify_iff (p : Program) :
    AddressesIdentify env nat p ↔ SeparableProgram env nat p := by
  constructor
  · rintro ⟨hi, he⟩
    refine ⟨fun e hmem => (instances_separated_iff env nat e).mp (hi e hmem), ?_⟩
    intro e hmem f hfmem hne
    exact (entities_separated_iff env nat e f).mp (he e hmem f hfmem hne)
  · rintro ⟨hi, he⟩
    refine ⟨fun e hmem => (instances_separated_iff env nat e).mpr (hi e hmem), ?_⟩
    intro e hmem f hfmem hne
    exact (entities_separated_iff env nat e f).mpr (he e hmem f hfmem hne)

end Program

/-- An identity member of type `u8`. -/
def byteMember (name : String) : Member :=
  { name := name, ty := .simple "u8", isIdentity := true, defaultValue := none, transforms := [] }

/-- One entity identified by two bytes. -/
def ticketProgram : Program :=
  { imports := [], pureFns := [], typeAliases := [], records := [], enums := []
    entities := [{
      name := "Ticket", records := [], enums := [], typeAliases := [], constants := [],
      macros := [], routes := [], members := [byteMember "m_series", byteMember "m_number"] }]
    externEntities := [], libraries := [] }

/-- No type is declared by the program. -/
def emptyTypeEnv : Entity → TypeEnv := fun _ => ⟨fun _ => Unit, Unit⟩

/-- Series 1 number 2 and series 2 number 1 have one address. -/
theorem ticket_addresses_collide : ¬ AddressesIdentify emptyTypeEnv false ticketProgram := by
  intro h
  have hne : ((1#8, 2#8, ()) : BitVec 8 × BitVec 8 × Unit) ≠ (2#8, 1#8, ()) := by decide
  exact h.instances _ (List.mem_singleton.mpr rfl) (1#8, 2#8, ()) (2#8, 1#8, ()) hne rfl

end CambrianLang.Prelude
