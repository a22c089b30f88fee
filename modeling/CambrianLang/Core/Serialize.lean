/-
  **`BeSerialize` and `BeDeserialize`** (`cambrian-core/src/lib.rs`).

  The serializable types are those built from the integers, `bool`, `[u8; 32]`, `U256` and
  `String` by `Vec`, `Option`, `HashMap` and tuples.  What the encoder sees of a value is
  the value with an iteration order for each of its maps; what the decoder returns is the
  value alone.
-/
import CambrianLang.Core.U256
import CambrianLang.Lib.Framing
import Mathlib.Data.Finmap

namespace CambrianLang.Core

open Framing

/-! ### Types and values -/

inductive IntWidth where
  | w8 | w16 | w32 | w64 | w128
deriving DecidableEq

def IntWidth.bytes : IntWidth → Nat
  | .w8 => 1
  | .w16 => 2
  | .w32 => 4
  | .w64 => 8
  | .w128 => 16

/-- The types with both traits. -/
inductive BeType where
  | uint (w : IntWidth)
  | int (w : IntWidth)
  | bool
  | bytes32
  | u256
  | string
  | vec (t : BeType)
  | option (t : BeType)
  | hashMap (k v : BeType)
  | tuple2 (a b : BeType)
  | tuple3 (a b c : BeType)
  | tuple4 (a b c d : BeType)
  | tuple5 (a b c d e : BeType)
deriving DecidableEq

namespace BeType

/-- The values of a type; a map is a finite function. -/
def Val : BeType → Type
  | .uint w | .int w => BitVec (8 * w.bytes)
  | .bool => Bool
  | .bytes32 => Vector UInt8 32
  | .u256 => U256
  | .string => String
  | .vec t => List t.Val
  | .option t => Option t.Val
  | .hashMap k v => Finmap fun _ : k.Val => v.Val
  | .tuple2 a b => a.Val × b.Val
  | .tuple3 a b c => a.Val × b.Val × c.Val
  | .tuple4 a b c d => a.Val × b.Val × c.Val × d.Val
  | .tuple5 a b c d e => a.Val × b.Val × c.Val × d.Val × e.Val

/-- Equality of values (`Eq`). -/
def decEq : (t : BeType) → DecidableEq t.Val
  | .uint w | .int w => inferInstanceAs (DecidableEq (BitVec (8 * w.bytes)))
  | .bool => inferInstanceAs (DecidableEq Bool)
  | .bytes32 => inferInstanceAs (DecidableEq (Vector UInt8 32))
  | .u256 => inferInstanceAs (DecidableEq U256)
  | .string => inferInstanceAs (DecidableEq String)
  | .vec t =>
    have := t.decEq
    inferInstanceAs (DecidableEq (List t.Val))
  | .option t =>
    have := t.decEq
    inferInstanceAs (DecidableEq (Option t.Val))
  | .hashMap k v =>
    have := k.decEq
    have := v.decEq
    inferInstanceAs (DecidableEq (Finmap fun _ : k.Val => v.Val))
  | .tuple2 a b =>
    have := a.decEq
    have := b.decEq
    inferInstanceAs (DecidableEq (a.Val × b.Val))
  | .tuple3 a b c =>
    have := a.decEq
    have := b.decEq
    have := c.decEq
    inferInstanceAs (DecidableEq (a.Val × b.Val × c.Val))
  | .tuple4 a b c d =>
    have := a.decEq
    have := b.decEq
    have := c.decEq
    have := d.decEq
    inferInstanceAs (DecidableEq (a.Val × b.Val × c.Val × d.Val))
  | .tuple5 a b c d e =>
    have := a.decEq
    have := b.decEq
    have := c.decEq
    have := d.decEq
    have := e.decEq
    inferInstanceAs (DecidableEq (a.Val × b.Val × c.Val × d.Val × e.Val))

instance (t : BeType) : DecidableEq t.Val := t.decEq

end BeType

/-- What iterating over a value of type `V` yields, and the value it comes from. -/
structure Layout (V : Type) where
  Raw : Type
  value : Raw → V

namespace BeType

/-- The entries of a map in iteration order, each key once. -/
def entriesLayout {k v : BeType} (key : Layout k.Val) (val : Layout v.Val) :
    Layout (BeType.hashMap k v).Val where
  Raw := { l : List (key.Raw × val.Raw) // (l.map fun e => key.value e.1).Nodup }
  value l :=
    { entries := (l.1.map fun e => ⟨key.value e.1, val.value e.2⟩ :
        List (Sigma fun _ : k.Val => v.Val))
      nodupKeys := by
        rw [Multiset.coe_nodupKeys, List.NodupKeys, List.keys, List.map_map]
        exact l.2 }

/-- A value with an iteration order for each of its maps. -/
def layout : (t : BeType) → Layout t.Val
  | .uint w => ⟨BitVec (8 * w.bytes), id⟩
  | .int w => ⟨BitVec (8 * w.bytes), id⟩
  | .bool => ⟨Bool, id⟩
  | .bytes32 => ⟨Vector UInt8 32, id⟩
  | .u256 => ⟨U256, id⟩
  | .string => ⟨String, id⟩
  | .vec t => ⟨List t.layout.Raw, List.map t.layout.value⟩
  | .option t => ⟨Option t.layout.Raw, Option.map t.layout.value⟩
  | .hashMap k v => entriesLayout k.layout v.layout
  | .tuple2 a b => ⟨a.layout.Raw × b.layout.Raw, fun x => (a.layout.value x.1, b.layout.value x.2)⟩
  | .tuple3 a b c => ⟨a.layout.Raw × b.layout.Raw × c.layout.Raw,
      fun x => (a.layout.value x.1, b.layout.value x.2.1, c.layout.value x.2.2)⟩
  | .tuple4 a b c d => ⟨a.layout.Raw × b.layout.Raw × c.layout.Raw × d.layout.Raw,
      fun x => (a.layout.value x.1, b.layout.value x.2.1, c.layout.value x.2.2.1,
        d.layout.value x.2.2.2)⟩
  | .tuple5 a b c d e =>
      ⟨a.layout.Raw × b.layout.Raw × c.layout.Raw × d.layout.Raw × e.layout.Raw,
      fun x => (a.layout.value x.1, b.layout.value x.2.1, c.layout.value x.2.2.1,
        d.layout.value x.2.2.2.1, e.layout.value x.2.2.2.2)⟩

abbrev Raw (t : BeType) : Type := t.layout.Raw

abbrev value {t : BeType} (r : t.Raw) : t.Val := t.layout.value r

end BeType

/-! ### Bytes -/

/-- `to_be_bytes` of an integer of `n` bytes. -/
def toBeBytes : Nat → Nat → List UInt8
  | 0, _ => []
  | n + 1, v => UInt8.ofNat (v / 256 ^ n) :: toBeBytes n v

/-- `from_be_bytes`. -/
def fromBeBytes (bytes : List UInt8) : Nat :=
  bytes.foldl (fun acc b => acc * 256 + b.toNat) 0

/-- `U256::to_be_bytes`. -/
def U256.toBeBytes (v : U256) : List UInt8 :=
  Core.toBeBytes 16 v.hi.toNat ++ Core.toBeBytes 16 v.lo.toNat

/-- `U256::from_be_bytes`. -/
def U256.fromBeBytes (bytes : List UInt8) : U256 :=
  ⟨BitVec.ofNat 128 (Core.fromBeBytes (bytes.take 16)),
    BitVec.ofNat 128 (Core.fromBeBytes (bytes.drop 16))⟩

/-- The second byte of a three- or four-byte character. -/
def secondByte (b c : UInt8) : Bool :=
  if b = 0xE0 then 0xA0 ≤ c && c ≤ 0xBF
  else if b = 0xED then 0x80 ≤ c && c ≤ 0x9F
  else if b = 0xF0 then 0x90 ≤ c && c ≤ 0xBF
  else if b = 0xF4 then 0x80 ≤ c && c ≤ 0x8F
  else 0x80 ≤ c && c ≤ 0xBF

/-- How many bytes of an ill-formed sequence one replacement character stands for. -/
def illFormed (bytes : List UInt8) : Nat :=
  let b := bytes.getD 0 0
  if 0xE0 ≤ b && b ≤ 0xF4 && secondByte b (bytes.getD 1 0) then
    if 0xF0 ≤ b && 0x80 ≤ bytes.getD 2 0 && bytes.getD 2 0 ≤ 0xBF then 3 else 2
  else 1

/-- The characters of a byte sequence, with `U+FFFD` for what is not UTF-8; the count is of
    bytes that belong to the character before. -/
def lossyChars : Nat → List UInt8 → List Char
  | _, [] => []
  | skip + 1, _ :: bytes => lossyChars skip bytes
  | 0, b :: bytes =>
    match ByteArray.utf8DecodeChar? ⟨(b :: bytes).toArray⟩ 0 with
    | some c => c :: lossyChars (c.utf8Size - 1) bytes
    | none => '\uFFFD' :: lossyChars (illFormed (b :: bytes) - 1) bytes

/-- `String::from_utf8_lossy`. -/
def fromUtf8Lossy (bytes : List UInt8) : String :=
  match String.fromUTF8? ⟨bytes.toArray⟩ with
  | some s => s
  | none => String.ofList (lossyChars 0 bytes)

/-! ### The traits -/

/-- A length as a `u32`. -/
def lengthPrefix (n : Nat) : List UInt8 := toBeBytes 4 (n % 2 ^ 32)

/-- `ser_be`. -/
def serBe : (t : BeType) → t.Raw → List UInt8
  | .uint w, (x : BitVec (8 * w.bytes)) => toBeBytes w.bytes x.toNat
  | .int w, (x : BitVec (8 * w.bytes)) => toBeBytes w.bytes x.toNat
  | .bool, (x : Bool) => [if x then 1 else 0]
  | .bytes32, (x : Vector UInt8 32) => x.toList
  | .u256, (x : U256) => x.toBeBytes
  | .string, (s : String) => lengthPrefix s.toUTF8.size ++ s.toUTF8.data.toList
  | .vec t, (l : List t.Raw) => lengthPrefix l.length ++ l.flatMap (serBe t)
  | .option t, (x : Option t.Raw) =>
    match x with
    | none => [0]
    | some v => 1 :: serBe t v
  | .hashMap k v, (l : { l : List (k.Raw × v.Raw) // (l.map fun e => k.layout.value e.1).Nodup }) =>
    lengthPrefix l.1.length ++ l.1.flatMap fun e => serBe k e.1 ++ serBe v e.2
  | .tuple2 a b, (x : a.Raw × b.Raw) => serBe a x.1 ++ serBe b x.2
  | .tuple3 a b c, (x : a.Raw × b.Raw × c.Raw) =>
    serBe a x.1 ++ (serBe b x.2.1 ++ serBe c x.2.2)
  | .tuple4 a b c d, (x : a.Raw × b.Raw × c.Raw × d.Raw) =>
    serBe a x.1 ++ (serBe b x.2.1 ++ (serBe c x.2.2.1 ++ serBe d x.2.2.2))
  | .tuple5 a b c d e, (x : a.Raw × b.Raw × c.Raw × d.Raw × e.Raw) =>
    serBe a x.1 ++ (serBe b x.2.1 ++ (serBe c x.2.2.1 ++ (serBe d x.2.2.2.1 ++ serBe e x.2.2.2.2)))

/-- `try_de_be`; the offset it leaves when it fails is not kept. -/
def tryDeBe : (t : BeType) → Reader UInt8 t.Val
  | .uint w => do
    let buf ← take w.bytes
    return (BitVec.ofNat (8 * w.bytes) (fromBeBytes buf) : BitVec (8 * w.bytes))
  | .int w => do
    let buf ← take w.bytes
    return (BitVec.ofNat (8 * w.bytes) (fromBeBytes buf) : BitVec (8 * w.bytes))
  | .bool => do
    let buf ← take 1
    return (buf.getD 0 0 != 0 : Bool)
  | .bytes32 => do
    let buf ← take 32
    return (Vector.ofFn fun i => buf.getD i 0 : Vector UInt8 32)
  | .u256 => do
    let bytes ← take 32
    return U256.fromBeBytes bytes
  | .string => do
    let len ← take 4
    let bytes ← take (fromBeBytes len)
    return (fromUtf8Lossy bytes : String)
  | .vec t => do
    let len ← take 4
    readAll (List.replicate (fromBeBytes len) (tryDeBe t))
  | .option t => do
    let tag ← take 1
    if tag.getD 0 0 = 0 then return (none : Option t.Val)
    else do
      let v ← tryDeBe t
      return (some v : Option t.Val)
  | .hashMap k v => do
    let len ← take 4
    let entry : Reader UInt8 (k.Val × v.Val) := do
      let key ← tryDeBe k
      let val ← tryDeBe v
      return (key, val)
    fold entry (fun (m : Finmap fun _ : k.Val => v.Val) e => m.insert e.1 e.2) (fromBeBytes len)
      (∅ : Finmap fun _ : k.Val => v.Val)
  | .tuple2 a b => do
    let x ← tryDeBe a
    let y ← tryDeBe b
    return (x, y)
  | .tuple3 a b c => do
    let x ← tryDeBe a
    let y ← tryDeBe b
    let z ← tryDeBe c
    return (x, y, z)
  | .tuple4 a b c d => do
    let x ← tryDeBe a
    let y ← tryDeBe b
    let z ← tryDeBe c
    let u ← tryDeBe d
    return (x, y, z, u)
  | .tuple5 a b c d e => do
    let x ← tryDeBe a
    let y ← tryDeBe b
    let z ← tryDeBe c
    let u ← tryDeBe d
    let w ← tryDeBe e
    return (x, y, z, u, w)

/-! ### Bytes read back -/

theorem toBeBytes_length (n v : Nat) : (toBeBytes n v).length = n := by
  induction n with
  | zero => rfl
  | succ n ih => rw [toBeBytes, List.length_cons, ih]

theorem foldl_toBeBytes (n v acc : Nat) :
    (toBeBytes n v).foldl (fun acc b => acc * 256 + b.toNat) acc = acc * 256 ^ n + v % 256 ^ n := by
  induction n generalizing acc with
  | zero => simp [toBeBytes, Nat.mod_one]
  | succ n ih =>
    have hbyte : (UInt8.ofNat (v / 256 ^ n)).toNat = v / 256 ^ n % 256 := UInt8.toNat_ofNat'
    rw [toBeBytes, List.foldl_cons, ih, hbyte, Nat.mod_pow_succ, Nat.add_mul, Nat.pow_succ,
      Nat.mul_comm (256 ^ n) 256, Nat.mul_assoc, Nat.mul_comm (256 ^ n)]
    omega

theorem fromBeBytes_toBeBytes {n v : Nat} (h : v < 256 ^ n) : fromBeBytes (toBeBytes n v) = v := by
  rw [fromBeBytes, foldl_toBeBytes, Nat.zero_mul, Nat.zero_add, Nat.mod_eq_of_lt h]

theorem fromBeBytes_word (w : IntWidth) (x : BitVec (8 * w.bytes)) :
    BitVec.ofNat (8 * w.bytes) (fromBeBytes (toBeBytes w.bytes x.toNat)) = x := by
  have hlt : x.toNat < 256 ^ w.bytes := by
    have h := x.isLt
    rwa [Nat.pow_mul] at h
  rw [fromBeBytes_toBeBytes hlt, BitVec.ofNat_toNat, BitVec.setWidth_eq]

theorem U256.fromBeBytes_toBeBytes (v : U256) : U256.fromBeBytes v.toBeBytes = v := by
  have hlimb : ∀ x : U128, Core.fromBeBytes (Core.toBeBytes 16 x.toNat) = x.toNat :=
    fun x => Core.fromBeBytes_toBeBytes (n := 16) x.isLt
  rw [U256.fromBeBytes, U256.toBeBytes, List.take_left' (toBeBytes_length ..),
    List.drop_left' (toBeBytes_length ..), hlimb, hlimb]
  simp

theorem fromUtf8Lossy_toUTF8 (s : String) : fromUtf8Lossy s.toUTF8.data.toList = s := by
  have hvalid : String.fromUTF8? ⟨s.toUTF8.data.toList.toArray⟩ = some s := by
    simp [String.fromUTF8?, String.fromUTF8, s.isValidUTF8]
  rw [fromUtf8Lossy, hvalid]

theorem reads_lengthPrefix {n : Nat} (h : n < 2 ^ 32) :
    Reads (take 4) (lengthPrefix n) (lengthPrefix n) ∧ fromBeBytes (lengthPrefix n) = n := by
  refine ⟨reads_take _ (toBeBytes_length ..), ?_⟩
  rw [lengthPrefix, Nat.mod_eq_of_lt h]
  exact fromBeBytes_toBeBytes h

/-- A reader behind a length. -/
theorem reads_counted {α : Type} {n : Nat} {f : List UInt8 → Reader UInt8 α} {block : List UInt8}
    {a : α} (h : n < 2 ^ 32)
    (hf : fromBeBytes (lengthPrefix n) = n → Reads (f (lengthPrefix n)) block a) :
    Reads (take 4 >>= f) (lengthPrefix n ++ block) a := by
  obtain ⟨hread, hval⟩ := reads_lengthPrefix h
  exact hread.bind (hf hval)

/-! ### Maps -/

section Entries

variable {κ : Type} {φ : Type} [DecidableEq κ]

/-- Inserting entries with different keys, none of them there before. -/
theorem entries_foldl_insert (l : List (κ × φ)) (m : Finmap fun _ : κ => φ)
    (hnew : ∀ e ∈ l, e.1 ∉ m) (hnodup : (l.map Prod.fst).Nodup) :
    (l.foldl (fun m e => m.insert e.1 e.2) m).entries =
      ((l.map fun e => ⟨e.1, e.2⟩ : List (Sigma fun _ : κ => φ)) : Multiset _) + m.entries := by
  induction l generalizing m with
  | nil => simp
  | cons e l ih =>
    rw [List.map_cons, List.nodup_cons] at hnodup
    have hkey : ∀ e' ∈ l, e'.1 ∉ m.insert e.1 e.2 := by
      intro e' he' hmem
      rcases Finmap.mem_insert.mp hmem with heq | hold
      · exact hnodup.1 (heq ▸ List.mem_map_of_mem he')
      · exact hnew e' (List.mem_cons_of_mem _ he') hold
    rw [List.foldl_cons, ih _ hkey hnodup.2,
      Finmap.entries_insert_of_notMem (hnew e List.mem_cons_self), List.map_cons,
      ← Multiset.cons_coe, Multiset.cons_add, Multiset.add_cons]

end Entries

/-! ### Lengths -/

/-- Every string has fewer than `2 ^ 32` bytes and every collection fewer than `2 ^ 32`
    elements. -/
def BeType.Small : (t : BeType) → t.Val → Prop
  | .uint _, _ | .int _, _ | .bool, _ | .bytes32, _ | .u256, _ => True
  | .string, (s : String) => s.toUTF8.size < 2 ^ 32
  | .vec t, (l : List t.Val) => l.length < 2 ^ 32 ∧ ∀ x ∈ l, t.Small x
  | .option t, (x : Option t.Val) => ∀ y, x = some y → t.Small y
  | .hashMap k v, (m : Finmap fun _ : k.Val => v.Val) =>
    Multiset.card m.entries < 2 ^ 32 ∧ ∀ e ∈ m.entries, k.Small e.1 ∧ v.Small e.2
  | .tuple2 a b, (x : a.Val × b.Val) => a.Small x.1 ∧ b.Small x.2
  | .tuple3 a b c, (x : a.Val × b.Val × c.Val) => a.Small x.1 ∧ b.Small x.2.1 ∧ c.Small x.2.2
  | .tuple4 a b c d, (x : a.Val × b.Val × c.Val × d.Val) =>
    a.Small x.1 ∧ b.Small x.2.1 ∧ c.Small x.2.2.1 ∧ d.Small x.2.2.2
  | .tuple5 a b c d e, (x : a.Val × b.Val × c.Val × d.Val × e.Val) =>
    a.Small x.1 ∧ b.Small x.2.1 ∧ c.Small x.2.2.1 ∧ d.Small x.2.2.2.1 ∧ e.Small x.2.2.2.2

/-! ### Every type -/

theorem reads_word (w : IntWidth) (x : BitVec (8 * w.bytes)) :
    Reads (tryDeBe (.uint w)) (serBe (.uint w) x) x := by
  have hread := (reads_take _ (toBeBytes_length w.bytes x.toNat)).bind_pure
    (f := fun buf => BitVec.ofNat (8 * w.bytes) (fromBeBytes buf))
  rw [fromBeBytes_word w x] at hread
  exact hread

theorem reads_bool (b : Bool) : Reads (tryDeBe .bool) (serBe .bool b) b := by
  have hread := (reads_take [if b then (1 : UInt8) else 0] rfl).bind_pure
    (f := fun buf => (buf.getD 0 0 != 0 : Bool))
  have hval : (([if b then 1 else 0] : List UInt8).getD 0 0 != 0) = b := by
    cases b <;> rfl
  rw [hval] at hread
  exact hread

theorem reads_bytes32 (x : Vector UInt8 32) : Reads (tryDeBe .bytes32) (serBe .bytes32 x) x := by
  have hread := (reads_take x.toList (Vector.length_toList)).bind_pure
    (f := fun buf => Vector.ofFn fun i : Fin 32 => buf.getD i 0)
  have hval : (Vector.ofFn fun i : Fin 32 => x.toList.getD i 0) = x := by
    ext i hi
    simp
  rw [hval] at hread
  exact hread

theorem reads_u256 (x : U256) : Reads (tryDeBe .u256) (serBe .u256 x) x := by
  have hlen : x.toBeBytes.length = 32 := by
    rw [U256.toBeBytes, List.length_append, toBeBytes_length, toBeBytes_length]
  have hread := (reads_take _ hlen).bind_pure (f := U256.fromBeBytes)
  rw [U256.fromBeBytes_toBeBytes] at hread
  exact hread

theorem reads_string (s : String) (h : s.toUTF8.size < 2 ^ 32) :
    Reads (tryDeBe .string) (serBe .string s) s := by
  apply reads_counted h
  intro hlen
  rw [hlen]
  have hread := (reads_take s.toUTF8.data.toList rfl).bind_pure
    (f := fromUtf8Lossy)
  rw [fromUtf8Lossy_toUTF8] at hread
  exact hread

theorem reads_vec {t : BeType} (l : List t.Raw) (h : l.length < 2 ^ 32)
    (hl : ∀ x ∈ l, Reads (tryDeBe t) (serBe t x) (BeType.value x)) :
    Reads (tryDeBe (.vec t)) (serBe (.vec t) l) (l.map t.layout.value) := by
  apply reads_counted h
  intro hlen
  rw [hlen, ← List.map_const']
  exact reads_readAll l (fun _ => tryDeBe t) (serBe t) t.layout.value hl

theorem reads_option {t : BeType} (x : Option t.Raw)
    (hx : ∀ y, x = some y → Reads (tryDeBe t) (serBe t y) (BeType.value y)) :
    Reads (tryDeBe (.option t)) (serBe (.option t) x) (x.map t.layout.value) := by
  have htag : ∀ tag : UInt8, Reads (take 1) [tag] [tag] := fun tag => reads_take [tag] rfl
  cases x with
  | none =>
    have hnone : Reads (pure none : Reader UInt8 (Option t.Val)) [] none := reads_pure none
    exact (htag 0).bind hnone
  | some y => exact (htag 1).bind (hx y rfl).bind_pure

theorem reads_hashMap {k v : BeType} (l : (BeType.hashMap k v).Raw)
    (h : l.1.length < 2 ^ 32)
    (hl : ∀ e ∈ l.1, Reads (tryDeBe k) (serBe k e.1) (BeType.value e.1) ∧
      Reads (tryDeBe v) (serBe v e.2) (BeType.value e.2)) :
    Reads (tryDeBe (.hashMap k v)) (serBe (.hashMap k v) l) (BeType.value l) := by
  apply reads_counted h
  intro hlen
  rw [hlen]
  have hentry : ∀ e ∈ l.1,
      Reads (do return (← tryDeBe k, ← tryDeBe v) : Reader UInt8 (k.Val × v.Val))
      (serBe k e.1 ++ serBe v e.2) (k.layout.value e.1, v.layout.value e.2) := by
    intro e he
    apply (hl e he).1.bind
    exact (hl e he).2.bind_pure (f := fun val => (k.layout.value e.1, val))
  have hfold := reads_fold l.1 (fun e => serBe k e.1 ++ serBe v e.2)
    (fun e => (k.layout.value e.1, v.layout.value e.2))
    (fun (m : Finmap fun _ : k.Val => v.Val) e => m.insert e.1 e.2) hentry ∅
  have hval : (l.1.map fun e => (k.layout.value e.1, v.layout.value e.2)).foldl
      (fun (m : Finmap fun _ : k.Val => v.Val) e => m.insert e.1 e.2) ∅ = BeType.value l := by
    apply Finmap.ext
    have hnodup : ((l.1.map fun e => (k.layout.value e.1, v.layout.value e.2)).map
        Prod.fst).Nodup := by
      rw [List.map_map]
      exact l.2
    rw [entries_foldl_insert _ ∅ (fun e _ => Finmap.notMem_empty) hnodup, List.map_map]
    exact add_zero _
  rw [hval] at hfold
  exact hfold

/-- What `ser_be` writes, `try_de_be` reads back, in any buffer and from any order of the
    entries.  The induction is on the type. -/
theorem reads_serBe (t : BeType) (r : t.Raw) (h : t.Small (BeType.value r)) :
    Reads (tryDeBe t) (serBe t r) (BeType.value r) := by
  induction t with
  | uint w => exact reads_word w r
  | int w => exact reads_word w r
  | bool => exact reads_bool r
  | bytes32 => exact reads_bytes32 r
  | u256 => exact reads_u256 r
  | string => exact reads_string r h
  | vec t ih =>
    have hlen : List.length r < 2 ^ 32 :=
      lt_of_eq_of_lt (List.length_map t.layout.value).symm h.1
    exact reads_vec r hlen fun x hx => ih x (h.2 _ (List.mem_map_of_mem hx))
  | option t ih =>
    refine reads_option r ?_
    rintro y rfl
    exact ih y (h _ rfl)
  | hashMap k v ihk ihv =>
    have hentry : ∀ e ∈ r.1, k.Small (BeType.value e.1) ∧ v.Small (BeType.value e.2) :=
      fun e he => h.2 ⟨BeType.value e.1, BeType.value e.2⟩
        (Multiset.mem_coe.mpr (List.mem_map_of_mem he))
    have hlen : r.1.length < 2 ^ 32 :=
      lt_of_eq_of_lt (List.length_map fun e : k.Raw × v.Raw =>
        (⟨k.layout.value e.1, v.layout.value e.2⟩ : Sigma fun _ : k.Val => v.Val)).symm h.1
    exact reads_hashMap r hlen fun e he => ⟨ihk _ (hentry e he).1, ihv _ (hentry e he).2⟩
  | tuple2 a b iha ihb =>
    exact (iha _ h.1).bind (ihb _ h.2).bind_pure
  | tuple3 a b c iha ihb ihc =>
    exact (iha _ h.1).bind ((ihb _ h.2.1).bind (ihc _ h.2.2).bind_pure)
  | tuple4 a b c d iha ihb ihc ihd =>
    exact (iha _ h.1).bind ((ihb _ h.2.1).bind ((ihc _ h.2.2.1).bind (ihd _ h.2.2.2).bind_pure))
  | tuple5 a b c d e iha ihb ihc ihd ihe =>
    exact (iha _ h.1).bind ((ihb _ h.2.1).bind ((ihc _ h.2.2.1).bind
      ((ihd _ h.2.2.2.1).bind (ihe _ h.2.2.2.2).bind_pure)))

/-- Every value has its iteration orders. -/
theorem exists_raw (t : BeType) (v : t.Val) : ∃ r : t.Raw, BeType.value r = v := by
  induction t with
  | uint w => exact ⟨v, rfl⟩
  | int w => exact ⟨v, rfl⟩
  | bool => exact ⟨v, rfl⟩
  | bytes32 => exact ⟨v, rfl⟩
  | u256 => exact ⟨v, rfl⟩
  | string => exact ⟨v, rfl⟩
  | vec t ih => exact List.map_surjective_iff.mpr ih v
  | option t ih =>
    cases v with
    | none => exact ⟨none, rfl⟩
    | some y =>
      obtain ⟨x, hx⟩ := ih y
      exact ⟨some x, congrArg some hx⟩
  | hashMap k w ihk ihw =>
    choose key hkey using ihk
    choose val hval using ihw
    obtain ⟨l, hl⟩ := Quot.exists_rep (Finmap.entries v)
    have hkeys : (l.map Sigma.fst).Nodup := by
      have h := Finmap.nodupKeys v
      rw [← hl] at h
      exact Multiset.coe_nodupKeys.mp h
    refine ⟨⟨l.map fun e => (key e.1, val e.2), ?_⟩, ?_⟩
    · rw [List.map_map]
      simpa only [Function.comp_def, hkey] using hkeys
    · apply Finmap.ext
      have hback : (l.map fun e => (key e.1, val e.2)).map
          (fun e => (⟨BeType.value e.1, BeType.value e.2⟩ : Sigma fun _ : k.Val => w.Val)) = l := by
        rw [List.map_map]
        simp only [Function.comp_def, hkey, hval]
        exact List.map_id l
      rw [← hl]
      exact congrArg (fun l => (Multiset.ofList l)) hback
  | tuple2 a b iha ihb =>
    obtain ⟨x, hx⟩ := iha v.1
    obtain ⟨y, hy⟩ := ihb v.2
    exact ⟨(x, y), Prod.ext hx hy⟩
  | tuple3 a b c iha ihb ihc =>
    obtain ⟨x, hx⟩ := iha v.1
    obtain ⟨y, hy⟩ := ihb v.2.1
    obtain ⟨z, hz⟩ := ihc v.2.2
    exact ⟨(x, y, z), Prod.ext hx (Prod.ext hy hz)⟩
  | tuple4 a b c d iha ihb ihc ihd =>
    obtain ⟨x, hx⟩ := iha v.1
    obtain ⟨y, hy⟩ := ihb v.2.1
    obtain ⟨z, hz⟩ := ihc v.2.2.1
    obtain ⟨u, hu⟩ := ihd v.2.2.2
    exact ⟨(x, y, z, u), Prod.ext hx (Prod.ext hy (Prod.ext hz hu))⟩
  | tuple5 a b c d e iha ihb ihc ihd ihe =>
    obtain ⟨x, hx⟩ := iha v.1
    obtain ⟨y, hy⟩ := ihb v.2.1
    obtain ⟨z, hz⟩ := ihc v.2.2.1
    obtain ⟨u, hu⟩ := ihd v.2.2.2.1
    obtain ⟨w, hw⟩ := ihe v.2.2.2.2
    exact ⟨(x, y, z, u, w), Prod.ext hx (Prod.ext hy (Prod.ext hz (Prod.ext hu hw)))⟩

/-! ### Fields in a row -/

/-- A value of some type as it is written. -/
abbrev Field := Σ t : BeType, t.Raw

def Field.Small (f : Field) : Prop := f.1.Small (BeType.value f.2)

def Field.serBe (f : Field) : List UInt8 := Core.serBe f.1 f.2

/-- The value that is read for a field, with its type. -/
def Field.value (f : Field) : Σ t : BeType, t.Val := ⟨f.1, BeType.value f.2⟩

/-- `try_de_be` at the type of the field. -/
def Field.tryDeBe (f : Field) : Reader UInt8 (Σ t : BeType, t.Val) := do
  let v ← Core.tryDeBe f.1
  return ⟨f.1, v⟩

theorem reads_fields (fields : List Field) (h : ∀ f ∈ fields, f.Small) :
    Reads (readAll (fields.map Field.tryDeBe)) (fields.flatMap Field.serBe)
      (fields.map Field.value) :=
  reads_readAll fields Field.tryDeBe Field.serBe Field.value fun f hf =>
    (reads_serBe f.1 f.2 (h f hf)).bind_pure (f := fun v => (⟨f.1, v⟩ : Σ t : BeType, t.Val))

/-- **Every value is read back from wherever it was written**, whatever order its maps were
    written in; no encoding begins another one of its type; and fields written in a row
    are read in a row. -/
theorem tryDeBe_serBe :
    (∀ (t : BeType) (v : t.Val), t.Small v →
      (∃ r : t.Raw, BeType.value r = v) ∧
      ∀ r : t.Raw, BeType.value r = v → ∀ before after : List UInt8,
        tryDeBe t (before ++ serBe t r ++ after) before.length =
          some (v, before.length + (serBe t r).length)) ∧
    (∀ (t : BeType) (r r' : t.Raw), t.Small (BeType.value r) → t.Small (BeType.value r') →
      serBe t r <+: serBe t r' → serBe t r = serBe t r' ∧ BeType.value r = BeType.value r') ∧
    (∀ fields : List Field, (∀ f ∈ fields, f.Small) → ∀ before after : List UInt8,
      readAll (fields.map Field.tryDeBe) (before ++ fields.flatMap Field.serBe ++ after)
          before.length =
        some (fields.map Field.value, before.length + (fields.flatMap Field.serBe).length)) := by
  refine ⟨?_, ?_, reads_fields⟩
  · intro t v h
    refine ⟨exists_raw t v, ?_⟩
    rintro r rfl
    exact reads_serBe t r h
  · intro t r r' h h' hbegin
    exact (reads_serBe t r h).eq_of_begins (reads_serBe t r' h') hbegin

/-- A map of two entries, the first one first. -/
def oneTwo : (BeType.hashMap (.uint .w8) .bool).Raw :=
  ⟨[(1#8, true), (2#8, false)], by decide⟩

/-- The same map, the second entry first. -/
def twoOne : (BeType.hashMap (.uint .w8) .bool).Raw :=
  ⟨[(2#8, false), (1#8, true)], by decide⟩

theorem read_two_orders :
    serBe _ oneTwo = [0, 0, 0, 2, 1, 1, 2, 0] ∧ serBe _ twoOne = [0, 0, 0, 2, 2, 0, 1, 1] ∧
      tryDeBe _ ([7] ++ serBe _ oneTwo ++ [9]) 1 = some (BeType.value oneTwo, 9) ∧
      tryDeBe _ ([7] ++ serBe _ twoOne ++ [9]) 1 = some (BeType.value oneTwo, 9) := by
  have hsmall : BeType.Small _ (BeType.value oneTwo) :=
    ⟨by decide, fun _ _ => ⟨trivial, trivial⟩⟩
  have hsame : BeType.value twoOne = BeType.value oneTwo :=
    Finmap.ext (Quot.sound (List.Perm.swap ..))
  refine ⟨rfl, rfl, ?_, ?_⟩
  · exact (tryDeBe_serBe.1 _ _ hsmall).2 oneTwo rfl [7] [9]
  · exact (tryDeBe_serBe.1 _ _ hsmall).2 twoOne hsame [7] [9]

theorem looks_tryDeBe (t : BeType) : Looks (tryDeBe t) := by
  induction t with
  | uint w | int w | bool | bytes32 | u256 => exact (looks_take _).bind fun _ => looks_pure _
  | string => exact (looks_take 4).bind fun _ => (looks_take _).bind fun _ => looks_pure _
  | vec t ih =>
    exact (looks_take 4).bind fun len => looks_readAll fun r hr => List.eq_of_mem_replicate hr ▸ ih
  | option t ih =>
    have hread (p : Prop) [Decidable p] : Looks (if p then pure none else do
        let v ← tryDeBe t
        return (some v : Option t.Val) : Reader UInt8 (Option t.Val)) := by
      split
      · exact looks_pure none
      · exact ih.bind fun v => looks_pure (some v)
    exact (looks_take 1).bind fun tag => hread (tag.getD 0 0 = 0)
  | hashMap k v ihk ihv =>
    refine (looks_take 4).bind fun len => looks_fold ?_ _ _ _
    exact ihk.bind fun key => ihv.bind fun val => looks_pure (key, val)
  | tuple2 a b iha ihb => exact iha.bind fun _ => ihb.bind fun _ => looks_pure _
  | tuple3 a b c iha ihb ihc =>
    exact iha.bind fun _ => ihb.bind fun _ => ihc.bind fun _ => looks_pure _
  | tuple4 a b c d iha ihb ihc ihd =>
    exact iha.bind fun _ => ihb.bind fun _ => ihc.bind fun _ => ihd.bind fun _ => looks_pure _
  | tuple5 a b c d e iha ihb ihc ihd ihe =>
    exact iha.bind fun _ => ihb.bind fun _ => ihc.bind fun _ => ihd.bind fun _ =>
      ihe.bind fun _ => looks_pure _

end CambrianLang.Core
