/-
  **The string parsers of the EVM back end**
  (`codegen/solidity/core/pure.rs`).

  `_cam_try_parse_radix` and its signed variant share the header, the digit and
  the guarded accumulation.  An early `return (false, 0)` is an inner `none`, a
  revert an outer one.
-/
import CambrianLang.Solidity.MathHelpers
import CambrianLang.Str.Notation

namespace CambrianLang.Solidity

open CheckedWord Positional Str

/-- An element of `bytes memory`. -/
abbrev Byte := BitVec 8

/-- The two bytes `0x` or `0X` and what follows them. -/
def hexBytes : List Byte → Option (List Byte)
  | c₀ :: c₁ :: rest =>
      if c₀ = 0x30#8 ∧ (c₁ = 0x78#8 ∨ c₁ = 0x58#8) then some rest else none
  | _ => none

/-- The lines before the loop: the bytes left and the base. -/
def radixHeader (b : List Byte) (radix : Word) : Option (List Byte × Word) :=
  let split := match hexBytes b with
    | some rest => if radix ≠ 0#256 ∧ radix ≠ 16#256 then none else some (rest, 16#256)
    | none => some (b, if radix = 0#256 then 10#256 else radix)
  split.filter fun p => decide (2 ≤ p.2.toNat ∧ p.2.toNat ≤ 36) && !p.1.isEmpty

/-- `digit`, from the `uint8` arithmetic on the character. -/
def byteDigit (c : Byte) : Option (Option Word) :=
  if 48 ≤ c.toNat ∧ c.toNat ≤ 57 then (csub c 48#8).map fun d => some (d.setWidth 256)
  else if 65 ≤ c.toNat ∧ c.toNat ≤ 90 then (csub c 55#8).map fun d => some (d.setWidth 256)
  else if 97 ≤ c.toNat ∧ c.toNat ≤ 122 then (csub c 87#8).map fun d => some (d.setWidth 256)
  else some none

/-- The guarded lines from `if (n > type(uint256).max / base)` to `n = next`. -/
def accumulate (base bound n digit : Word) : Option (Option Word) := do
  let limit ← cdiv maxWord base
  if limit.toNat < n.toNat then return none
  let scaled ← cmul n base
  let room ← csub maxWord scaled
  if room.toNat < digit.toNat then return none
  let next ← cadd scaled digit
  if bound.toNat < next.toNat then return none
  return some next

/-- The digit loop. -/
def parseLoop (base bound : Word) : Word → List Byte → Option (Option Word)
  | n, [] => some (some n)
  | n, c :: rest =>
      (byteDigit c).bind fun
        | none => some none
        | some digit =>
          if base.toNat ≤ digit.toNat then some none
          else (accumulate base bound n digit).bind fun
            | none => some none
            | some next => parseLoop base bound next rest

/-- `maxV`. -/
def maxValue (maxBits : Word) : Option Word :=
  if 256 ≤ maxBits.toNat then some maxWord else csub (1#256 <<< maxBits.toNat) 1#256

/-- `_cam_try_parse_radix`. -/
def camTryParseRadix (b : List Byte) (radix maxBits : Word) : Option (Bool × Word) :=
  match radixHeader b radix with
  | none => some (false, 0#256)
  | some (rest, base) => do
      let maxV ← maxValue maxBits
      let n ← parseLoop base maxV 0#256 rest
      match n with
      | none => return (false, 0#256)
      | some n => return (true, n)

/-- `maxPos`; the 256-bit case is the unsigned maximum. -/
def maxPositive (maxBits : Word) : Option Word :=
  if 256 ≤ maxBits.toNat then some maxWord
  else do
    let bits ← csub maxBits 1#256
    csub (1#256 <<< bits.toNat) 1#256

/-- `neg ? (maxPos + 1) : maxPos`. -/
def maxMagnitude (neg : Bool) (maxPos : Word) : Option Word :=
  if neg then cadd maxPos 1#256 else some maxPos

/-- `neg ? -int256(n) : int256(n)`: the cast reinterprets the word and the minus sign
    reverts on the least value. -/
def signedOut (neg : Bool) (n : Word) : Option Word :=
  if neg then (if n = 1#256 <<< 255 then none else some (-n)) else some n

/-- The leading `-`. -/
def signBytes : List Byte → Bool × List Byte
  | [] => (false, [])
  | c :: rest => if c = 0x2D#8 then (true, rest) else (false, c :: rest)

/-- `_cam_try_parse_radix_signed`; the `int256` is its two's-complement word. -/
def camTryParseRadixSigned (b : List Byte) (radix maxBits : Word) : Option (Bool × Word) :=
  match radixHeader (signBytes b).2 radix with
  | none => some (false, 0#256)
  | some (rest, base) => do
      let maxPos ← maxPositive maxBits
      let maxMag ← maxMagnitude (signBytes b).1 maxPos
      let n ← parseLoop base maxMag 0#256 rest
      match n with
      | none => return (false, 0#256)
      | some n => do
          let out ← signedOut (signBytes b).1 n
          return (true, out)

/-! ### Characters as bytes -/

/-- Every character is ASCII. -/
def Ascii (cs : List Char) : Prop := ∀ c ∈ cs, c.toNat < 128

instance (cs : List Char) : Decidable (Ascii cs) := List.decidableBAll _ cs

/-- The byte of an ASCII character. -/
def charByte (c : Char) : Byte := BitVec.ofNat 8 c.toNat

/-- `bytes(s)` of an ASCII string. -/
def bytesOf (cs : List Char) : List Byte := cs.map charByte

theorem charByte_toNat {c : Char} (h : c.toNat < 128) : (charByte c).toNat = c.toNat := by
  rw [charByte, BitVec.toNat_ofNat, Nat.mod_eq_of_lt (by omega)]

theorem charByte_eq_iff {c d : Char} (hc : c.toNat < 128) (hd : d.toNat < 128) :
    charByte c = charByte d ↔ c = d := by
  rw [← BitVec.toNat_inj, charByte_toNat hc, charByte_toNat hd]
  exact ⟨fun h => Char.toNat_inj.mp h, fun h => by rw [h]⟩

/-- A digit is computed without underflow. -/
theorem csub_byte {c : Byte} {k : Nat} (hk : k < 256) (h : k ≤ c.toNat) :
    (csub c (BitVec.ofNat 8 k)).map (fun d => some (d.setWidth 256)) =
      some (some (BitVec.ofNat 256 (c.toNat - k))) := by
  have hkv : (BitVec.ofNat 8 k).toNat = k := by
    rw [BitVec.toNat_ofNat, Nat.mod_eq_of_lt hk]
  obtain ⟨d, hd, hdv⟩ := csub_of_le (x := c) (y := BitVec.ofNat 8 k) (by omega)
  rw [hd, Option.map_some, ← BitVec.ofNat_toNat, hdv, hkv]

theorem charDigit_eq (c : Char) :
    charDigit c = if 48 ≤ c.toNat ∧ c.toNat ≤ 57 then some (c.toNat - 48)
      else if 97 ≤ c.toNat ∧ c.toNat ≤ 122 then some (c.toNat - 87)
      else if 65 ≤ c.toNat ∧ c.toNat ≤ 90 then some (c.toNat - 55)
      else none := rfl

theorem charDigit_lt {c : Char} {d : Nat} (h : charDigit c = some d) : d < 36 := by
  rw [charDigit_eq] at h
  split at h
  · cases h; omega
  · split at h
    · cases h; omega
    · split at h
      · cases h; omega
      · cases h

theorem byteDigit_charByte {c : Char} (h : c.toNat < 128) :
    byteDigit (charByte c) = some ((charDigit c).map (BitVec.ofNat 256)) := by
  have hc := charByte_toNat h
  rw [byteDigit, charDigit_eq, hc]
  by_cases hnum : 48 ≤ c.toNat ∧ c.toNat ≤ 57
  · rw [if_pos hnum, if_pos hnum, csub_byte (by decide) (by omega), hc, Option.map_some]
  · rw [if_neg hnum, if_neg hnum]
    by_cases hup : 65 ≤ c.toNat ∧ c.toNat ≤ 90
    · rw [if_pos hup, if_neg (by omega), if_pos hup, csub_byte (by decide) (by omega), hc,
        Option.map_some]
    · rw [if_neg hup]
      by_cases hlow : 97 ≤ c.toNat ∧ c.toNat ≤ 122
      · rw [if_pos hlow, if_pos hlow, csub_byte (by decide) (by omega), hc, Option.map_some]
      · rw [if_neg hlow, if_neg hlow, if_neg hup, Option.map_none]

/-! ### The loop is Horner's rule under a bound -/

/-- The word of a number that is within the bound. -/
def bounded (bound : Word) (n : Nat) : Option Word :=
  if n ≤ bound.toNat then some (BitVec.ofNat 256 n) else none

theorem accumulate_eq {base bound n digit : Word} (hb : base ≠ 0#256) :
    accumulate base bound n digit =
      some (bounded bound (n.toNat * base.toNat + digit.toNat)) := by
  have hpos := toNat_pos hb
  have hmax := maxWord_toNat
  have hbound := bound.isLt
  have hlim : maxWord.toNat / base.toNat < 2 ^ 256 := (Nat.div_le_self _ _).trans_lt maxWord.isLt
  obtain ⟨limit, hlimit, hlimv⟩ : ∃ z, cdiv maxWord base = some z ∧
      z.toNat = maxWord.toNat / base.toNat := by
    rw [cdiv_eq hb, exact_of_lt hlim]
    exact ⟨_, rfl, by rw [BitVec.toNat_ofNat, Nat.mod_eq_of_lt hlim]⟩
  rw [accumulate, hlimit, bounded]
  simp only [Option.bind_eq_bind, Option.bind_some, hlimv]
  by_cases hover : maxWord.toNat / base.toNat < n.toNat
  · have hbig : maxWord.toNat < n.toNat * base.toNat := (Nat.div_lt_iff_lt_mul hpos).mp hover
    rw [if_pos hover, if_neg (by omega)]
    rfl
  · have hfit : n.toNat * base.toNat ≤ maxWord.toNat := by
      rw [← Nat.le_div_iff_mul_le hpos]
      omega
    obtain ⟨scaled, hscaled, hsv⟩ := cmul_of_lt (x := n) (y := base) (by omega)
    obtain ⟨room, hroom, hrv⟩ := csub_of_le (x := maxWord) (y := scaled) (by omega)
    rw [if_neg hover, hscaled]
    simp only [Option.bind_some, hroom]
    by_cases hdig : room.toNat < digit.toNat
    · rw [if_pos hdig, if_neg (by omega)]
      rfl
    · obtain ⟨next, hnext, hnv⟩ := cadd_of_lt (x := scaled) (y := digit) (by omega)
      rw [if_neg hdig, hnext]
      simp only [Option.bind_some, hnv, hsv]
      by_cases hbig : bound.toNat < n.toNat * base.toNat + digit.toNat
      · rw [if_pos hbig, if_neg (by omega)]
        rfl
      · rw [if_neg hbig, if_pos (by omega), ← hsv, ← hnv, BitVec.ofNat_toNat, BitVec.setWidth_eq]
        rfl

theorem digit_toNat {d : Nat} (h : d < 2 ^ 256) : (BitVec.ofNat 256 d).toNat = d := by
  rw [BitVec.toNat_ofNat, Nat.mod_eq_of_lt h]

/-- **The loop**: it never reverts, and returns the value of the digits when every
    character is one and the value is within the bound. -/
theorem parseLoop_eq {base bound n : Word} {cs : List Char} (hb : base ≠ 0#256) (hcs : Ascii cs)
    (hn : n.toNat ≤ bound.toNat) :
    parseLoop base bound n (bytesOf cs) =
      some ((digitsIn base.toNat cs).bind fun ds =>
        bounded bound (horner base.toNat n.toNat ds)) := by
  induction cs generalizing n with
  | nil =>
    rw [bytesOf, List.map_nil, parseLoop, digitsIn, Option.bind_some, horner_nil, bounded,
      if_pos hn, BitVec.ofNat_toNat, BitVec.setWidth_eq]
  | cons c cs ih =>
    obtain ⟨hc, hrest⟩ := List.forall_mem_cons.mp hcs
    rw [bytesOf, List.map_cons, parseLoop, byteDigit_charByte hc, Option.bind_some, digitsIn,
      digitIn]
    cases hd : charDigit c with
    | none => rfl
    | some d =>
      have hd256 : d < 2 ^ 256 := (charDigit_lt hd).trans (by norm_num)
      rw [Option.map_some, Option.filter_some]
      simp only [digit_toNat hd256, decide_eq_true_eq]
      by_cases hlt : d < base.toNat
      · rw [if_neg (by omega), if_pos hlt, accumulate_eq hb]
        simp only [Option.bind_some, Option.bind_map, Function.comp_def, horner_cons,
          digit_toNat hd256, bounded]
        by_cases hfit : n.toNat * base.toNat + d ≤ bound.toNat
        · have hword := digit_toNat (hfit.trans_lt bound.isLt)
          rw [if_pos hfit]
          simp only
          rw [← bytesOf, ih hrest (by omega), hword]
          rfl
        · rw [if_neg hfit]
          simp only [Option.some.injEq]
          rw [eq_comm, Option.bind_eq_none_iff]
          intro ds _
          have hle := le_horner (toNat_pos hb) (n.toNat * base.toNat + d) ds
          exact if_neg (by omega)
      · rw [if_pos (by omega), if_neg hlt]
        rfl

/-! ### The header -/

theorem hexBytes_bytesOf {cs : List Char} (hcs : Ascii cs) :
    hexBytes (bytesOf cs) = (hexPrefix cs).map bytesOf := by
  match cs, hcs with
  | [], _ => rfl
  | [c], _ => rw [hexPrefix_singleton]; rfl
  | c₀ :: c₁ :: rest, hcs =>
    obtain ⟨h₀, hcs'⟩ := List.forall_mem_cons.mp hcs
    obtain ⟨h₁, -⟩ := List.forall_mem_cons.mp hcs'
    have hzero : charByte c₀ = 0x30#8 ↔ c₀ = '0' := charByte_eq_iff (d := '0') h₀ (by decide)
    have hlow : charByte c₁ = 0x78#8 ↔ c₁ = 'x' := charByte_eq_iff (d := 'x') h₁ (by decide)
    have hup : charByte c₁ = 0x58#8 ↔ c₁ = 'X' := charByte_eq_iff (d := 'X') h₁ (by decide)
    simp only [bytesOf, List.map_cons, hexBytes, hzero, hlow, hup, hexPrefix_cons_cons]
    split
    · rfl
    · rfl

theorem toNat_eq_iff {x : Word} {k : Nat} (hk : k < 2 ^ 256) :
    x.toNat = k ↔ x = BitVec.ofNat 256 k := by
  rw [← BitVec.toNat_inj, digit_toNat hk]

/-- The header finds the same digits and base as the notation. -/
theorem radixHeader_bytesOf {cs : List Char} (hcs : Ascii cs) (radix : Word) :
    radixHeader (bytesOf cs) radix =
      (header cs radix.toNat).map fun p => (bytesOf p.1, BitVec.ofNat 256 p.2) := by
  have hzero : radix.toNat = 0 ↔ radix = 0#256 := toNat_eq_iff (by norm_num)
  have hhex : radix.toNat = 16 ↔ radix = 16#256 := toNat_eq_iff (by norm_num)
  have hempty : ∀ cs, (bytesOf cs).isEmpty = cs.isEmpty := fun cs => by cases cs <;> rfl
  rw [radixHeader, header, hexBytes_bytesOf hcs]
  cases hexPrefix cs with
  | some rest =>
    simp only [Option.map_some, hzero, hhex]
    by_cases hr : radix = 0#256 ∨ radix = 16#256
    · rw [if_pos hr, if_neg (by tauto), Option.filter_some, Option.filter_some, hempty,
        digit_toNat (by norm_num)]
      split
      · rfl
      · rfl
    · rw [if_neg hr, if_pos (by tauto)]
      rfl
  | none =>
    have hten : (if radix = 0#256 then 10#256 else radix) = BitVec.ofNat 256 (radixOrTen radix.toNat) := by
      rw [radixOrTen]
      by_cases hr : radix = 0#256
      · rw [if_pos hr, if_pos (hzero.mpr hr)]
      · rw [if_neg hr, if_neg (fun h => hr (hzero.mp h)), BitVec.ofNat_toNat, BitVec.setWidth_eq]
    have hval : (BitVec.ofNat 256 (radixOrTen radix.toNat)).toNat = radixOrTen radix.toNat := by
      refine digit_toNat ?_
      rw [radixOrTen]
      split
      · norm_num
      · exact radix.isLt
    simp only [Option.map_none, hten, Option.filter_some, hval, hempty]
    split
    · rfl
    · rfl

/-! ### The unsigned parser -/

/-- The returned pair: `(false, 0)` for no value. -/
def resultPair : Option Word → Bool × Word
  | none => (false, 0#256)
  | some v => (true, v)

/-- `(uint256(1) << k) - 1` below the word size. -/
theorem onesBelow_eq {k : Nat} (hk : k < 256) :
    ∃ m, csub (1#256 <<< k) 1#256 = some m ∧ m.toNat = 2 ^ k - 1 := by
  have hshift : (1#256 <<< k).toNat = 2 ^ k :=
    one_shl_toNat (Nat.pow_lt_pow_right (by decide) hk)
  have hone : (1#256).toNat = 1 := by simp
  have hpos := Nat.two_pow_pos k
  obtain ⟨m, hm, hmv⟩ := csub_of_le (x := 1#256 <<< k) (y := 1#256) (by omega)
  exact ⟨m, hm, by omega⟩

theorem width_toNat {w : Nat} (hw : w ≤ 256) : (BitVec.ofNat 256 w).toNat = w :=
  digit_toNat (hw.trans_lt (by norm_num))

theorem maxValue_eq {w : Nat} (hw : w ≤ 256) :
    ∃ m, maxValue (BitVec.ofNat 256 w) = some m ∧ m.toNat = 2 ^ w - 1 := by
  rw [maxValue, width_toNat hw]
  by_cases h : 256 ≤ w
  · obtain rfl : w = 256 := by omega
    exact ⟨maxWord, if_pos h, maxWord_toNat⟩
  · rw [if_neg h]
    exact onesBelow_eq (by omega)

/-- The loop after a good header, from `n = 0`. -/
theorem parseLoop_of_header {cs rest : List Char} {radix base : Nat} {bound : Word}
    (hcs : Ascii cs) (h : header cs radix = some (rest, base)) :
    parseLoop (BitVec.ofNat 256 base) bound 0#256 (bytesOf rest) =
      some ((digitsIn base rest).bind fun ds => bounded bound (valueOf base ds)) := by
  obtain ⟨hlo, hhi, -⟩ := header_base h
  have hbase : (BitVec.ofNat 256 base).toNat = base := width_toNat (by omega)
  have hne : BitVec.ofNat 256 base ≠ 0#256 := by
    intro h0
    rw [h0, BitVec.toNat_ofNat, Nat.zero_mod] at hbase
    omega
  have hzero : (0#256).toNat = 0 := by simp
  rw [parseLoop_eq hne (header_forall h hcs) (by omega), hbase, hzero]
  rfl

theorem bounded_eq {bound : Word} {m n : Nat} (hm : ∀ n, n ≤ bound.toNat ↔ n < m) :
    bounded bound n = ((some n).filter fun n => decide (n < m)).map (BitVec.ofNat 256) := by
  rw [bounded, Option.filter_some]
  simp only [hm, decide_eq_true_eq]
  split
  · rfl
  · rfl

/-- **The unsigned parser means the notation**, for every ASCII string, radix and
    width, and never reverts. -/
theorem camTryParseRadix_eq {cs : List Char} (hcs : Ascii cs) (radix : Word) {w : Nat} (hw : w ≤ 256) :
    camTryParseRadix (bytesOf cs) radix (BitVec.ofNat 256 w) =
      some (resultPair (((magnitude cs radix.toNat).filter fun n => decide (n < 2 ^ w)).map
        (BitVec.ofNat 256))) := by
  rw [camTryParseRadix, radixHeader_bytesOf hcs, magnitude_eq]
  cases hhead : header cs radix.toNat with
  | none => rfl
  | some p =>
    obtain ⟨rest, base⟩ := p
    obtain ⟨maxV, hmaxV, hval⟩ := maxValue_eq hw
    have hpos := Nat.two_pow_pos w
    simp only [Option.map_some, hmaxV, parseLoop_of_header hcs hhead, Option.bind_eq_bind,
      Option.bind_some]
    cases digitsIn base rest with
    | none => rfl
    | some ds =>
      simp only [Option.bind_some, Option.map_some,
        bounded_eq (m := 2 ^ w) (fun n => show n ≤ maxV.toNat ↔ n < 2 ^ w by omega)]
      cases ((some (valueOf base ds)).filter fun n => decide (n < 2 ^ w)) with
      | none => rfl
      | some n => rfl

/-! ### The signed parser -/

theorem signBytes_bytesOf {cs : List Char} (hcs : Ascii cs) :
    signBytes (bytesOf cs) = ((signSplit cs).1, bytesOf (signSplit cs).2) := by
  cases cs with
  | nil => rfl
  | cons c rest =>
    obtain ⟨hc, -⟩ := List.forall_mem_cons.mp hcs
    have hminus : charByte c = 0x2D#8 ↔ c = '-' := charByte_eq_iff (d := '-') hc (by decide)
    simp only [bytesOf, List.map_cons, signBytes, hminus]
    by_cases h : c = '-'
    · subst h
      rfl
    · rw [if_neg h]
      unfold signSplit
      split
      · next heq => cases heq; exact absurd rfl h
      · rfl

theorem signSplit_ascii {cs : List Char} (hcs : Ascii cs) : Ascii (signSplit cs).2 := by
  unfold signSplit
  split
  · exact fun c hc => hcs c (List.mem_cons_of_mem _ hc)
  · exact hcs

theorem maxPositive_eq {w : Nat} (hw : 0 < w) (hw' : w < 256) :
    ∃ m, maxPositive (BitVec.ofNat 256 w) = some m ∧ m.toNat = 2 ^ (w - 1) - 1 := by
  have hwv := width_toNat hw'.le
  have hone : (1#256).toNat = 1 := by simp
  obtain ⟨bits, hbits, hbv⟩ := csub_of_le (x := BitVec.ofNat 256 w) (y := 1#256) (by omega)
  have hb : bits.toNat = w - 1 := by omega
  rw [maxPositive, hwv, if_neg (by omega), hbits, Option.bind_eq_bind, Option.bind_some, hb]
  exact onesBelow_eq (by omega)

theorem maxMagnitude_eq (neg : Bool) {w : Nat} (hw : 0 < w) (hw' : w < 256) {maxPos : Word}
    (h : maxPos.toNat = 2 ^ (w - 1) - 1) :
    ∃ m, maxMagnitude neg maxPos = some m ∧
      ∀ n, n ≤ m.toNat ↔ InSignedRange w (signed neg n) := by
  have hpos := Nat.two_pow_pos (w - 1)
  have hcast : ((2 ^ (w - 1) : Nat) : Int) = 2 ^ (w - 1) := by norm_cast
  cases neg with
  | true =>
    have hone : (1#256).toNat = 1 := by simp
    have hlt : 2 ^ (w - 1) < 2 ^ 256 := Nat.pow_lt_pow_right (by decide) (by omega)
    obtain ⟨m, hm, hmv⟩ := cadd_of_lt (x := maxPos) (y := 1#256) (by omega)
    refine ⟨m, hm, ?_⟩
    intro n
    simp only [InSignedRange, signed, ↓reduceIte]
    omega
  | false =>
    refine ⟨maxPos, rfl, ?_⟩
    intro n
    simp only [InSignedRange, signed, Bool.false_eq_true, ↓reduceIte]
    omega

theorem signedOut_eq {neg : Bool} {n w : Nat} (hw' : w < 256)
    (h : InSignedRange w (signed neg n)) :
    signedOut neg (BitVec.ofNat 256 n) = some (BitVec.ofInt 256 (signed neg n)) := by
  cases neg with
  | false => simp only [signedOut, signed, Bool.false_eq_true, ↓reduceIte, BitVec.ofInt_natCast]
  | true =>
    have hlt : 2 ^ (w - 1) < 2 ^ 255 := Nat.pow_lt_pow_right (by decide) (by omega)
    have hcast : ((2 ^ (w - 1) : Nat) : Int) = 2 ^ (w - 1) := by norm_cast
    have hn : n ≤ 2 ^ (w - 1) := by
      have hlo := h.1
      simp only [signed, ↓reduceIte] at hlo
      omega
    have hne : BitVec.ofNat 256 n ≠ 1#256 <<< 255 := by
      intro heq
      have hval := congrArg BitVec.toNat heq
      have hshift : (1#256 <<< 255).toNat = 2 ^ 255 :=
        one_shl_toNat (Nat.pow_lt_pow_right (by decide) (by decide))
      have hfit : n < 2 ^ 256 := hn.trans_lt (hlt.trans (Nat.pow_lt_pow_right (by decide) (by decide)))
      rw [digit_toNat hfit, hshift] at hval
      omega
    simp only [signedOut, signed, ↓reduceIte, if_neg hne, BitVec.ofInt_neg, BitVec.ofInt_natCast]

/-- **The signed parser means the notation below 256 bits** and never reverts there. -/
theorem camTryParseRadixSigned_eq {cs : List Char} (hcs : Ascii cs) (radix : Word) {w : Nat}
    (hw : 0 < w) (hw' : w < 256) :
    camTryParseRadixSigned (bytesOf cs) radix (BitVec.ofNat 256 w) =
      some (resultPair ((((magnitude (signSplit cs).2 radix.toNat).map
        (signed (signSplit cs).1)).filter fun v => decide (InSignedRange w v)).map
          (BitVec.ofInt 256))) := by
  have hrest := signSplit_ascii hcs
  rw [camTryParseRadixSigned, signBytes_bytesOf hcs]
  generalize signSplit cs = p at hrest ⊢
  obtain ⟨neg, rest⟩ := p
  simp only at hrest ⊢
  rw [radixHeader_bytesOf hrest, magnitude_eq]
  cases hhead : header rest radix.toNat with
  | none => rfl
  | some q =>
    obtain ⟨digits, base⟩ := q
    obtain ⟨maxPos, hmaxPos, hval⟩ := maxPositive_eq hw hw'
    obtain ⟨maxMag, hmaxMag, hrange⟩ := maxMagnitude_eq neg hw hw' hval
    simp only [Option.map_some, hmaxPos, hmaxMag, parseLoop_of_header hrest hhead,
      Option.bind_eq_bind, Option.bind_some]
    cases digitsIn base digits with
    | none => rfl
    | some ds =>
      simp only [Option.bind_some, Option.map_some, bounded, hrange, Option.filter_some,
        decide_eq_true_eq]
      by_cases h : InSignedRange w (signed neg (valueOf base ds))
      · simp only [if_pos h, signedOut_eq hw' h, Option.bind_some, Option.map_some]
        rfl
      · simp only [if_neg h]
        rfl

theorem maxPositive_256 : maxPositive (BitVec.ofNat 256 256) = some maxWord := by
  rw [maxPositive, width_toNat (Nat.le_refl _), if_pos (Nat.le_refl _)]

/-- At 256 bits a negative numeral reverts as soon as its header is good. -/
theorem camTryParseRadixSigned_neg {cs rest : List Char} (hcs : Ascii cs) (radix : Word)
    (hneg : signSplit cs = (true, rest)) :
    camTryParseRadixSigned (bytesOf cs) radix (BitVec.ofNat 256 256) =
      if header rest radix.toNat = none then some (false, 0#256) else none := by
  have hrest : Ascii rest := by
    have h := signSplit_ascii hcs
    rwa [hneg] at h
  have hover : cadd maxWord 1#256 = none := by
    have hone : (1#256).toNat = 1 := by simp
    have hmax := maxWord_toNat
    rw [cadd_eq, exact_of_le (by omega)]
  rw [camTryParseRadixSigned, signBytes_bytesOf hcs, hneg]
  simp only
  rw [radixHeader_bytesOf hrest]
  cases header rest radix.toNat with
  | none => rfl
  | some q =>
    simp only [Option.map_some, maxPositive_256, maxMagnitude, hover, Option.bind_eq_bind,
      Option.bind_some, Option.bind_none, ↓reduceIte, reduceCtorEq]

/-- At 256 bits a numeral without sign is read as an unsigned word. -/
theorem camTryParseRadixSigned_nonneg {cs rest : List Char} (hcs : Ascii cs) (radix : Word)
    (hneg : signSplit cs = (false, rest)) :
    camTryParseRadixSigned (bytesOf cs) radix (BitVec.ofNat 256 256) =
      some (resultPair (((magnitude rest radix.toNat).filter fun n => decide (n < 2 ^ 256)).map
        (BitVec.ofNat 256))) := by
  have hrest : Ascii rest := by
    have h := signSplit_ascii hcs
    rwa [hneg] at h
  rw [camTryParseRadixSigned, signBytes_bytesOf hcs, hneg, magnitude_eq]
  simp only
  rw [radixHeader_bytesOf hrest]
  cases hhead : header rest radix.toNat with
  | none => rfl
  | some q =>
    obtain ⟨digits, base⟩ := q
    have hmax := maxWord_toNat
    have hle : ∀ n, n ≤ maxWord.toNat ↔ n < 2 ^ 256 := fun n => by
      have hpos := Nat.two_pow_pos 256
      omega
    simp only [Option.map_some, maxPositive_256, maxMagnitude, parseLoop_of_header hrest hhead,
      Option.bind_eq_bind, Option.bind_some, Bool.false_eq_true, ↓reduceIte]
    cases digitsIn base digits with
    | none => rfl
    | some ds =>
      simp only [Option.bind_some, Option.map_some, bounded_eq hle]
      cases ((some (valueOf base ds)).filter fun n => decide (n < 2 ^ 256)) with
      | none => rfl
      | some n => rfl

end CambrianLang.Solidity
