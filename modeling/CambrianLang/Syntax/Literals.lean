/-
  **Literals and their text** (`from_decimal_str`, `from_hex_digits`,
  `from_binary_digits`, `to_display_decimal` and `Display` of `U256` in
  `cambrian-core/src/lib.rs`; `u256_hex_digits`, `parse_bytes_literal` and
  `parse_string_literal` in `ast.rs`).

  Numbers are read back from what is written for them.  Strings and bytes have escapes on
  the way in and none on the way out.
-/
import CambrianLang.Core.Serialize
import CambrianLang.Core.Wide
import CambrianLang.Str.Notation

namespace CambrianLang.Syntax

open CambrianLang.Core Positional Str

/-! ### Numbers -/

/-- `U256::from_decimal_str`, its loop. -/
def decimalLoop (maxQuotient maxRemainder : U256) : U256 → List Char → Option U256
  | result, [] => some result
  | result, ch :: cs =>
    (digitIn 10 ch).bind fun digit =>
      let digit := U256.fromU128 (BitVec.ofNat 128 digit)
      if maxQuotient.blt result || (result == maxQuotient && maxRemainder.blt digit) then none
      else
        (result.mul (U256.fromU128 10)).bind fun product =>
          (product.add digit).bind fun sum => decimalLoop maxQuotient maxRemainder sum cs

/-- `U256::from_decimal_str`. -/
def fromDecimalStr (s : List Char) : Option U256 := do
  let s := s.filter (· ≠ '_')
  if s.isEmpty then none
  let maxQuotient ← U256.max.div (U256.fromU128 10)
  let maxRemainder ← U256.max.rem (U256.fromU128 10)
  decimalLoop maxQuotient maxRemainder U256.zero s

/-- `u128::from_str_radix(_, 16)` for at most 32 characters. -/
def hexWord (cs : List Char) : Option U128 :=
  (digitsIn 16 cs).map fun ds => BitVec.ofNat 128 (valueOf 16 ds)

/-- `U256::from_hex_digits`. -/
def fromHexDigits (s : List Char) : Option U256 := do
  let s := s.filter (· ≠ '_')
  if s.isEmpty || 64 < s.length then none
  if !s.all fun c => (digitIn 16 c).isSome then none
  let padded := s.leftpad 64 '0'
  let hi ← hexWord (padded.take 32)
  let lo ← hexWord (padded.drop 32)
  return ⟨hi, lo⟩

/-- `U256::from_binary_digits`. -/
def fromBinaryDigits (s : List Char) : Option U256 :=
  let body := (if ['0', 'b'].isPrefixOf s then s.drop 2 else s).filter (· ≠ '_')
  if body.isEmpty || 256 < body.length then none
  else
    body.foldlM
      (fun result ch =>
        match ch with
        | '0' => some (u256Shl result 1)
        | '1' => (u256Shl result 1).add U256.one
        | _ => none)
      U256.zero

/-- `{:032x}`. -/
def hexLimb (x : U128) : List Char :=
  (Nat.toDigits 16 x.toNat).leftpad 32 '0'

/-- `u256_hex_digits`. -/
def u256HexDigits (v : U256) : List Char := hexLimb v.hi ++ hexLimb v.lo

/-- The digits of a number above the 128 bits, the last one first. -/
def displayLoop : Nat → U256 → Option (List Char)
  | 0, _ => none
  | fuel + 1, n =>
    if n.isZero then some []
    else (u256DivRem n (U256.fromU128 10)).bind fun (q, r) =>
      (displayLoop fuel q).map (Nat.digitChar r.lo.toNat :: ·)

/-- `to_display_decimal`. -/
def toDisplayDecimal (v : U256) : Option (List Char) :=
  if v.hi = 0 then some (Nat.toDigits 10 v.lo.toNat) else (displayLoop 256 v).map List.reverse

/-- `Display` of `U256`. -/
def display (v : U256) : List Char :=
  if v.hi = 0 then Nat.toDigits 10 v.lo.toNat else '0' :: 'x' :: u256HexDigits v

/-! ### Strings and bytes -/

/-- The value of an escape that is one character long. -/
def simpleEscape : UInt8 → Option UInt8
  | 0x6e => some 0x0a
  | 0x72 => some 0x0d
  | 0x74 => some 0x09
  | 0x30 => some 0x00
  | 0x5c => some 0x5c
  | 0x22 => some 0x22
  | _ => none

/-- `u8::from_str_radix(_, 16)` of two bytes, 0 where they are no number; a sign before a digit
    is one. -/
def escapedByte (a b : UInt8) : UInt8 :=
  let digit (c : UInt8) := digitIn 16 (Char.ofNat c.toNat)
  match digit a, digit b with
  | some x, some y => UInt8.ofNat (16 * x + y)
  | none, some y => if a = 0x2b then UInt8.ofNat y else 0
  | _, _ => 0

/-- `parse_bytes_literal`. -/
def parseBytesLiteral : List UInt8 → List UInt8
  | 0x5c :: 0x78 :: a :: b :: rest => escapedByte a b :: parseBytesLiteral rest
  | 0x5c :: c :: rest =>
    match simpleEscape c with
    | some out => out :: parseBytesLiteral rest
    | none => 0x5c :: parseBytesLiteral (c :: rest)
  | c :: rest => c :: parseBytesLiteral rest
  | [] => []

/-- `parse_string_literal`. -/
def parseStringLiteral (s : String) : String :=
  if s.toList.contains '\\' then
    (String.fromUTF8? ⟨(parseBytesLiteral s.toUTF8.data.toList).toArray⟩).getD s
  else s

/-! ### What is written is read back -/

theorem toNat_ten : (U256.fromU128 10).toNat = 10 := rfl

theorem digitIn_digitChar {d : Nat} (h : d < 16) : digitIn 16 (Nat.digitChar d) = some d := by
  revert d
  decide

theorem digitIn_ten_digitChar {d : Nat} (h : d < 10) : digitIn 10 (Nat.digitChar d) = some d := by
  revert d
  decide

theorem digitChar_ne_underscore {d : Nat} (h : d < 16) : Nat.digitChar d ≠ '_' := by
  revert d
  decide

/-- A step of the loop that stays within 256 bits. -/
theorem decimalLoop_cons {q r result : U256} {ch : Char} (cs : List Char) {d : Nat}
    (hq : q.toNat = (2 ^ 256 - 1) / 10) (hr : r.toNat = (2 ^ 256 - 1) % 10)
    (hch : digitIn 10 ch = some d) (hd : d < 10) (hfit : result.toNat * 10 + d < 2 ^ 256) :
    ∃ sum, sum.toNat = result.toNat * 10 + d ∧
      decimalLoop q r result (ch :: cs) = decimalLoop q r sum cs := by
  have hdigit : (U256.fromU128 (BitVec.ofNat 128 d)).toNat = d := by
    rw [U256.fromU128, U256.toNat, BitVec.toNat_ofNat, Nat.mod_eq_of_lt (by omega)]
    exact (congrArg (· + d) (Nat.zero_mul _)).trans (Nat.zero_add d)
  obtain ⟨product, hproduct, hproductNat⟩ :=
    U256.exists_checked (n := result.toNat * 10) (by omega)
  obtain ⟨sum, hsum, hsumNat⟩ := U256.exists_checked (n := result.toNat * 10 + d) hfit
  refine ⟨sum, hsumNat, ?_⟩
  have hpass : (q.blt result || (result == q && r.blt (U256.fromU128 (BitVec.ofNat 128 d)))) =
      false := by
    rw [U256.blt_eq, U256.blt_eq, hdigit, hq, hr, Bool.or_eq_false_iff, decide_eq_false_iff_not,
      Bool.and_eq_false_iff]
    refine ⟨by omega, ?_⟩
    by_cases heq : result = q
    · right
      rw [decide_eq_false_iff_not]
      have hnat := congrArg U256.toNat heq
      rw [hq] at hnat
      omega
    · left
      exact beq_eq_false_iff_ne.mpr heq
  rw [decimalLoop, hch, Option.bind_some]
  dsimp only
  rw [hpass, if_neg Bool.false_ne_true, U256.mul_eq, toNat_ten, hproduct, Option.bind_some,
    U256.add_eq, hproductNat, hdigit, hsum, Option.bind_some]

/-- **The decimal loop** ends with the number of the digits. -/
theorem decimalLoop_eq {q r : U256} (hq : q.toNat = (2 ^ 256 - 1) / 10)
    (hr : r.toNat = (2 ^ 256 - 1) % 10) (ds : List Nat) (hds : ∀ d ∈ ds, d < 10) (result : U256)
    (hfit : horner 10 result.toNat ds < 2 ^ 256) :
    ∃ v, v.toNat = horner 10 result.toNat ds ∧
      decimalLoop q r result (ds.map Nat.digitChar) = some v := by
  induction ds generalizing result with
  | nil => exact ⟨result, rfl, rfl⟩
  | cons d ds ih =>
    have hd : d < 10 := hds d (List.mem_cons_self ..)
    have hnow : result.toNat * 10 + d < 2 ^ 256 := (le_horner (by decide) _ ds).trans_lt hfit
    obtain ⟨sum, hsum, hstep⟩ := decimalLoop_cons (ds.map Nat.digitChar) hq hr
      (digitIn_ten_digitChar hd) hd hnow
    rw [horner_cons, ← hsum] at hfit
    obtain ⟨v, hv, hrun⟩ := ih (fun d' hd' => hds d' (List.mem_cons_of_mem _ hd')) sum hfit
    refine ⟨v, ?_, ?_⟩
    · rw [hv, hsum, horner_cons]
    · rw [List.map_cons, hstep, hrun]

/-- What is written for a number are its digits. -/
theorem exists_toDigits {b : Nat} (hb : 1 < b) (n : Nat) :
    ∃ ds, ds ≠ [] ∧ (∀ d ∈ ds, d < b) ∧ Nat.toDigits b n = ds.map Nat.digitChar ∧
      valueOf b ds = n := by
  induction n using Nat.strong_induction_on with
  | _ n ih =>
    by_cases hn : n < b
    · refine ⟨[n], List.cons_ne_nil _ _, fun d hd => ?_, Nat.toDigits_of_lt_base hn, ?_⟩
      · rw [List.mem_singleton] at hd
        exact hd ▸ hn
      · rw [valueOf, horner_cons, Nat.zero_mul, Nat.zero_add, horner_nil]
    · obtain ⟨ds, hne, hlt, htext, hvalue⟩ := ih (n / b) (Nat.div_lt_self (by omega) hb)
      refine ⟨ds ++ [n % b], List.append_ne_nil_of_left_ne_nil hne _, ?_, ?_, ?_⟩
      · intro d hd
        rcases List.mem_append.mp hd with hd | hd
        · exact hlt d hd
        · rw [List.mem_singleton] at hd
          exact hd ▸ Nat.mod_lt n (by omega)
      · rw [Nat.toDigits_of_base_le hb (by omega), htext, List.map_append]
        rfl
      · rw [valueOf] at hvalue
        rw [valueOf, horner_append, hvalue, horner_cons, horner_nil]
        exact Nat.div_add_mod' n b

theorem filter_digitChars {b : Nat} (hb : b ≤ 16) {ds : List Nat} (hds : ∀ d ∈ ds, d < b) :
    (ds.map Nat.digitChar).filter (· ≠ '_') = ds.map Nat.digitChar := by
  rw [List.filter_eq_self]
  intro c hc
  obtain ⟨d, hd, rfl⟩ := List.mem_map.mp hc
  exact decide_eq_true (digitChar_ne_underscore ((hds d hd).trans_le hb))

/-- **A decimal literal** is read as the number that was written. -/
theorem fromDecimalStr_toDigits (v : U256) (h : v.hi = 0) :
    fromDecimalStr (Nat.toDigits 10 v.lo.toNat) = some v := by
  obtain ⟨ds, hne, hlt, htext, hvalue⟩ := exists_toDigits (b := 10) (by decide) v.lo.toNat
  obtain ⟨q, hq, hqNat⟩ := U256.div_eq (a := U256.max) (b := U256.fromU128 10) (by decide)
  obtain ⟨r, hr, hrNat⟩ := U256.rem_eq (a := U256.max) (b := U256.fromU128 10) (by decide)
  have hnat : v.toNat = v.lo.toNat := by
    rw [U256.toNat, h]
    exact (congrArg (· + v.lo.toNat) (Nat.zero_mul _)).trans (Nat.zero_add _)
  have hloop : valueOf 10 ds < 2 ^ 256 := hvalue ▸ hnat ▸ v.toNat_lt
  obtain ⟨w, hw, hrun⟩ := decimalLoop_eq hqNat hrNat ds hlt U256.zero hloop
  have hwv : w = v := by
    apply U256.toNat_injective
    rw [hw, hnat]
    exact hvalue
  have hempty : (ds.map Nat.digitChar).isEmpty = false := by
    simpa using hne
  rw [fromDecimalStr, htext]
  simp only [filter_digitChars (by decide : 10 ≤ 16) hlt, hempty, hq, hr, Option.bind_eq_bind,
    Option.bind_some, Bool.false_eq_true, if_false, hrun, hwv]

theorem digitsIn_digitChars {ds : List Nat} (hds : ∀ d ∈ ds, d < 16) :
    digitsIn 16 (ds.map Nat.digitChar) = some ds := by
  induction ds with
  | nil => rfl
  | cons d ds ih =>
    rw [List.map_cons, digitsIn, digitIn_digitChar (hds d (List.mem_cons_self ..)),
      Option.bind_some, ih fun d' hd' => hds d' (List.mem_cons_of_mem _ hd')]
    rfl

/-- The 32 digits of half a word. -/
theorem exists_hexLimb (x : U128) :
    ∃ ds, (∀ d ∈ ds, d < 16) ∧ hexLimb x = ds.map Nat.digitChar ∧ ds.length = 32 ∧
      valueOf 16 ds = x.toNat := by
  obtain ⟨ds, -, hlt, htext, hvalue⟩ := exists_toDigits (b := 16) (by decide) x.toNat
  have hlength : ds.length ≤ 32 := by
    have hle := (Nat.length_toDigits_le_iff (n := x.toNat) (k := 32) (b := 16) (by decide)
      (by decide)).mpr x.isLt
    rwa [htext, List.length_map] at hle
  refine ⟨List.replicate (32 - ds.length) 0 ++ ds, ?_, ?_, ?_, ?_⟩
  · intro d hd
    rcases List.mem_append.mp hd with hd | hd
    · rw [List.eq_of_mem_replicate hd]
      decide
    · exact hlt d hd
  · rw [hexLimb, List.leftpad, htext, List.length_map, List.map_append, List.map_replicate]
    rfl
  · rw [List.length_append, List.length_replicate]
    omega
  · rw [valueOf, horner_zeros]
    exact hvalue

/-- **A hexadecimal literal** of all 64 digits is read as the number that was written. -/
theorem fromHexDigits_u256HexDigits (v : U256) : fromHexDigits (u256HexDigits v) = some v := by
  obtain ⟨hs, hhlt, hhtext, hhlen, hhvalue⟩ := exists_hexLimb v.hi
  obtain ⟨ls, hllt, hltext, hllen, hlvalue⟩ := exists_hexLimb v.lo
  have hlt : ∀ d ∈ hs ++ ls, d < 16 := by
    intro d hd
    rcases List.mem_append.mp hd with hd | hd
    · exact hhlt d hd
    · exact hllt d hd
  have htext : u256HexDigits v = (hs ++ ls).map Nat.digitChar := by
    rw [u256HexDigits, hhtext, hltext, List.map_append]
  have hlen : ((hs ++ ls).map Nat.digitChar).length = 64 := by
    rw [List.length_map, List.length_append, hhlen, hllen]
  have hempty : (((hs ++ ls).map Nat.digitChar).isEmpty ||
      decide (64 < ((hs ++ ls).map Nat.digitChar).length)) = false := by
    rw [hlen, Bool.or_eq_false_iff, List.isEmpty_eq_false_iff, ← List.length_pos_iff, hlen]
    decide
  have hdigits : (!((hs ++ ls).map Nat.digitChar).all fun c => (digitIn 16 c).isSome) = false := by
    rw [Bool.not_eq_false', List.all_eq_true]
    intro c hc
    obtain ⟨d, hd, rfl⟩ := List.mem_map.mp hc
    rw [digitIn_digitChar (hlt d hd)]
    rfl
  have hpad : ((hs ++ ls).map Nat.digitChar).leftpad 64 '0' = (hs ++ ls).map Nat.digitChar := by
    rw [List.leftpad, hlen]
    rfl
  have hhi : hexWord (((hs ++ ls).map Nat.digitChar).take 32) = some v.hi := by
    rw [List.map_append, List.take_left' (by rw [List.length_map, hhlen]), hexWord,
      digitsIn_digitChars hhlt, Option.map_some, hhvalue, BitVec.ofNat_toNat, BitVec.setWidth_eq]
  have hlo : hexWord (((hs ++ ls).map Nat.digitChar).drop 32) = some v.lo := by
    rw [List.map_append, List.drop_left' (by rw [List.length_map, hhlen]), hexWord,
      digitsIn_digitChars hllt, Option.map_some, hlvalue, BitVec.ofNat_toNat, BitVec.setWidth_eq]
  rw [fromHexDigits, htext]
  simp only [filter_digitChars (by decide : 16 ≤ 16) hlt, hempty, hdigits, hpad, hhi, hlo,
    Option.bind_eq_bind, Option.bind_some, Bool.false_eq_true, if_false]
  rfl

end CambrianLang.Syntax
