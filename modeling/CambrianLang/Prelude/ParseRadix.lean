/-
  **`std::str` parsing in the vendored Lean prelude**
  (`assets/lean-prelude/Cambrian/Core.lean`).

  The digit loop of the prelude gives weight one to the first character and weight
  `base ^ k` to the last, so a numeral is read backwards.  It also tries to read a
  `0x` prefix as digits in the bases that have a digit `x`.
-/
import CambrianLang.Str.Notation

namespace CambrianLang.Prelude

open Str

def charRadixDigit (c : Char) (base : Nat) : Option Nat :=
  if '0' ≤ c ∧ c ≤ '9' then
    let d := c.toNat - 48
    if d < base then some d else none
  else if base > 10 ∧ 'a' ≤ c ∧ c ≤ 'z' then
    let d := c.toNat - 87
    if d < base then some d else none
  else if base > 10 ∧ 'A' ≤ c ∧ c ≤ 'Z' then
    let d := c.toNat - 55
    if d < base then some d else none
  else none

def parseRadixNatCore? (chars : List Char) (base : Nat) : Option Nat :=
  match chars with
  | [] => some 0
  | c :: rest =>
    match charRadixDigit c base with
    | none => none
    | some d =>
      match parseRadixNatCore? rest base with
      | none => none
      | some n => some (n * base + d)

/-- The first lines of `parseRadixNat?`: the characters left and the base. -/
def radixSplit (cs : List Char) (radix : Nat) : List Char × Nat :=
  match cs with
  | '0' :: 'x' :: r => if radix = 0 ∨ radix = 16 then (r, 16) else (cs, if radix = 0 then 10 else radix)
  | '0' :: 'X' :: r => if radix = 0 ∨ radix = 16 then (r, 16) else (cs, if radix = 0 then 10 else radix)
  | _ => (cs, if radix = 0 then 10 else radix)

def parseRadixNat? (s : String) (radix maxBits : Nat) : Option Nat :=
  let cs := s.toList
  let (rest, base) := radixSplit cs radix
  if base < 2 ∨ base > 36 then none
  else if rest.isEmpty then none
  else
    match parseRadixNatCore? rest base with
    | none => none
    | some n =>
      let maxV := if maxBits ≥ 256 then (Nat.pow 2 256 - 1) else (Nat.pow 2 maxBits - 1)
      if n ≤ maxV then some n else none

def parseRadixSignedNat? (s : String) (radix maxBits : Nat) : Option Int :=
  let cs := s.toList
  let (neg, rest) := match cs with
    | '-' :: r => (true, r)
    | _ => (false, cs)
  match parseRadixNat? (String.ofList rest) radix maxBits with
  | none => none
  | some n =>
    let v : Int := if neg then -Int.ofNat n else Int.ofNat n
    let maxPos : Nat :=
      if maxBits ≥ 256 then (Nat.pow 2 255 - 1) else (Nat.pow 2 (maxBits - 1) - 1)
    let minNeg : Int := -(Int.ofNat maxPos + 1)
    let maxPosI : Int := Int.ofNat maxPos
    if minNeg ≤ v ∧ v ≤ maxPosI then some v else none

/-! ### The digit loop reads backwards -/

theorem charRadixDigit_eq (c : Char) (base : Nat) : charRadixDigit c base = digitIn base c := by
  simp only [charRadixDigit, digitIn, charDigit]
  by_cases hnum : '0' ≤ c ∧ c ≤ '9'
  · rw [if_pos hnum, if_pos hnum, Option.filter_some]
    simp only [decide_eq_true_eq]
  · rw [if_neg hnum, if_neg hnum]
    by_cases hlow : 'a' ≤ c ∧ c ≤ 'z'
    · have hge : 97 ≤ c.toNat := hlow.1
      rw [if_pos hlow, Option.filter_some]
      by_cases hbase : base > 10
      · rw [if_pos ⟨hbase, hlow⟩]
        simp only [decide_eq_true_eq]
      · rw [if_neg (fun h => hbase h.1), if_neg (fun h => hbase h.1), if_neg]
        rw [decide_eq_true_eq]
        omega
    · rw [if_neg (fun h => hlow h.2), if_neg hlow]
      by_cases hup : 'A' ≤ c ∧ c ≤ 'Z'
      · have hge : 65 ≤ c.toNat := hup.1
        rw [if_pos hup, Option.filter_some]
        by_cases hbase : base > 10
        · rw [if_pos ⟨hbase, hup⟩]
          simp only [decide_eq_true_eq]
        · rw [if_neg (fun h => hbase h.1), if_neg]
          rw [decide_eq_true_eq]
          omega
      · rw [if_neg (fun h => hup h.2), if_neg hup, Option.filter_none]

/-- The loop computes the little-endian value of the digits. -/
theorem parseRadixNatCore?_eq (cs : List Char) (base : Nat) :
    parseRadixNatCore? cs base = (digitsIn base cs).map (Nat.ofDigits base) := by
  induction cs with
  | nil => rfl
  | cons c cs ih =>
    rw [parseRadixNatCore?, digitsIn, charRadixDigit_eq, ih]
    cases digitIn base c with
    | none => rfl
    | some d =>
      cases digitsIn base cs with
      | none => rfl
      | some ds =>
        simp only [Option.map_some, Option.bind_some, Option.some.injEq, Nat.ofDigits_cons]
        rw [Nat.mul_comm, Nat.add_comm]

/-! ### What the two parsers return -/

/-- A prefixed string whose radix is neither 0 nor 16, but has a digit `x`: the
    prelude reads the prefix as digits. -/
def misread (cs : List Char) (radix : Nat) : Option (List Nat) :=
  if (hexPrefix cs).isSome ∧ 34 ≤ radix ∧ radix ≤ 36 then digitsIn radix cs else none

/-- The base and the digits that the prelude finds. -/
def preludeNumeral (cs : List Char) (radix : Nat) : Option (Nat × List Nat) :=
  (numeral cs radix).or ((misread cs radix).map (radix, ·))

theorem radixSplit_of_hexPrefix {cs rest : List Char} {radix : Nat} (h : hexPrefix cs = some rest) :
    radixSplit cs radix =
      if radix = 0 ∨ radix = 16 then (rest, 16) else (cs, radixOrTen radix) := by
  unfold hexPrefix at h
  split at h
  · rw [← Option.some.inj h]
    rfl
  · rw [← Option.some.inj h]
    rfl
  · cases h

theorem radixSplit_of_none {cs : List Char} {radix : Nat} (h : hexPrefix cs = none) :
    radixSplit cs radix = (cs, radixOrTen radix) := by
  unfold radixSplit
  split
  · cases h
  · cases h
  · rfl

/-- `x` is a digit only from base 34 on. -/
theorem digitsIn_of_hexPrefix {cs rest : List Char} {base : Nat} (h : hexPrefix cs = some rest)
    (hb : base < 34) : digitsIn base cs = none := by
  have hx : digitIn base 'x' = none := by
    rw [digitIn, show charDigit 'x' = some 33 from rfl, Option.filter_some, if_neg]
    rw [decide_eq_true_eq]
    omega
  have hX : digitIn base 'X' = none := by
    rw [digitIn, show charDigit 'X' = some 33 from rfl, Option.filter_some, if_neg]
    rw [decide_eq_true_eq]
    omega
  unfold hexPrefix at h
  split at h
  · simp only [digitsIn, hx, Option.bind_none, Option.map_none, Option.bind_fun_none]
  · simp only [digitsIn, hX, Option.bind_none, Option.map_none, Option.bind_fun_none]
  · cases h

theorem hexPrefix_ne_nil {cs rest : List Char} (h : hexPrefix cs = some rest) : cs.isEmpty = false := by
  cases cs with
  | nil => cases h
  | cons c cs => rfl

/-- The digits of the split string, when the base is good. -/
def splitDigits (p : List Char × Nat) : Option (Nat × List Nat) :=
  if 2 ≤ p.2 ∧ p.2 ≤ 36 ∧ p.1.isEmpty = false then (digitsIn p.2 p.1).map (p.2, ·) else none

theorem splitDigits_of_good {rest : List Char} {base : Nat} (hb : ¬ (base < 2 ∨ base > 36))
    (hne : rest.isEmpty = false) : splitDigits (rest, base) = (digitsIn base rest).map (base, ·) :=
  if_pos ⟨by omega, by omega, hne⟩

theorem splitDigits_of_bad {rest : List Char} {base : Nat}
    (h : (base < 2 ∨ base > 36) ∨ rest.isEmpty = true) : splitDigits (rest, base) = none := by
  refine if_neg ?_
  rintro ⟨hlo, hhi, hne⟩
  rcases h with h | h
  · omega
  · exact Bool.false_ne_true (hne.symm.trans h)

theorem numeral_eq_splitDigits {cs : List Char} {radix : Nat} {p : List Char × Nat}
    (h : header cs radix = (some p).filter fun p => decide (2 ≤ p.2 ∧ p.2 ≤ 36) && !p.1.isEmpty) :
    numeral cs radix = splitDigits p := by
  rw [numeral, h, splitDigits, Option.filter_some]
  by_cases hcond : 2 ≤ p.2 ∧ p.2 ≤ 36 ∧ p.1.isEmpty = false
  · obtain ⟨hlo, hhi, hne⟩ := hcond
    simp only [hlo, hhi, hne, and_self, decide_true, Bool.not_false, Bool.and_self, ↓reduceIte,
      Option.bind_some]
  · rw [if_neg hcond, if_neg, Option.bind_none]
    simpa [and_assoc] using hcond

theorem preludeNumeral_eq (cs : List Char) (radix : Nat) :
    preludeNumeral cs radix = splitDigits (radixSplit cs radix) := by
  cases hp : hexPrefix cs with
  | none =>
    have hmis : misread cs radix = none := by
      rw [misread, hp]
      exact if_neg fun h => Bool.false_ne_true h.1
    rw [radixSplit_of_none hp, preludeNumeral, hmis, Option.map_none, Option.or_none]
    exact numeral_eq_splitDigits (by rw [header, hp])
  | some rest =>
    rw [radixSplit_of_hexPrefix hp]
    by_cases hr : radix = 0 ∨ radix = 16
    · have hmis : misread cs radix = none := if_neg (by omega)
      rw [if_pos hr, preludeNumeral, hmis, Option.map_none, Option.or_none]
      exact numeral_eq_splitDigits (by rw [header, hp]; simp only [if_pos hr])
    · have hnum : numeral cs radix = none := by
        rw [numeral, header, hp]
        simp only [if_neg hr, Option.filter_none, Option.bind_none]
      have hten : radixOrTen radix = radix := if_neg (fun h => hr (Or.inl h))
      rw [if_neg hr, preludeNumeral, hnum, Option.none_or, hten, splitDigits, misread, hp,
        hexPrefix_ne_nil hp]
      by_cases hx : 34 ≤ radix ∧ radix ≤ 36
      · rw [if_pos ⟨rfl, hx⟩, if_pos ⟨by omega, hx.2, rfl⟩]
      · rw [if_neg (fun h => hx h.2), Option.map_none]
        split
        · next h => rw [digitsIn_of_hexPrefix hp (by omega), Option.map_none]
        · rfl

theorem two_pow_sub_one (m : Nat) : Nat.pow 2 m - 1 + 1 = 2 ^ m :=
  Nat.sub_add_cancel (Nat.two_pow_pos m)

/-- The largest value of the target width. -/
theorem le_maxV_iff {n w : Nat} (hw : w ≤ 256) :
    n ≤ (if w ≥ 256 then Nat.pow 2 256 - 1 else Nat.pow 2 w - 1) ↔ n < 2 ^ w := by
  have hone := two_pow_sub_one w
  by_cases h : w ≥ 256
  · obtain rfl : w = 256 := by omega
    rw [if_pos h]
    omega
  · rw [if_neg h]
    omega

/-- **The prelude reads numerals backwards**: the result is the little-endian value
    of the digits it finds, when that fits. -/
theorem parseRadixNat?_eq (s : String) (radix : Nat) {w : Nat} (hw : w ≤ 256) :
    parseRadixNat? s radix w =
      ((preludeNumeral s.toList radix).map fun p => Nat.ofDigits p.1 p.2).filter
        (fun n => decide (n < 2 ^ w)) := by
  rw [preludeNumeral_eq, parseRadixNat?]
  generalize radixSplit s.toList radix = p
  obtain ⟨rest, base⟩ := p
  simp only
  by_cases hbase : base < 2 ∨ base > 36
  · rw [if_pos hbase, splitDigits_of_bad (Or.inl hbase), Option.map_none, Option.filter_none]
  · rw [if_neg hbase]
    cases hempty : rest.isEmpty with
    | true =>
      rw [if_pos rfl, splitDigits_of_bad (Or.inr hempty), Option.map_none, Option.filter_none]
    | false =>
      rw [if_neg Bool.false_ne_true, splitDigits_of_good hbase hempty, parseRadixNatCore?_eq]
      cases digitsIn base rest with
      | none => rfl
      | some ds =>
        simp only [Option.map_some, Option.filter_some, le_maxV_iff hw, decide_eq_true_eq]

/-- A signed value in range has a magnitude that fits the width. -/
theorem magnitude_lt_of_inSignedRange {neg : Bool} {n w : Nat} (hw : 0 < w)
    (h : InSignedRange w (signed neg n)) : n < 2 ^ w := by
  obtain ⟨hlo, hhi⟩ := h
  have hsplit : (2 : Int) ^ w = 2 ^ (w - 1) + 2 ^ (w - 1) := by
    rw [← Nat.sub_add_cancel hw, Int.pow_succ, Nat.add_sub_cancel]
    omega
  have hpos : (0 : Int) < 2 ^ (w - 1) := by positivity
  have hcast : (n : Int) < 2 ^ w := by
    cases neg <;> simp only [signed, Bool.false_eq_true, ↓reduceIte] at hlo hhi <;> omega
  exact_mod_cast hcast

/-- The bounds of the signed parser are those of two's complement. -/
theorem signed_bounds_iff {v : Int} {w : Nat} (hw : 0 < w) (hw' : w ≤ 256) :
    (-(Int.ofNat (if w ≥ 256 then Nat.pow 2 255 - 1 else Nat.pow 2 (w - 1) - 1) + 1) ≤ v ∧
      v ≤ Int.ofNat (if w ≥ 256 then Nat.pow 2 255 - 1 else Nat.pow 2 (w - 1) - 1)) ↔
      InSignedRange w v := by
  have hone := two_pow_sub_one (w - 1)
  have hcast : ((2 ^ (w - 1) : Nat) : Int) = 2 ^ (w - 1) := by norm_cast
  have hmax : (if w ≥ 256 then Nat.pow 2 255 - 1 else Nat.pow 2 (w - 1) - 1) =
      Nat.pow 2 (w - 1) - 1 := by
    by_cases h : w ≥ 256
    · obtain rfl : w = 256 := by omega
      exact if_pos h
    · exact if_neg h
  rw [hmax, InSignedRange, ← hcast]
  generalize 2 ^ (w - 1) = P at *
  generalize Nat.pow 2 (w - 1) - 1 = M at *
  constructor
  · rintro ⟨hlo, hhi⟩
    simp only [Int.ofNat_eq_natCast] at hlo hhi
    omega
  · rintro ⟨hlo, hhi⟩
    simp only [Int.ofNat_eq_natCast]
    omega

theorem parseRadixSignedNat?_eq (s : String) (radix : Nat) {w : Nat} (hw : 0 < w) (hw' : w ≤ 256) :
    parseRadixSignedNat? s radix w =
      ((preludeNumeral (signSplit s.toList).2 radix).map fun p =>
        signed (signSplit s.toList).1 (Nat.ofDigits p.1 p.2)).filter
          (fun v => decide (InSignedRange w v)) := by
  have hsplit : (match s.toList with
      | '-' :: r => (true, r)
      | _ => (false, s.toList)) = signSplit s.toList := by
    split
    · next r heq => rw [heq, signSplit]
    · next hne =>
      unfold signSplit
      split
      · next r heq => exact absurd heq (hne r)
      · rfl
  rw [parseRadixSignedNat?]
  simp only [hsplit]
  generalize signSplit s.toList = p
  obtain ⟨neg, rest⟩ := p
  simp only [parseRadixNat?_eq _ radix hw', String.toList_ofList]
  cases preludeNumeral rest radix with
  | none => rfl
  | some q =>
    have hv : ∀ n : Nat, (if neg then -Int.ofNat n else Int.ofNat n) = signed neg n := fun _ => rfl
    simp only [Option.map_some, Option.filter_some, decide_eq_true_eq]
    by_cases hlt : Nat.ofDigits q.1 q.2 < 2 ^ w
    · simp only [if_pos hlt, hv, signed_bounds_iff hw hw']
    · have hout : ¬ InSignedRange w (signed neg (Nat.ofDigits q.1 q.2)) := fun h =>
        hlt (magnitude_lt_of_inSignedRange hw h)
      simp only [if_neg hlt, if_neg hout]

end CambrianLang.Prelude
