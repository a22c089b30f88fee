/-
  **The Lean and Solidity string parsers compared with the notation.**

  The unsigned Solidity parser is right on every ASCII string.  The prelude is
  right on the numerals that read the same in both directions, and where neither
  reading is accepted.  The signed Solidity parser is right below 256 bits; at 256
  bits its bound overflows for a negative numeral and lets through the upper half
  of the words for a positive one.
-/
import CambrianLang.Prelude.ParseRadix
import CambrianLang.Solidity.ParseRadix

namespace CambrianLang.Str

open Positional Prelude Solidity

/-- Both back ends read `s` as the notation does, as an unsigned number. -/
def UnsignedAgrees (s : String) (radix : Word) (w : Nat) : Prop :=
  parseRadixNat? s radix.toNat w = parseUnsigned s radix.toNat w ∧
    camTryParseRadix (bytesOf s.toList) radix (BitVec.ofNat 256 w) =
      some (resultPair ((parseUnsigned s radix.toNat w).map (BitVec.ofNat 256)))

/-- Both back ends read `s` as the notation does, as a signed number. -/
def SignedAgrees (s : String) (radix : Word) (w : Nat) : Prop :=
  parseRadixSignedNat? s radix.toNat w = parseSigned s radix.toNat w ∧
    camTryParseRadixSigned (bytesOf s.toList) radix (BitVec.ofNat 256 w) =
      some (resultPair ((parseSigned s radix.toNat w).map (BitVec.ofInt 256)))

/-- The digits are a palindrome, or neither reading of them is accepted; and where
    there is no numeral, no accepted number comes from a prefix taken for digits. -/
def Symmetric (accept : Nat → Prop) (cs : List Char) (radix : Nat) : Prop :=
  match numeral cs radix with
  | some (base, ds) =>
      ds.reverse = ds ∨ ¬ accept (valueOf base ds) ∧ ¬ accept (Nat.ofDigits base ds)
  | none => ∀ ds, misread cs radix = some ds → ¬ accept (Nat.ofDigits radix ds)

/-- At 256 bits: no negative numeral gets past the header, and no positive one lies
    in the upper half of the words. -/
def WidthCovered (neg : Bool) (cs : List Char) (radix w : Nat) : Prop :=
  w = 256 → (neg = true → header cs radix = none) ∧
    (neg = false → ∀ n, magnitude cs radix = some n → n < 2 ^ 255 ∨ 2 ^ 256 ≤ n)

/-! ### The prelude -/

theorem filter_some_eq_iff {accept : Nat → Prop} [DecidablePred accept] {a b : Nat} :
    (some a).filter (fun n => decide (accept n)) = (some b).filter (fun n => decide (accept n)) ↔
      a = b ∨ ¬ accept a ∧ ¬ accept b := by
  rw [Option.filter_some, Option.filter_some]
  simp only [decide_eq_true_eq]
  by_cases ha : accept a
  · rw [if_pos ha]
    by_cases hb : accept b
    · rw [if_pos hb, Option.some.injEq]
      simp only [ha, not_true_eq_false, false_and, or_false]
    · rw [if_neg hb]
      refine iff_of_false (by simp) ?_
      rintro (rfl | ⟨h, -⟩)
      · exact hb ha
      · exact h ha
  · rw [if_neg ha]
    by_cases hb : accept b
    · rw [if_pos hb]
      refine iff_of_false (by simp) ?_
      rintro (rfl | ⟨-, h⟩)
      · exact ha hb
      · exact h hb
    · rw [if_neg hb]
      exact iff_of_true rfl (Or.inr ⟨ha, hb⟩)

theorem misread_of_numeral {cs : List Char} {radix : Nat} (h : numeral cs radix = none) :
    preludeNumeral cs radix = (misread cs radix).map (radix, ·) := by
  rw [preludeNumeral, h, Option.none_or]

theorem preludeNumeral_of_numeral {cs : List Char} {radix : Nat} {p : Nat × List Nat}
    (h : numeral cs radix = some p) : preludeNumeral cs radix = some p := by
  rw [preludeNumeral, h, Option.some_or]

/-- The backwards reading is accepted as the same number exactly on symmetric input. -/
theorem prelude_reads_iff (accept : Nat → Prop) [DecidablePred accept] (cs : List Char)
    (radix : Nat) :
    ((preludeNumeral cs radix).map fun p => Nat.ofDigits p.1 p.2).filter
        (fun n => decide (accept n)) =
      (magnitude cs radix).filter (fun n => decide (accept n)) ↔ Symmetric accept cs radix := by
  cases hnum : numeral cs radix with
  | some p =>
    obtain ⟨base, ds⟩ := p
    obtain ⟨hbase, hds⟩ := numeral_digits hnum
    rw [preludeNumeral_of_numeral hnum, magnitude, hnum, Option.map_some, Option.map_some,
      filter_some_eq_iff, ofDigits_eq_valueOf_iff (by omega) hds, Symmetric, hnum]
    simp only
    rw [and_comm (a := ¬ accept (Nat.ofDigits base ds))]
  | none =>
    rw [misread_of_numeral hnum, magnitude, hnum, Option.map_none, Option.filter_none, Symmetric,
      hnum]
    simp only [Option.map_map, Function.comp_def, Option.filter_eq_none_iff, Option.map_eq_some_iff,
      decide_eq_true_eq]
    constructor
    · intro h ds hds
      exact h _ ⟨ds, hds, rfl⟩
    · rintro h _ ⟨ds, hds, rfl⟩
      exact h ds hds

theorem signed_injective (neg : Bool) : Function.Injective (signed neg) := by
  intro a b h
  cases neg
  · simp only [signed, Bool.false_eq_true, ↓reduceIte] at h
    omega
  · simp only [signed, ↓reduceIte] at h
    omega

/-- Filtering signed values is filtering magnitudes. -/
theorem filter_map_signed (neg : Bool) (w : Nat) (x : Option Nat) :
    (x.map (signed neg)).filter (fun v => decide (InSignedRange w v)) =
      (x.filter fun n => decide (InSignedRange w (signed neg n))).map (signed neg) := by
  cases x with
  | none => rfl
  | some n =>
    rw [Option.map_some, Option.filter_some, Option.filter_some]
    split
    · rfl
    · rfl

theorem mem_widths {w : Nat} (hw : w ∈ widths) : 0 < w ∧ w ≤ 256 := by
  simp only [widths, List.mem_cons, List.not_mem_nil, or_false] at hw
  omega

/-! ### Both back ends -/

theorem unsignedAgrees_iff {s : String} (hs : Ascii s.toList) (radix : Word) {w : Nat}
    (hw : w ≤ 256) :
    UnsignedAgrees s radix w ↔ Symmetric (fun n => n < 2 ^ w) s.toList radix.toNat := by
  rw [← prelude_reads_iff, UnsignedAgrees, parseRadixNat?_eq s _ hw, camTryParseRadix_eq hs radix hw]
  exact ⟨fun h => h.1, fun h => ⟨h, rfl⟩⟩

theorem signed_prelude_iff (s : String) (radix : Nat) {w : Nat} (hw : 0 < w) (hw' : w ≤ 256) :
    parseRadixSignedNat? s radix w = parseSigned s radix w ↔
      Symmetric (fun n => InSignedRange w (signed (signSplit s.toList).1 n))
        (signSplit s.toList).2 radix := by
  rw [← prelude_reads_iff, parseRadixSignedNat?_eq s radix hw hw', parseSigned]
  have hmap : (preludeNumeral (signSplit s.toList).2 radix).map
        (fun p => signed (signSplit s.toList).1 (Nat.ofDigits p.1 p.2)) =
      ((preludeNumeral (signSplit s.toList).2 radix).map fun p => Nat.ofDigits p.1 p.2).map
        (signed (signSplit s.toList).1) := by
    rw [Option.map_map]
    rfl
  rw [hmap, filter_map_signed, filter_map_signed]
  exact (Option.map_injective (signed_injective _)).eq_iff

theorem resultPair_injective : Function.Injective resultPair := by
  intro x y h
  cases x with
  | none =>
    cases y with
    | none => rfl
    | some _ => exact absurd (Prod.mk.inj h).1 Bool.false_ne_true
  | some _ =>
    cases y with
    | none => exact absurd (Prod.mk.inj h).1.symm Bool.false_ne_true
    | some _ => rw [(Prod.mk.inj h).2]

theorem inSignedRange_256_iff (n : Nat) : InSignedRange 256 (signed false n) ↔ n < 2 ^ 255 := by
  have hcast : ((2 ^ 255 : Nat) : Int) = 2 ^ 255 := by norm_cast
  simp only [InSignedRange, signed, Bool.false_eq_true, ↓reduceIte]
  constructor
  · rintro ⟨-, h⟩
    rw [← hcast] at h
    exact_mod_cast h
  · intro h
    refine ⟨?_, ?_⟩
    · have hnn : (0 : Int) ≤ n := Int.natCast_nonneg n
      have hpow : (0 : Int) ≤ 2 ^ (256 - 1) := by positivity
      omega
    · rw [show 256 - 1 = 255 from rfl, ← hcast]
      exact_mod_cast h

/-- A word read without a sign is right when it is below the sign bit, or too large
    for a word altogether. -/
theorem nonneg_covered_iff (x : Option Nat) :
    ((x.filter fun n => decide (n < 2 ^ 256)).map (BitVec.ofNat 256)) =
        ((x.map (signed false)).filter fun v => decide (InSignedRange 256 v)).map
          (BitVec.ofInt 256) ↔
      ∀ n, x = some n → n < 2 ^ 255 ∨ 2 ^ 256 ≤ n := by
  cases x with
  | none => exact iff_of_true rfl fun n h => nomatch h
  | some n =>
    have hlt : (2 : Nat) ^ 255 < 2 ^ 256 := Nat.pow_lt_pow_right (by decide) (by decide)
    rw [Option.map_some, Option.filter_some, Option.filter_some]
    simp only [decide_eq_true_eq, inSignedRange_256_iff, Option.some.injEq, forall_eq']
    by_cases hlow : n < 2 ^ 255
    · rw [if_pos (hlow.trans hlt), if_pos hlow]
      refine iff_of_true ?_ (Or.inl hlow)
      simp only [Option.map_some, signed, Bool.false_eq_true, ↓reduceIte, BitVec.ofInt_natCast]
    · rw [if_neg hlow]
      by_cases hfit : n < 2 ^ 256
      · rw [if_pos hfit]
        refine iff_of_false (by simp) ?_
        rintro (h | h)
        · exact hlow h
        · exact absurd hfit (Nat.not_lt.mpr h)
      · rw [if_neg hfit]
        exact iff_of_true rfl (Or.inr (Nat.not_lt.mp hfit))

theorem signed_solidity_iff {s : String} (hs : Ascii s.toList) (radix : Word) {w : Nat}
    (hw : 0 < w) (hw' : w ≤ 256) :
    camTryParseRadixSigned (bytesOf s.toList) radix (BitVec.ofNat 256 w) =
        some (resultPair ((parseSigned s radix.toNat w).map (BitVec.ofInt 256))) ↔
      WidthCovered (signSplit s.toList).1 (signSplit s.toList).2 radix.toNat w := by
  by_cases h256 : w = 256
  · subst h256
    rw [parseSigned]
    cases hsplit : signSplit s.toList with
    | mk neg rest =>
      cases neg with
      | true =>
        rw [camTryParseRadixSigned_neg hs radix hsplit]
        simp only [WidthCovered, forall_const, Bool.true_eq_false, false_imp_iff, and_true]
        by_cases hhead : header rest radix.toNat = none
        · refine iff_of_true ?_ hhead
          rw [if_pos hhead, magnitude_eq, hhead]
          rfl
        · rw [if_neg hhead]
          exact iff_of_false (fun h => nomatch h) hhead
      | false =>
        rw [camTryParseRadixSigned_nonneg hs radix hsplit]
        simp only [WidthCovered, forall_const, Bool.false_eq_true, false_imp_iff, true_and,
          Option.some.injEq]
        rw [resultPair_injective.eq_iff]
        exact nonneg_covered_iff _
  · rw [camTryParseRadixSigned_eq hs radix hw (by omega), parseSigned]
    exact iff_of_true rfl fun h => absurd h h256

/-- **When the back ends parse what is written**: unsigned, exactly on symmetric
    numerals; signed, on symmetric numerals that the 256-bit bound covers. -/
theorem parse_agrees_iff (s : String) (hs : Ascii s.toList) (radix : Word) {w : Nat}
    (hw : w ∈ widths) :
    (UnsignedAgrees s radix w ↔ Symmetric (fun n => n < 2 ^ w) s.toList radix.toNat) ∧
      (SignedAgrees s radix w ↔
        Symmetric (fun n => InSignedRange w (signed (signSplit s.toList).1 n))
            (signSplit s.toList).2 radix.toNat ∧
          WidthCovered (signSplit s.toList).1 (signSplit s.toList).2 radix.toNat w) := by
  obtain ⟨hpos, hle⟩ := mem_widths hw
  refine ⟨unsignedAgrees_iff hs radix hle, ?_⟩
  rw [SignedAgrees, signed_prelude_iff s _ hpos hle, signed_solidity_iff hs radix hpos hle]

/-- A palindrome with a sign. -/
theorem parse_agrees_neg_121 :
    UnsignedAgrees "-121" 10#256 64 ↔ Symmetric (fun n => n < 2 ^ 64) ['-', '1', '2', '1'] 10 :=
  (parse_agrees_iff "-121" (by decide) 10#256 (w := 64) (by decide)).1

/-- `"12"` is 21 in a generated Lean project, and `"-1"` reverts as a 256-bit integer. -/
theorem parse_disagrees :
    ¬ UnsignedAgrees "12" 10#256 8 ∧ ¬ SignedAgrees "-1" 10#256 256 := by
  constructor
  · rintro ⟨h, -⟩
    revert h
    decide
  · rintro ⟨-, h⟩
    revert h
    have hsplit : signSplit "-1".toList = (true, ['1']) := by decide
    rw [camTryParseRadixSigned_neg (by decide) 10#256 hsplit, if_neg (by decide)]
    exact fun h => nomatch h

end CambrianLang.Str
