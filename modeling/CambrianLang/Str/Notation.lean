/-
  **What `std::str::parse_*` means** (`docs/STDLIB.md`, section 4.1).

  All characters of the string are digits of the radix, most significant first.  A
  leading `0x` or `0X` forces base 16 and the radix must then be 16 or 0; radix 0
  means 10 otherwise.  Empty digits, an invalid digit, a bad radix and a value
  that does not fit the width all give `none`.
-/
import CambrianLang.Lib.Positional

namespace CambrianLang.Str

open Positional

/-- The digit a character stands for in bases up to 36. -/
def charDigit (c : Char) : Option Nat :=
  if '0' ≤ c ∧ c ≤ '9' then some (c.toNat - 48)
  else if 'a' ≤ c ∧ c ≤ 'z' then some (c.toNat - 87)
  else if 'A' ≤ c ∧ c ≤ 'Z' then some (c.toNat - 55)
  else none

/-- The digit a character stands for in one base. -/
def digitIn (base : Nat) (c : Char) : Option Nat := (charDigit c).filter (· < base)

/-- The digits of a character list, when every character is one. -/
def digitsIn (base : Nat) : List Char → Option (List Nat)
  | [] => some []
  | c :: cs => (digitIn base c).bind fun d => (digitsIn base cs).map (d :: ·)

/-- The characters after a hexadecimal prefix. -/
def hexPrefix : List Char → Option (List Char)
  | '0' :: 'x' :: cs => some cs
  | '0' :: 'X' :: cs => some cs
  | _ => none

/-- Radix 0 stands for 10. -/
def radixOrTen (radix : Nat) : Nat := if radix = 0 then 10 else radix

/-- The digit characters and their base: the prefix is taken off and the base
    checked, and there is at least one character. -/
def header (cs : List Char) (radix : Nat) : Option (List Char × Nat) :=
  let split := match hexPrefix cs with
    | some rest => if radix = 0 ∨ radix = 16 then some (rest, 16) else none
    | none => some (cs, radixOrTen radix)
  split.filter fun p => decide (2 ≤ p.2 ∧ p.2 ≤ 36) && !p.1.isEmpty

/-- The base and the digits of a well-formed numeral. -/
def numeral (cs : List Char) (radix : Nat) : Option (Nat × List Nat) :=
  (header cs radix).bind fun p => (digitsIn p.2 p.1).map fun ds => (p.2, ds)

/-- The number a numeral denotes. -/
def magnitude (cs : List Char) (radix : Nat) : Option Nat :=
  (numeral cs radix).map fun p => valueOf p.1 p.2

/-- `parse_u{width}`. -/
def parseUnsigned (s : String) (radix width : Nat) : Option Nat :=
  (magnitude s.toList radix).filter (· < 2 ^ width)

/-- An optional leading minus sign and the rest. -/
def signSplit : List Char → Bool × List Char
  | '-' :: cs => (true, cs)
  | cs => (false, cs)

/-- A magnitude with its sign. -/
def signed (neg : Bool) (n : Nat) : Int := if neg then -(n : Int) else n

/-- The values of a two's-complement width. -/
def InSignedRange (width : Nat) (v : Int) : Prop := -2 ^ (width - 1) ≤ v ∧ v < 2 ^ (width - 1)

instance (width : Nat) (v : Int) : Decidable (InSignedRange width v) :=
  inferInstanceAs (Decidable (_ ∧ _))

/-- `parse_i{width}`. -/
def parseSigned (s : String) (radix width : Nat) : Option Int :=
  let p := signSplit s.toList
  ((magnitude p.2 radix).map (signed p.1)).filter fun v => decide (InSignedRange width v)

/-- The widths of the parsed types. -/
def widths : List Nat := [8, 16, 32, 64, 128, 256]

/-! ### Prefixes -/

theorem hexPrefix_singleton (c : Char) : hexPrefix [c] = none := by simp [hexPrefix]

theorem hexPrefix_cons_cons (c₀ c₁ : Char) (rest : List Char) :
    hexPrefix (c₀ :: c₁ :: rest) =
      if c₀ = '0' ∧ (c₁ = 'x' ∨ c₁ = 'X') then some rest else none := by
  generalize hcs : c₀ :: c₁ :: rest = cs
  unfold hexPrefix
  split
  · cases hcs
    rw [if_pos ⟨rfl, Or.inl rfl⟩]
  · cases hcs
    rw [if_pos ⟨rfl, Or.inr rfl⟩]
  · next hx hX =>
    rw [if_neg]
    rintro ⟨rfl, rfl | rfl⟩
    · exact hx rest hcs.symm
    · exact hX rest hcs.symm

/-! ### Digits -/

theorem digitIn_lt {base d : Nat} {c : Char} (h : digitIn base c = some d) : d < base := by
  rw [digitIn, Option.filter_eq_some_iff] at h
  exact of_decide_eq_true h.2

theorem digitsIn_lt {base : Nat} {cs : List Char} {ds : List Nat} (h : digitsIn base cs = some ds) :
    ∀ d ∈ ds, d < base := by
  induction cs generalizing ds with
  | nil =>
    rw [digitsIn, Option.some.injEq] at h
    rw [← h]
    exact fun d hd => absurd hd List.not_mem_nil
  | cons c cs ih =>
    simp only [digitsIn, Option.bind_eq_some_iff, Option.map_eq_some_iff] at h
    obtain ⟨d, hd, ds, hds, rfl⟩ := h
    exact List.forall_mem_cons.mpr ⟨digitIn_lt hd, ih hds⟩

theorem header_base {cs rest : List Char} {radix base : Nat} (h : header cs radix = some (rest, base)) :
    2 ≤ base ∧ base ≤ 36 ∧ rest ≠ [] := by
  rw [header, Option.filter_eq_some_iff] at h
  have hcond := h.2
  simp only [Bool.and_eq_true, decide_eq_true_eq, Bool.not_eq_true', List.isEmpty_eq_false_iff] at hcond
  exact ⟨hcond.1.1, hcond.1.2, hcond.2⟩

/-- The header keeps a property of all characters. -/
theorem header_forall {P : Char → Prop} {cs rest : List Char} {radix base : Nat}
    (h : header cs radix = some (rest, base)) (hP : ∀ c ∈ cs, P c) : ∀ c ∈ rest, P c := by
  rw [header, Option.filter_eq_some_iff] at h
  have hsplit := h.1
  cases hx : hexPrefix cs with
  | none =>
    rw [hx] at hsplit
    cases hsplit
    exact hP
  | some cs' =>
    rw [hx] at hsplit
    simp only at hsplit
    split at hsplit
    · cases hsplit
      unfold hexPrefix at hx
      split at hx
      · cases hx
        exact fun c hc => hP c (List.mem_cons_of_mem _ (List.mem_cons_of_mem _ hc))
      · cases hx
        exact fun c hc => hP c (List.mem_cons_of_mem _ (List.mem_cons_of_mem _ hc))
      · cases hx
    · cases hsplit

theorem magnitude_eq (cs : List Char) (radix : Nat) :
    magnitude cs radix =
      (header cs radix).bind fun p => (digitsIn p.2 p.1).map (valueOf p.2) := by
  simp only [magnitude, numeral, Option.map_bind, Function.comp_def, Option.map_map]

theorem numeral_digits {cs : List Char} {radix base : Nat} {ds : List Nat}
    (h : numeral cs radix = some (base, ds)) : 2 ≤ base ∧ ∀ d ∈ ds, d < base := by
  simp only [numeral, Option.bind_eq_some_iff, Option.map_eq_some_iff, Prod.mk.injEq] at h
  obtain ⟨⟨rest, b⟩, hhead, ds', hds, rfl, rfl⟩ := h
  exact ⟨(header_base hhead).1, digitsIn_lt hds⟩

end CambrianLang.Str
