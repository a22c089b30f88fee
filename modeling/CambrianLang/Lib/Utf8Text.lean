/-
  **Texts addressed by byte positions.**

  A text is sliced at a byte position, and only where a character starts or the text ends.
  A scanner that looks at bytes knows such a position when the byte there, or the one before
  it, is an ASCII character: no other character has a byte below 128.
-/
import Mathlib.Data.List.Basic
import Mathlib.Data.List.TakeWhile

namespace CambrianLang.Utf8Text

/-- The UTF-8 bytes of a text. -/
def bytes (text : List Char) : List UInt8 := text.flatMap String.utf8EncodeChar

def byteLen (text : List Char) : Nat := (bytes text).length

/-- The text from a byte position on, if a character starts there or the text ends. -/
def sliceFrom : List Char → Nat → Option (List Char)
  | [], pos => if pos = 0 then some [] else none
  | c :: text, pos =>
      if pos = 0 then some (c :: text)
      else if c.utf8Size ≤ pos then sliceFrom text (pos - c.utf8Size)
      else none

def IsBoundary (text : List Char) (pos : Nat) : Prop := (sliceFrom text pos).isSome = true

instance (text : List Char) (pos : Nat) : Decidable (IsBoundary text pos) :=
  inferInstanceAs (Decidable ((sliceFrom text pos).isSome = true))

@[simp] theorem sliceFrom_zero (text : List Char) : sliceFrom text 0 = some text := by
  cases text with
  | nil => rfl
  | cons c text => rfl

theorem isBoundary_zero (text : List Char) : IsBoundary text 0 := by
  rw [IsBoundary, sliceFrom_zero]
  rfl

theorem sliceFrom_cons {c : Char} {text : List Char} {pos : Nat} (h : c.utf8Size ≤ pos) :
    sliceFrom (c :: text) pos = sliceFrom text (pos - c.utf8Size) := by
  have hpos : pos ≠ 0 := by
    have hsize := Char.utf8Size_pos c
    omega
  rw [sliceFrom, if_neg hpos, if_pos h]

/-- The bytes of a longer character have the top bit set. -/
theorem toNat_ofNat_add {x m : Nat} (hx : x < 64) (hm : 128 ≤ m) (hsum : x + m < 256) :
    128 ≤ (UInt8.ofNat (x + m)).toNat := by
  rw [UInt8.toNat_ofNat']
  omega

/-- A byte below 128 is the whole character. -/
theorem utf8Size_of_ascii {c : Char} {b : UInt8} (hmem : b ∈ String.utf8EncodeChar c)
    (hb : b.toNat < 128) : c.utf8Size = 1 := by
  rw [← String.length_utf8EncodeChar]
  by_cases hascii : c.val.toNat ≤ 0x7f
  · rw [String.utf8EncodeChar, if_pos hascii]
    rfl
  · have htop : ∀ d ∈ String.utf8EncodeChar c, 128 ≤ d.toNat := by
      intro d hd
      rw [String.utf8EncodeChar, if_neg hascii] at hd
      split at hd
      · rcases List.mem_pair.mp hd with rfl | rfl
        all_goals exact toNat_ofNat_add (by omega) (by decide) (by omega)
      · split at hd <;> simp only [List.mem_cons, List.not_mem_nil, or_false] at hd
        · rcases hd with rfl | rfl | rfl
          all_goals exact toNat_ofNat_add (by omega) (by decide) (by omega)
        · rcases hd with rfl | rfl | rfl | rfl
          all_goals exact toNat_ofNat_add (by omega) (by decide) (by omega)
    exact absurd (htop b hmem) (Nat.not_le.mpr hb)

/-- An ASCII byte is at a boundary and before one. -/
theorem isBoundary_of_ascii {text : List Char} {k : Nat} {b : UInt8}
    (hk : (bytes text)[k]? = some b) (hb : b.toNat < 128) :
    IsBoundary text k ∧ IsBoundary text (k + 1) := by
  induction text generalizing k with
  | nil => simp [bytes] at hk
  | cons c text ih =>
    rw [bytes, List.flatMap_cons] at hk
    by_cases hlt : k < (String.utf8EncodeChar c).length
    · rw [List.getElem?_append_left hlt] at hk
      have hsize := utf8Size_of_ascii (List.mem_of_getElem? hk) hb
      obtain rfl : k = 0 := by
        rw [String.length_utf8EncodeChar, hsize] at hlt
        omega
      refine ⟨isBoundary_zero _, ?_⟩
      rw [IsBoundary, sliceFrom_cons (by omega), hsize]
      exact isBoundary_zero text
    · rw [Nat.not_lt, String.length_utf8EncodeChar] at hlt
      rw [List.getElem?_append_right (by rwa [String.length_utf8EncodeChar]),
        String.length_utf8EncodeChar] at hk
      obtain ⟨hat, hafter⟩ := ih hk
      rw [IsBoundary, IsBoundary, sliceFrom_cons hlt, sliceFrom_cons (by omega)]
      refine ⟨hat, ?_⟩
      rwa [IsBoundary, show k - c.utf8Size + 1 = k + 1 - c.utf8Size by omega] at hafter

/-- Past a boundary and a run of ASCII bytes there is a boundary. -/
theorem isBoundary_takeWhile {text : List Char} {p : UInt8 → Bool}
    (hp : ∀ b, p b = true → b.toNat < 128) {i : Nat} (hi : IsBoundary text i) :
    IsBoundary text (i + (((bytes text).drop i).takeWhile p).length) := by
  rcases hlen : (((bytes text).drop i).takeWhile p).length with _ | k
  · exact hi
  · have hlt : k < (((bytes text).drop i).takeWhile p).length := by omega
    have hprefix : (((bytes text).drop i).takeWhile p) <+: (bytes text).drop i :=
      List.takeWhile_prefix p
    have hget : (bytes text)[i + k]? = some (((bytes text).drop i).takeWhile p)[k] := by
      rw [← List.getElem?_drop, hprefix.getElem hlt]
      exact List.getElem?_eq_getElem (hlt.trans_le hprefix.length_le)
    exact (isBoundary_of_ascii hget (hp _ (List.mem_takeWhile_imp (List.getElem_mem hlt)))).2

@[simp] theorem byteLen_cons (c : Char) (text : List Char) :
    byteLen (c :: text) = c.utf8Size + byteLen text := by
  rw [byteLen, bytes, List.flatMap_cons, List.length_append, String.length_utf8EncodeChar]
  rfl

theorem eq_nil_of_byteLen {text : List Char} (h : byteLen text = 0) : text = [] := by
  cases text with
  | nil => rfl
  | cons c text =>
    have hsize := Char.utf8Size_pos c
    rw [byteLen_cons] at h
    omega

theorem length_le_byteLen (text : List Char) : text.length ≤ byteLen text := by
  induction text with
  | nil => exact Nat.le_refl 0
  | cons c text ih =>
    have hsize := Char.utf8Size_pos c
    rw [byteLen_cons, List.length_cons]
    omega

/-- An ASCII text has a byte for every character. -/
theorem byteLen_of_ascii {text : List Char} (h : ∀ c ∈ text, c.utf8Size = 1) :
    byteLen text = text.length := by
  induction text with
  | nil => rfl
  | cons c text ih =>
    rw [byteLen_cons, h c (List.mem_cons_self ..), List.length_cons,
      ih fun d hd => h d (List.mem_cons_of_mem c hd), Nat.add_comm]

end CambrianLang.Utf8Text
