/-
  **The axioms of the vendored Lean prelude**
  (`assets/lean-prelude/Cambrian/Core.lean`, `Evm.lean`).

  The prelude postulates two things: a value of the opaque type `Unsupported`, and
  that the opaque `create2Address` is injective in its argument triple.  The first
  is harmless.  The second asks for an injection of 672 bits into 160, so no
  interpretation satisfies it: already two salts of one deployer share an address.
-/
import Mathlib.Data.FinEnum
import Mathlib.Data.Fintype.Pigeonhole
import Mathlib.Data.Fintype.Prod

namespace CambrianLang.Prelude

/-- 160-bit address. -/
abbrev Address : Type := BitVec 160

/-- The axioms of the prelude, read in an interpretation of `Unsupported` and of a
    `create2Address` with arbitrary widths. -/
structure Axioms {d s h r : Nat} (Unsupported : Type)
    (create2Address : BitVec d → BitVec s → BitVec h → BitVec r) : Prop where
  unsupported_default : Nonempty Unsupported
  create2Address_injective : ∀ d₁ s₁ h₁ d₂ s₂ h₂,
    create2Address d₁ s₁ h₁ = create2Address d₂ s₂ h₂ → d₁ = d₂ ∧ s₁ = s₂ ∧ h₁ = h₂

theorem card_bitVec (n : Nat) : Fintype.card (BitVec n) = 2 ^ n := by
  rw [← FinEnum.card_eq_fintypeCard, FinEnum.card_bitVec]

theorem append_inj {m n : Nat} {x x' : BitVec m} {y y' : BitVec n} (h : x ++ y = x' ++ y') :
    x = x' ∧ y = y' := by
  have hhigh := congrArg (BitVec.extractLsb' n m) h
  have hlow := congrArg (BitVec.extractLsb' 0 n) h
  rw [BitVec.extractLsb'_append_eq_left, BitVec.extractLsb'_append_eq_left] at hhigh
  rw [BitVec.extractLsb'_append_eq_right, BitVec.extractLsb'_append_eq_right] at hlow
  exact ⟨hhigh, hlow⟩

/-! ### Which widths leave room for the axioms -/

variable {d s h r : Nat}

/-- Too few result bits: some two argument triples share an address. -/
theorem create2Address_collision (hr : r < d + s + h)
    (create2Address : BitVec d → BitVec s → BitVec h → BitVec r) :
    ∃ d₁ s₁ h₁ d₂ s₂ h₂, ¬ (d₁ = d₂ ∧ s₁ = s₂ ∧ h₁ = h₂) ∧
      create2Address d₁ s₁ h₁ = create2Address d₂ s₂ h₂ := by
  have hcard : Fintype.card (BitVec r) < Fintype.card (BitVec d × BitVec s × BitVec h) := by
    rw [Fintype.card_prod, Fintype.card_prod, card_bitVec, card_bitVec, card_bitVec, card_bitVec,
      ← Nat.mul_assoc, ← Nat.pow_add, ← Nat.pow_add]
    exact Nat.pow_lt_pow_right (by decide) hr
  obtain ⟨⟨d₁, s₁, h₁⟩, ⟨d₂, s₂, h₂⟩, hne, heq⟩ := Fintype.exists_ne_map_eq_of_card_lt
    (fun t : BitVec d × BitVec s × BitVec h => create2Address t.1 t.2.1 t.2.2) hcard
  refine ⟨d₁, s₁, h₁, d₂, s₂, h₂, ?_, heq⟩
  rintro ⟨rfl, rfl, rfl⟩
  exact hne rfl

/-- **The widths for which the axioms have a model**: an injective address function
    exists exactly when the result has as many bits as the three arguments. -/
theorem axioms_iff_width :
    (∃ (Unsupported : Type) (create2Address : BitVec d → BitVec s → BitVec h → BitVec r),
      Axioms Unsupported create2Address) ↔ d + s + h ≤ r := by
  constructor
  · rintro ⟨U, create2Address, -, hinj⟩
    by_contra hlt
    obtain ⟨d₁, s₁, h₁, d₂, s₂, h₂, hne, heq⟩ :=
      create2Address_collision (Nat.not_le.mp hlt) create2Address
    exact hne (hinj _ _ _ _ _ _ heq)
  · intro hle
    refine ⟨Unit, fun deployer salt initCodeHash => (deployer ++ salt ++ initCodeHash).setWidth r,
      ⟨()⟩, ?_⟩
    intro d₁ s₁ h₁ d₂ s₂ h₂ heq
    have happ : d₁ ++ s₁ ++ h₁ = d₂ ++ s₂ ++ h₂ := by
      have hback := congrArg (BitVec.setWidth (d + s + h)) heq
      rwa [BitVec.setWidth_setWidth_of_le _ hle, BitVec.setWidth_setWidth_of_le _ hle,
        BitVec.setWidth_eq, BitVec.setWidth_eq] at hback
    obtain ⟨hds, hh⟩ := append_inj happ
    obtain ⟨hd, hs⟩ := append_inj hds
    exact ⟨hd, hs, hh⟩

/-! ### The widths of the prelude -/

/-- `Cambrian.create2Address` with its declared widths. -/
abbrev Create2Address : Type := Address → BitVec 256 → BitVec 256 → Address

/-- **The prelude's axioms are inconsistent**: whatever `Unsupported` and
    `create2Address` are taken to be, two distinct argument triples get the same
    address, so the injectivity axiom fails. -/
theorem axioms_unsatisfiable (Unsupported : Type) (create2Address : Create2Address) :
    ¬ Axioms Unsupported create2Address := by
  intro hax
  obtain ⟨d₁, s₁, h₁, d₂, s₂, h₂, hne, heq⟩ := create2Address_collision (by decide) create2Address
  exact hne (hax.create2Address_injective _ _ _ _ _ _ heq)

/-- There is no model. -/
theorem no_model : ¬ ∃ (Unsupported : Type) (create2Address : Create2Address),
    Axioms Unsupported create2Address :=
  fun h => absurd (axioms_iff_width.mp h) (by decide)

end CambrianLang.Prelude
