/-
  **The helpers the standard-library tokens share** (`stdlib/token/erc20-core.cam`).

  A `HashMap<K, V>` reads a missing key as zero, so it is a function, and an
  `update` is `Function.update`.  What a call reads of the chain is its `Ctx`;
  the hash functions and `ecrecover` are the host's (`Host`), and nothing is
  assumed of them here.
-/
import CambrianLang.Stdlib.Math

namespace CambrianLang.Stdlib

open Trapping

/-- `msg::sender`, `sys::timestamp`, `sys::chainid` and `sys::address`. -/
structure Ctx (A : Type) where
  sender : A
  timestamp : U256
  chainid : U256
  address : A

/-- The argument tuples of `hashOf`. -/
inductive HashArgs (A : Type)
  | allowance (owner spender : A)
  | domain (typehash hashedName hashedVersion chainid : U256) (thisAddr : A)
  | permit (typehash : U256) (owner spender : A) (amount nonce deadline : U256)
  deriving DecidableEq

/-- The argument tuples of `evm::keccak256Packed`. -/
inductive PackedArgs
  | text (s : String)
  | digest (separator structHash : U256)
  deriving DecidableEq

/-- The host functions: the two hashes and the signature recovery. -/
structure Host (A : Type) where
  hashOf : HashArgs A → U256
  keccak256Packed : PackedArgs → U256
  ecrecover : U256 → BitVec 8 → U256 → U256 → A

section Accessors

variable {A : Type}

/-- `zero_address`. -/
def zeroAddress [Zero A] : A := 0

/-- `balance_of`. -/
def balanceOf (balances : A → U256) (owner : A) : U256 := balances owner

/-- `allowance_of`. -/
def allowanceOf (h : Host A) (allowances : U256 → U256) (owner spender : A) : U256 :=
  allowances (h.hashOf (.allowance owner spender))

/-- `nonce_of`. -/
def nonceOf (nonces : A → U256) (owner : A) : U256 := nonces owner

end Accessors

/-! ### Allowances -/

/-- `unlimited_allowance`. -/
def unlimitedAllowance : Exec U256 := do
  let half := 18446744073709551615#256
  let x ← add half 1#256
  let two128 ← mul x x
  let m ← sub two128 1#256
  let p ← mul two128 m
  add p m

/-- `is_infinite_allowance`. -/
def isInfiniteAllowance (current : U256) : Exec Bool := do
  return current == (← unlimitedAllowance)

/-- `allowance_after_spend`. -/
def allowanceAfterSpend (current amount : U256) : Exec U256 := do
  if ← isInfiniteAllowance current then return current else sub current amount

theorem unlimitedAllowance_eq : unlimitedAllowance = .ok maxU256 := by decide

theorem isInfiniteAllowance_eq (current : U256) :
    isInfiniteAllowance current = .ok (current == maxU256) := by
  rw [isInfiniteAllowance, unlimitedAllowance_eq, ok_bind, pure_eq_ok]

/-- **A spend either meets the unlimited allowance and leaves it, or is subtracted.** -/
theorem allowanceAfterSpend_eq_ok {current amount rest : U256} :
    allowanceAfterSpend current amount = .ok rest ↔
      (current = maxU256 ∧ rest = current) ∨
        (current ≠ maxU256 ∧ rest.toNat + amount.toNat = current.toNat) := by
  rw [allowanceAfterSpend, isInfiniteAllowance_eq, ok_bind]
  by_cases h : current = maxU256
  · simp [h, eq_comm]
  · simp [h, sub_eq_ok]

/-! ### Permits -/

/-- `eip712_domain_typehash`. -/
def eip712DomainTypehash : U256 :=
  0x8b73c3c69bb8fe3d512ecc4cf759cc79239f7b179b0ffacaa9a75d522b39400f#256

/-- `permit_typehash`. -/
def permitTypehash : U256 :=
  0x6e71edae12b1b97f4d1f60370fef10105fa2faae0126114a169c64845d6126c9#256

section Permits

variable {A : Type} (h : Host A)

/-- `domain_separator`. -/
def domainSeparator (hashedName hashedVersion chainid : U256) (thisAddr : A) : U256 :=
  h.hashOf (.domain eip712DomainTypehash hashedName hashedVersion chainid thisAddr)

/-- `permit_struct_hash`. -/
def permitStructHash (owner spender : A) (value nonce deadline : U256) : U256 :=
  h.hashOf (.permit permitTypehash owner spender value nonce deadline)

/-- `permit_digest`. -/
def permitDigest (separator structHash : U256) : U256 :=
  h.keccak256Packed (.digest separator structHash)

/-- `permit_signer`. -/
def permitSigner (separator structHash : U256) (v : BitVec 8) (r s : U256) : A :=
  h.ecrecover (permitDigest h separator structHash) v r s

/-- The `where` of `permit`, the same in every entity that has the route. -/
def permitGuard [DecidableEq A] [Zero A] (hashedName hashedVersion : U256) (nonces : A → U256)
    (c : Ctx A) (owner spender : A) (value deadline : U256) (v : BitVec 8) (r s : U256) :
    Exec Unit := do
  require (c.timestamp ≤ deadline) 4
  require (owner ≠ zeroAddress) 7
  require (spender ≠ zeroAddress) 7
  require (permitSigner h (domainSeparator h hashedName hashedVersion c.chainid c.address)
    (permitStructHash h owner spender value (nonceOf nonces owner) deadline) v r s = owner) 5

end Permits

/-! ### A host to evaluate with -/

/-- Four accounts, hashes that keep small arguments apart, and a recovery that
    answers the account whose number is `v`. -/
def Host.sample : Host (Fin 4) where
  hashOf
    | .allowance owner spender => BitVec.ofNat 256 (4 * owner.val + spender.val)
    | .domain _ name version chainid thisAddr =>
      BitVec.ofNat 256 (100 + name.toNat + version.toNat + 4 * chainid.toNat + thisAddr.val)
    | .permit _ owner spender value nonce _ =>
      BitVec.ofNat 256 (1000 + 4 * owner.val + spender.val + 16 * nonce.toNat + 256 * value.toNat)
  keccak256Packed
    | .text s => BitVec.ofNat 256 s.length
    | .digest separator structHash => separator * 1000000#256 + structHash
  ecrecover _ v _ _ := Fin.ofNat 4 v.toNat

end CambrianLang.Stdlib
