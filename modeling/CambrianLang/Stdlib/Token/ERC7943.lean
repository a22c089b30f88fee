/-
  **The rule-bound tokens** (`stdlib/token/erc7943-core.cam`,
  `stdlib/token/ERC7943Min.cam`, `stdlib/token/ERC7943.cam`).

  The full entity carries everything the minimal one carries, with the same
  guards, and adds the permit, the holder count and the line that lowers a
  freeze when a seizure reaches into it.
-/
import CambrianLang.Lib.Ledger
import CambrianLang.Stdlib.Token.Core

namespace CambrianLang.Stdlib

open Trapping Ledger

/-! ### `erc7943-core` -/

section Core

variable {A : Type}

/-- `send_allowed`. -/
def sendAllowed (blocked : A → Bool) (account : A) : Bool := !blocked account

/-- `receive_allowed`. -/
def receiveAllowed (blocked : A → Bool) (account : A) : Bool := !blocked account

/-- `frozen_of`. -/
def frozenOf (frozen : A → U256) (account : A) : U256 := frozen account

/-- `unfrozen_of`. -/
def unfrozenOf (frozen balances : A → U256) (account : A) : Exec U256 :=
  if balances account ≤ frozen account then .ok 0#256
  else sub (balances account) (frozen account)

/-- `transfer_allowed`. -/
def transferAllowed (sendBlocked recvBlocked : A → Bool) (frozen balances : A → U256)
    (fromAddr toAddr : A) (amount : U256) : Exec Bool := do
  let unfrozen ← unfrozenOf frozen balances fromAddr
  return sendAllowed sendBlocked fromAddr && receiveAllowed recvBlocked toAddr &&
    decide (amount ≤ unfrozen)

/-- `holders_after_move`. -/
def holdersAfterMove (holders balFrom balTo amount : U256) : Exec U256 := do
  let gained := if balTo = 0#256 then 1#256 else 0#256
  let lost := if balFrom = amount then 1#256 else 0#256
  let more ← add holders gained
  sub more lost

/-- **The unfrozen amount is the balance less the freeze**, cut off at zero. -/
theorem unfrozenOf_eq (frozen balances : A → U256) (account : A) :
    ∃ u, unfrozenOf frozen balances account = .ok u ∧
      u.toNat = (balances account).toNat - (frozen account).toNat := by
  unfold unfrozenOf
  split
  · next hle =>
    rw [BitVec.le_def] at hle
    exact ⟨0#256, rfl, by simp; omega⟩
  · next hgt =>
    rw [BitVec.le_def] at hgt
    exact ⟨_, sub_of_le (by omega), BitVec.toNat_sub_of_le (BitVec.le_def.mpr (by omega))⟩

theorem unfrozenOf_eq_ok {frozen balances : A → U256} {account : A} {u : U256} :
    unfrozenOf frozen balances account = .ok u ↔
      u.toNat = (balances account).toNat - (frozen account).toNat := by
  obtain ⟨x, hx, hxv⟩ := unfrozenOf_eq frozen balances account
  rw [hx, Except.ok.injEq, ← hxv, BitVec.toNat_inj, eq_comm]

end Core

/-! ### `ERC7943Min` -/

/-- The members of `ERC7943Min`. -/
structure ERC7943Min (A : Type) where
  mOperator : A
  mTotalSupply : U256
  mBalances : A → U256
  mAllowances : U256 → U256
  mFrozen : A → U256
  mSendBlocked : A → Bool
  mRecvBlocked : A → Bool

namespace ERC7943Min

/-- The arguments of the constructor. -/
structure Args (A : Type) where
  operator : A
  initialHolder : A
  initialSupply : U256

/-- The routes that write. -/
inductive Call (A : Type)
  | transfer (toAddr : A) (amount : U256)
  | transferFrom (fromAddr toAddr : A) (amount : U256)
  | approve (spender : A) (amount : U256)
  | mint (toAddr : A) (amount : U256)
  | burn (amount : U256)
  | forcedTransfer (fromAddr toAddr : A) (amount : U256)
  | setFrozenTokens (account : A) (amount : U256)
  | setSendBlocked (account : A) (blocked : Bool)
  | setReceiveBlocked (account : A) (blocked : Bool)

variable {A : Type} [DecidableEq A] [Zero A] (h : Host A)

/-- `constructor`. -/
def deploy (a : Args A) : ERC7943Min A where
  mOperator := a.operator
  mTotalSupply := a.initialSupply
  mBalances := Function.update (fun _ => 0#256) a.initialHolder a.initialSupply
  mAllowances := fun _ => 0#256
  mFrozen := fun _ => 0#256
  mSendBlocked := fun _ => false
  mRecvBlocked := fun _ => false

/-- The `where` of each route. -/
def guard (s : ERC7943Min A) (c : Ctx A) : Call A → Exec Unit
  | .transfer toAddr amount => do
    require (0#256 < amount) 1
    require (toAddr ≠ zeroAddress) 7
    require (sendAllowed s.mSendBlocked c.sender) 8
    require (receiveAllowed s.mRecvBlocked toAddr) 9
    let unfrozen ← unfrozenOf s.mFrozen s.mBalances c.sender
    require (amount ≤ unfrozen) 10
  | .transferFrom fromAddr toAddr amount => do
    require (0#256 < amount) 1
    require (toAddr ≠ zeroAddress) 7
    require (sendAllowed s.mSendBlocked fromAddr) 8
    require (receiveAllowed s.mRecvBlocked toAddr) 9
    let unfrozen ← unfrozenOf s.mFrozen s.mBalances fromAddr
    require (amount ≤ unfrozen) 10
    require (amount ≤ allowanceOf h s.mAllowances fromAddr c.sender) 3
  | .approve spender _ => require (spender ≠ zeroAddress) 7
  | .mint toAddr amount => do
    require (0#256 < amount) 1
    require (toAddr ≠ zeroAddress) 7
    require (c.sender = s.mOperator) 6
    require (receiveAllowed s.mRecvBlocked toAddr) 9
  | .burn amount => do
    require (0#256 < amount) 1
    require (sendAllowed s.mSendBlocked c.sender) 8
    let unfrozen ← unfrozenOf s.mFrozen s.mBalances c.sender
    require (amount ≤ unfrozen) 10
  | .forcedTransfer fromAddr toAddr amount => do
    require (c.sender = s.mOperator) 6
    require (0#256 < amount) 1
    require (toAddr ≠ zeroAddress) 7
    require (amount ≤ balanceOf s.mBalances fromAddr) 2
  | .setFrozenTokens _ _ => require (c.sender = s.mOperator) 6
  | .setSendBlocked _ _ => require (c.sender = s.mOperator) 6
  | .setReceiveBlocked _ _ => require (c.sender = s.mOperator) 6

/-- `m_total_supply`. -/
def totalSupplyIn (s : ERC7943Min A) : Call A → Exec U256
  | .mint _ amount => add s.mTotalSupply amount
  | .burn amount => sub s.mTotalSupply amount
  | _ => .ok s.mTotalSupply

/-- `m_balances`. -/
def balancesIn (s : ERC7943Min A) (c : Ctx A) : Call A → Exec (A → U256)
  | .transfer toAddr amount => move s.mBalances c.sender toAddr amount
  | .transferFrom fromAddr toAddr amount => move s.mBalances fromAddr toAddr amount
  | .forcedTransfer fromAddr toAddr amount => move s.mBalances fromAddr toAddr amount
  | .mint toAddr amount => credit s.mBalances toAddr amount
  | .burn amount => debit s.mBalances c.sender amount
  | _ => .ok s.mBalances

/-- `m_allowances`. -/
def allowancesIn (s : ERC7943Min A) (c : Ctx A) : Call A → Exec (U256 → U256)
  | .approve spender amount =>
    .ok (Function.update s.mAllowances (h.hashOf (.allowance c.sender spender)) amount)
  | .transferFrom fromAddr _ amount => do
    let rest ← allowanceAfterSpend (allowanceOf h s.mAllowances fromAddr c.sender) amount
    return Function.update s.mAllowances (h.hashOf (.allowance fromAddr c.sender)) rest
  | _ => .ok s.mAllowances

/-- `m_frozen`. -/
def frozenIn (s : ERC7943Min A) : Call A → A → U256
  | .setFrozenTokens account amount => Function.update s.mFrozen account amount
  | _ => s.mFrozen

/-- `m_send_blocked`. -/
def sendBlockedIn (s : ERC7943Min A) : Call A → A → Bool
  | .setSendBlocked account blocked => Function.update s.mSendBlocked account blocked
  | _ => s.mSendBlocked

/-- `m_recv_blocked`. -/
def recvBlockedIn (s : ERC7943Min A) : Call A → A → Bool
  | .setReceiveBlocked account blocked => Function.update s.mRecvBlocked account blocked
  | _ => s.mRecvBlocked

/-- A call: the guards, then every member from the state before. -/
def call (s : ERC7943Min A) (c : Ctx A) (k : Call A) : Exec (ERC7943Min A) := do
  guard h s c k
  let supply ← totalSupplyIn s k
  let balances ← balancesIn s c k
  let allowances ← allowancesIn h s c k
  return { s with
    mTotalSupply := supply, mBalances := balances, mAllowances := allowances,
    mFrozen := frozenIn s k, mSendBlocked := sendBlockedIn s k, mRecvBlocked := recvBlockedIn s k }

end ERC7943Min

/-! ### `ERC7943` -/

/-- The members of `ERC7943`: those of `ERC7943Min` and its own. -/
structure ERC7943 (A : Type) extends ERC7943Min A where
  mName : String
  mSymbol : String
  mDecimals : BitVec 8
  mHashedName : U256
  mHashedVersion : U256
  mNonces : A → U256
  mHolders : U256

namespace ERC7943

/-- The arguments of the constructor. -/
structure Args (A : Type) extends ERC7943Min.Args A where
  name : String
  symbol : String
  decimals : BitVec 8

/-- The routes that write: those of `ERC7943Min` and `permit`. -/
inductive Call (A : Type)
  | base (k : ERC7943Min.Call A)
  | permit (owner spender : A) (value deadline : U256) (v : BitVec 8) (r s : U256)

variable {A : Type} [DecidableEq A] [Zero A] (h : Host A)

/-- `constructor`. -/
def deploy (a : Args A) : ERC7943 A where
  toERC7943Min := ERC7943Min.deploy a.toArgs
  mName := a.name
  mSymbol := a.symbol
  mDecimals := a.decimals
  mHashedName := h.keccak256Packed (.text a.name)
  mHashedVersion := h.keccak256Packed (.text "1")
  mNonces := fun _ => 0#256
  mHolders := if 0#256 < a.initialSupply then 1#256 else 0#256

/-- The `where` of each route. -/
def guard (s : ERC7943 A) (c : Ctx A) : Call A → Exec Unit
  | .base k => ERC7943Min.guard h s.toERC7943Min c k
  | .permit owner spender value deadline v r sig =>
    permitGuard h s.mHashedName s.mHashedVersion s.mNonces c owner spender value deadline v r sig

/-- `m_total_supply`. -/
def totalSupplyIn (s : ERC7943 A) : Call A → Exec U256
  | .base k => ERC7943Min.totalSupplyIn s.toERC7943Min k
  | .permit .. => .ok s.mTotalSupply

/-- `m_balances`. -/
def balancesIn (s : ERC7943 A) (c : Ctx A) : Call A → Exec (A → U256)
  | .base k => ERC7943Min.balancesIn s.toERC7943Min c k
  | .permit .. => .ok s.mBalances

/-- `m_allowances`. -/
def allowancesIn (s : ERC7943 A) (c : Ctx A) : Call A → Exec (U256 → U256)
  | .base k => ERC7943Min.allowancesIn h s.toERC7943Min c k
  | .permit owner spender value _ _ _ _ =>
    .ok (Function.update s.mAllowances (h.hashOf (.allowance owner spender)) value)

/-- `m_nonces`. -/
def noncesIn (s : ERC7943 A) : Call A → Exec (A → U256)
  | .permit owner _ _ _ _ _ _ => do
    let next ← add (nonceOf s.mNonces owner) 1#256
    return Function.update s.mNonces owner next
  | _ => .ok s.mNonces

/-- `m_frozen`. -/
def frozenIn (s : ERC7943 A) : Call A → Exec (A → U256)
  | .base (.forcedTransfer fromAddr toAddr amount) =>
    if toAddr = fromAddr then .ok s.mFrozen
    else do
      let remaining ← sub (balanceOf s.mBalances fromAddr) amount
      if remaining < frozenOf s.mFrozen fromAddr then
        return Function.update s.mFrozen fromAddr remaining
      else return s.mFrozen
  | .base k => .ok (ERC7943Min.frozenIn s.toERC7943Min k)
  | .permit .. => .ok s.mFrozen

/-- The clause of `m_holders` that `transfer`, `transferFrom` and `forcedTransfer` share. -/
def holdersMove (s : ERC7943 A) (fromAddr toAddr : A) (amount : U256) : Exec U256 :=
  if toAddr = fromAddr then .ok s.mHolders
  else holdersAfterMove s.mHolders (balanceOf s.mBalances fromAddr)
    (balanceOf s.mBalances toAddr) amount

/-- `m_holders`. -/
def holdersIn (s : ERC7943 A) (c : Ctx A) : Call A → Exec U256
  | .base (.transfer toAddr amount) => holdersMove s c.sender toAddr amount
  | .base (.transferFrom fromAddr toAddr amount) => holdersMove s fromAddr toAddr amount
  | .base (.forcedTransfer fromAddr toAddr amount) => holdersMove s fromAddr toAddr amount
  | .base (.mint toAddr _) =>
    if balanceOf s.mBalances toAddr = 0#256 then add s.mHolders 1#256 else .ok s.mHolders
  | .base (.burn amount) =>
    if balanceOf s.mBalances c.sender = amount then sub s.mHolders 1#256 else .ok s.mHolders
  | _ => .ok s.mHolders

/-- The send and receive blocks, which only the routes of `ERC7943Min` write. -/
def sendBlockedIn (s : ERC7943 A) : Call A → A → Bool
  | .base k => ERC7943Min.sendBlockedIn s.toERC7943Min k
  | .permit .. => s.mSendBlocked

def recvBlockedIn (s : ERC7943 A) : Call A → A → Bool
  | .base k => ERC7943Min.recvBlockedIn s.toERC7943Min k
  | .permit .. => s.mRecvBlocked

/-- A call: the guards, then every member from the state before. -/
def call (s : ERC7943 A) (c : Ctx A) (k : Call A) : Exec (ERC7943 A) := do
  guard h s c k
  let supply ← totalSupplyIn s k
  let balances ← balancesIn s c k
  let allowances ← allowancesIn h s c k
  let nonces ← noncesIn s k
  let frozen ← frozenIn s k
  let holders ← holdersIn s c k
  return { s with
    mTotalSupply := supply, mBalances := balances, mAllowances := allowances, mNonces := nonces,
    mFrozen := frozen, mSendBlocked := sendBlockedIn s k, mRecvBlocked := recvBlockedIn s k,
    mHolders := holders }

end ERC7943

/-! ### What a call does -/

namespace ERC7943Min

variable {A : Type} [DecidableEq A] [Zero A] {h : Host A} {s s' : ERC7943Min A} {c : Ctx A}
variable {k : Call A}

/-- The effect of a call on the ledger. -/
def effect (c : Ctx A) : Call A → Effect A 256
  | .transfer toAddr amount => .move c.sender toAddr amount
  | .transferFrom fromAddr toAddr amount => .move fromAddr toAddr amount
  | .forcedTransfer fromAddr toAddr amount => .move fromAddr toAddr amount
  | .mint toAddr amount => .issue toAddr amount
  | .burn amount => .retire c.sender amount
  | _ => .keep

omit [DecidableEq A] [Zero A] in
theorem totalSupplyIn_eq (s : ERC7943Min A) (c : Ctx A) (k : Call A) :
    totalSupplyIn s k = (effect c k).supply s.mTotalSupply := by
  cases k <;> rfl

omit [Zero A] in
theorem balancesIn_eq (s : ERC7943Min A) (c : Ctx A) (k : Call A) :
    balancesIn s c k = (effect c k).balances s.mBalances := by
  cases k <;> rfl

omit [DecidableEq A] [Zero A] in
/-- What is unfrozen is held. -/
theorem le_balance_of_le_unfrozen {frozen balances : A → U256} {account : A} {amount u : U256}
    (hu : unfrozenOf frozen balances account = .ok u) (hle : amount ≤ u) :
    amount ≤ balances account := by
  have huv := unfrozenOf_eq_ok.mp hu
  rw [BitVec.le_def] at hle ⊢
  omega

/-- The guards cover the debit of every call. -/
theorem covered_of_guard (hg : guard h s c k = .ok ()) : (effect c k).Covered s.mBalances := by
  cases k with
  | transfer toAddr amount =>
    simp only [guard, bind_eq_ok, require_eq_ok] at hg
    obtain ⟨-, -, -, -, -, -, -, -, u, hu, hle⟩ := hg
    exact le_balance_of_le_unfrozen hu hle
  | transferFrom fromAddr toAddr amount =>
    simp only [guard, bind_eq_ok, require_eq_ok] at hg
    obtain ⟨-, -, -, -, -, -, -, -, u, hu, -, hle, -⟩ := hg
    exact le_balance_of_le_unfrozen hu hle
  | forcedTransfer fromAddr toAddr amount =>
    simp only [guard, bind_eq_ok, require_eq_ok] at hg
    obtain ⟨-, -, -, -, -, -, hle⟩ := hg
    exact hle
  | burn amount =>
    simp only [guard, bind_eq_ok, require_eq_ok] at hg
    obtain ⟨-, -, -, -, u, hu, hle⟩ := hg
    exact le_balance_of_le_unfrozen hu hle
  | mint toAddr amount => trivial
  | approve spender amount => trivial
  | setFrozenTokens account amount => trivial
  | setSendBlocked account blocked => trivial
  | setReceiveBlocked account blocked => trivial

/-- A call that returns passed its guards and wrote each member once. -/
theorem call_eq_ok : call h s c k = .ok s' ↔
    guard h s c k = .ok () ∧ ∃ supply balances allowances,
      totalSupplyIn s k = .ok supply ∧ balancesIn s c k = .ok balances ∧
        allowancesIn h s c k = .ok allowances ∧
          s' = { s with
            mTotalSupply := supply, mBalances := balances, mAllowances := allowances,
            mFrozen := frozenIn s k, mSendBlocked := sendBlockedIn s k,
            mRecvBlocked := recvBlockedIn s k } := by
  simp only [call, bind_eq_ok, pure_eq_ok, Except.ok.injEq, eq_comm (a := s')]
  constructor
  · rintro ⟨⟨⟩, hg, supply, hS, balances, hB, allowances, hA, heq⟩
    exact ⟨hg, supply, balances, allowances, hS, hB, hA, heq⟩
  · rintro ⟨hg, supply, balances, allowances, hS, hB, hA, heq⟩
    exact ⟨(), hg, supply, hS, balances, hB, allowances, hA, heq⟩

end ERC7943Min

namespace ERC7943

variable {A : Type} [DecidableEq A] [Zero A] {h : Host A} {s s' : ERC7943 A} {c : Ctx A}
variable {k : Call A}

/-- The effect of a call on the ledger. -/
def effect (c : Ctx A) : Call A → Effect A 256
  | .base k => ERC7943Min.effect c k
  | .permit .. => .keep

omit [DecidableEq A] [Zero A] in
theorem totalSupplyIn_eq (s : ERC7943 A) (c : Ctx A) (k : Call A) :
    totalSupplyIn s k = (effect c k).supply s.mTotalSupply := by
  cases k with
  | base k => exact ERC7943Min.totalSupplyIn_eq _ _ _
  | permit => rfl

omit [Zero A] in
theorem balancesIn_eq (s : ERC7943 A) (c : Ctx A) (k : Call A) :
    balancesIn s c k = (effect c k).balances s.mBalances := by
  cases k with
  | base k => exact ERC7943Min.balancesIn_eq _ _ _
  | permit => rfl

theorem covered_of_guard (hg : guard h s c k = .ok ()) : (effect c k).Covered s.mBalances := by
  cases k with
  | base k => exact ERC7943Min.covered_of_guard hg
  | permit => trivial

/-- A call that returns passed its guards and wrote each member once. -/
theorem call_eq_ok : call h s c k = .ok s' ↔
    guard h s c k = .ok () ∧ ∃ supply balances allowances nonces frozen holders,
      totalSupplyIn s k = .ok supply ∧ balancesIn s c k = .ok balances ∧
        allowancesIn h s c k = .ok allowances ∧ noncesIn s k = .ok nonces ∧
          frozenIn s k = .ok frozen ∧ holdersIn s c k = .ok holders ∧
            s' = { s with
              mTotalSupply := supply, mBalances := balances, mAllowances := allowances,
              mNonces := nonces, mFrozen := frozen, mSendBlocked := sendBlockedIn s k,
              mRecvBlocked := recvBlockedIn s k, mHolders := holders } := by
  simp only [call, bind_eq_ok, pure_eq_ok, Except.ok.injEq, eq_comm (a := s')]
  constructor
  · rintro ⟨⟨⟩, hg, supply, hS, balances, hB, allowances, hA, nonces, hN, frozen, hF, holders, hH,
      heq⟩
    exact ⟨hg, supply, balances, allowances, nonces, frozen, holders, hS, hB, hA, hN, hF, hH, heq⟩
  · rintro ⟨hg, supply, balances, allowances, nonces, frozen, holders, hS, hB, hA, hN, hF, hH, heq⟩
    exact ⟨(), hg, supply, hS, balances, hB, allowances, hA, nonces, hN, frozen, hF, holders, hH,
      heq⟩

end ERC7943

end CambrianLang.Stdlib
