/-
  **`canTransfer` and the transfers** (`stdlib/token/ERC7943.cam`,
  `stdlib/token/ERC7943Min.cam`).

  The view asks the three rules in one expression; the routes ask them one by one, after the
  amount and the recipient, and `transferFrom` asks for its allowance last.  What is left
  behind the guards is arithmetic, and the ledger keeps it in range: the supply is the sum of
  the balances, and there are fewer accounts than a holder count can hold.
-/
import CambrianLang.Stdlib.Token.Conservation
import CambrianLang.Stdlib.Token.Freeze

namespace CambrianLang.Stdlib

open Trapping Ledger

section Rules

variable {A : Type}

/-- The code of the first rule that a transfer breaks. -/
def firstBroken (sendBlocked recvBlocked : A → Bool) (frozen balances : A → U256)
    (src dst : A) (amount : U256) : Option Nat :=
  if !sendAllowed sendBlocked src then some 8
  else if !receiveAllowed recvBlocked dst then some 9
  else if (balances src).toNat - (frozen src).toNat < amount.toNat then some 10
  else none

/-- What is done behind the rules. -/
def behindRules {β : Type} (broken : Option Nat) (m : Exec β) : Exec β :=
  match broken with
  | some code => .error (.thrown code)
  | none => m

theorem behindRules_some {β : Type} {o : Option Nat} {code : Nat} {m : Exec β}
    (h : o = some code) : behindRules o m = .error (.thrown code) := by
  rw [h, behindRules]

theorem behindRules_none {β : Type} {o : Option Nat} {m : Exec β} (h : o = none) :
    behindRules o m = m := by
  rw [h, behindRules]

variable {sendBlocked recvBlocked : A → Bool} {frozen balances : A → U256}
variable {src dst : A} {amount u : U256}

theorem firstBroken_range {code : Nat}
    (h : firstBroken sendBlocked recvBlocked frozen balances src dst amount = some code) :
    code = 8 ∨ code = 9 ∨ code = 10 := by
  unfold firstBroken at h
  split at h
  · cases h
    exact Or.inl rfl
  · split at h
    · cases h
      exact Or.inr (Or.inl rfl)
    · split at h
      · cases h
        exact Or.inr (Or.inr rfl)
      · cases h

theorem le_unfrozen_iff (hu : unfrozenOf frozen balances src = .ok u) :
    amount ≤ u ↔ ¬ (balances src).toNat - (frozen src).toNat < amount.toNat := by
  rw [BitVec.le_def, unfrozenOf_eq_ok.mp hu, Nat.not_lt]

/-- The view says whether a rule is broken. -/
theorem transferAllowed_eq :
    transferAllowed sendBlocked recvBlocked frozen balances src dst amount =
      .ok (firstBroken sendBlocked recvBlocked frozen balances src dst amount).isNone := by
  obtain ⟨u, hu, -⟩ := unfrozenOf_eq frozen balances src
  rw [transferAllowed, hu, ok_bind, pure_eq_ok, Except.ok.injEq]
  simp only [firstBroken, le_unfrozen_iff hu]
  cases sendAllowed sendBlocked src
  · rfl
  · cases receiveAllowed recvBlocked dst
    · rfl
    · by_cases hlt : (balances src).toNat - (frozen src).toNat < amount.toNat
      · simp [hlt]
      · simp [hlt]

/-- The guards of a transfer that ask the rules, whatever comes after them. -/
theorem guards_eq {β : Type} (rest : Exec β) :
    (do
      require (sendAllowed sendBlocked src) 8
      require (receiveAllowed recvBlocked dst) 9
      let unfrozen ← unfrozenOf frozen balances src
      require (amount ≤ unfrozen) 10
      rest) =
      behindRules (firstBroken sendBlocked recvBlocked frozen balances src dst amount) rest := by
  obtain ⟨u, hu, -⟩ := unfrozenOf_eq frozen balances src
  simp only [hu, ok_bind, firstBroken, le_unfrozen_iff hu]
  cases hs : sendAllowed sendBlocked src
  · simp [require, behindRules]
  · cases hr : receiveAllowed recvBlocked dst
    · simp [require, behindRules]
    · by_cases hlt : (balances src).toNat - (frozen src).toNat < amount.toNat
      · simp [require, behindRules, hlt]
      · simp [require, behindRules, hlt]

/-- The view, the two routes and the allowance of a token in one state. -/
structure Transfers (A S : Type) where
  broken : A → A → U256 → Option Nat
  canTransfer : A → A → U256 → Exec Bool
  transfer : Ctx A → A → U256 → Exec S
  transferFrom : Ctx A → A → A → U256 → Exec S
  allowance : A → A → U256

variable {S : Type}

/-- The view is true exactly when the holder's transfer succeeds, and exactly when the
    transfer of a spender with the allowance succeeds; else both throw the code of the first
    rule that is broken. -/
def Transfers.Agree [Zero A] (T : Transfers A S) : Prop :=
  ∀ src dst amount, 0#256 < amount → dst ≠ zeroAddress →
    ∃ allowed, T.canTransfer src dst amount = .ok allowed ∧
      (∀ c, c.sender = src → (allowed = true ↔ ∃ s', T.transfer c dst amount = .ok s')) ∧
      (∀ c, amount ≤ T.allowance src c.sender →
        (allowed = true ↔ ∃ s', T.transferFrom c src dst amount = .ok s')) ∧
      (allowed = false → ∃ code, (code = 8 ∨ code = 9 ∨ code = 10) ∧
        T.broken src dst amount = some code ∧
        (∀ c, c.sender = src → T.transfer c dst amount = .error (.thrown code)) ∧
        ∀ c, T.transferFrom c src dst amount = .error (.thrown code))

/-- What a call does that asks the rules first and cannot fail behind them. -/
def Follows (broken : Option Nat) (m : Exec S) : Prop :=
  (∀ code, broken = some code → m = .error (.thrown code)) ∧ (broken = none → ∃ s', m = .ok s')

theorem Follows.isOk_iff {o : Option Nat} {m : Exec S} (hm : Follows o m) :
    o.isNone = true ↔ ∃ s', m = .ok s' := by
  cases o with
  | none => simpa using hm.2 rfl
  | some code => simp [hm.1 code rfl]

/-- Two routes that ask the rules of the view first agree with it. -/
theorem Transfers.agree_of_follows [Zero A] {T : Transfers A S}
    (hrange : ∀ src dst amount code, T.broken src dst amount = some code →
      code = 8 ∨ code = 9 ∨ code = 10)
    (hview : ∀ src dst amount,
      T.canTransfer src dst amount = .ok (T.broken src dst amount).isNone)
    (htransfer : ∀ c dst amount, 0#256 < amount → dst ≠ zeroAddress →
      Follows (T.broken c.sender dst amount) (T.transfer c dst amount))
    (hcode : ∀ c src dst amount code, 0#256 < amount → dst ≠ zeroAddress →
      T.broken src dst amount = some code → T.transferFrom c src dst amount = .error (.thrown code))
    (hspender : ∀ c src dst amount, 0#256 < amount → dst ≠ zeroAddress →
      amount ≤ T.allowance src c.sender → T.broken src dst amount = none →
        ∃ s', T.transferFrom c src dst amount = .ok s') :
    T.Agree := by
  intro src dst amount hpos hdst
  refine ⟨_, hview src dst amount, ?_, ?_, ?_⟩
  · rintro c rfl
    exact (htransfer c dst amount hpos hdst).isOk_iff
  · intro c hle
    exact Follows.isOk_iff ⟨fun code hb => hcode c src dst amount code hpos hdst hb,
      hspender c src dst amount hpos hdst hle⟩
  · intro hfalse
    obtain ⟨code, hb⟩ := Option.isSome_iff_exists.mp (by simpa using hfalse)
    refine ⟨code, hrange _ _ _ _ hb, hb, ?_, ?_⟩
    · rintro c rfl
      exact (htransfer c dst amount hpos hdst).1 code hb
    · intro c
      exact hcode c src dst amount code hpos hdst hb

end Rules

theorem bind_done (m : Exec Unit) : (m >>= fun _ => .ok ()) = m := by
  cases m <;> rfl

/-- An allowance that covers the amount can be spent. -/
theorem allowanceAfterSpend_of_le {current amount : U256} (hle : amount ≤ current) :
    ∃ rest, allowanceAfterSpend current amount = .ok rest := by
  by_cases hmax : current = maxU256
  · exact ⟨current, allowanceAfterSpend_eq_ok.mpr (Or.inl ⟨hmax, rfl⟩)⟩
  · exact ⟨current - amount,
      allowanceAfterSpend_eq_ok.mpr (Or.inr ⟨hmax, toNat_sub_add (BitVec.le_def.mp hle)⟩)⟩

/-! ### The minimal token -/

namespace ERC7943Min

variable {A : Type} [DecidableEq A] [Zero A] (h : Host A) (s : ERC7943Min A)

/-- `canTransfer`. -/
def canTransfer (fromAddr toAddr : A) (amount : U256) : Exec Bool :=
  transferAllowed s.mSendBlocked s.mRecvBlocked s.mFrozen s.mBalances fromAddr toAddr amount

/-- The first rule of this token that a transfer breaks. -/
def broken (src dst : A) (amount : U256) : Option Nat :=
  firstBroken s.mSendBlocked s.mRecvBlocked s.mFrozen s.mBalances src dst amount

def transferRules : Transfers A (ERC7943Min A) where
  broken := broken s
  canTransfer := canTransfer s
  transfer c toAddr amount := call h s c (.transfer toAddr amount)
  transferFrom c fromAddr toAddr amount := call h s c (.transferFrom fromAddr toAddr amount)
  allowance := allowanceOf h s.mAllowances

variable {h s} {c : Ctx A} {src dst : A} {amount : U256}

theorem guard_transfer (hpos : 0#256 < amount) (hdst : dst ≠ zeroAddress) :
    guard h s c (.transfer dst amount) = behindRules (broken s c.sender dst amount) (.ok ()) := by
  rw [broken, ← guards_eq]
  simp only [guard, require_of hpos, require_of hdst, ok_bind, bind_done]

theorem guard_transferFrom (hpos : 0#256 < amount) (hdst : dst ≠ zeroAddress) :
    guard h s c (.transferFrom src dst amount) = behindRules (broken s src dst amount)
      (require (amount ≤ allowanceOf h s.mAllowances src c.sender) 3) := by
  rw [broken, ← guards_eq]
  simp only [guard, require_of hpos, require_of hdst, ok_bind]

theorem guard_transfer_broken (hpos : 0#256 < amount) (hdst : dst ≠ zeroAddress) {code : Nat}
    (hb : broken s c.sender dst amount = some code) :
    guard h s c (.transfer dst amount) = .error (.thrown code) := by
  rw [guard_transfer hpos hdst, behindRules_some hb]

theorem guard_transferFrom_broken (hpos : 0#256 < amount) (hdst : dst ≠ zeroAddress) {code : Nat}
    (hb : broken s src dst amount = some code) :
    guard h s c (.transferFrom src dst amount) = .error (.thrown code) := by
  rw [guard_transferFrom hpos hdst, behindRules_some hb]

theorem guard_transfer_clear (hpos : 0#256 < amount) (hdst : dst ≠ zeroAddress)
    (hb : broken s c.sender dst amount = none) : guard h s c (.transfer dst amount) = .ok () := by
  rw [guard_transfer hpos hdst, behindRules_none hb]

theorem guard_transferFrom_clear (hpos : 0#256 < amount) (hdst : dst ≠ zeroAddress)
    (hb : broken s src dst amount = none)
    (hle : amount ≤ allowanceOf h s.mAllowances src c.sender) :
    guard h s c (.transferFrom src dst amount) = .ok () := by
  rw [guard_transferFrom hpos hdst, behindRules_none hb, require_of hle]

theorem call_of_guard_error {k : Call A} {e : Revert} (hg : guard h s c k = .error e) :
    call h s c k = .error e := by
  rw [call, hg, error_bind]

/-- The call is one of the routes `transfer` and `transferFrom`. -/
def Call.isTransfer : Call A → Bool
  | .transfer .. => true
  | .transferFrom .. => true
  | _ => false

omit [DecidableEq A] [Zero A] in
theorem issued_of_isTransfer {k : Call A} (hk : k.isTransfer = true) :
    (effect c k).issued = 0 := by
  cases k with
  | transfer => rfl
  | transferFrom => rfl
  | _ => cases hk

/-- What `transferFrom` spends, its guard asked for. -/
theorem allowancesIn_of_guard {k : Call A} (hk : k.isTransfer = true)
    (hg : guard h s c k = .ok ()) : ∃ a, allowancesIn h s c k = .ok a := by
  cases k with
  | transfer => exact ⟨_, rfl⟩
  | transferFrom src dst amount =>
    simp only [guard, bind_eq_ok, require_eq_ok] at hg
    obtain ⟨-, -, -, -, -, -, -, -, u, -, -, -, hle⟩ := hg
    obtain ⟨rest, hrest⟩ := allowanceAfterSpend_of_le hle
    exact ⟨_, by rw [allowancesIn, hrest, ok_bind, pure_eq_ok]⟩
  | _ => cases hk

/-- The supply, the balances and the allowances behind the guards of a transfer. -/
theorem ledger_of_guard [Fintype A] (hsum : s.mTotalSupply.toNat = total s.mBalances)
    {k : Call A} (hk : k.isTransfer = true) (hg : guard h s c k = .ok ()) :
    ∃ S b a, totalSupplyIn s k = .ok S ∧ balancesIn s c k = .ok b ∧
      allowancesIn h s c k = .ok a := by
  have hcov := covered_of_guard hg
  obtain ⟨S, hS⟩ := Effect.supply_isOk hsum hcov (issued_of_isTransfer hk)
  obtain ⟨b, hB⟩ := Effect.balances_isOk hsum hcov hS
  obtain ⟨a, hA⟩ := allowancesIn_of_guard hk hg
  rw [← totalSupplyIn_eq] at hS
  rw [← balancesIn_eq] at hB
  exact ⟨S, b, a, hS, hB, hA⟩

/-- **No transform behind the guards of a transfer traps.** -/
theorem returns_of_guard [Fintype A] (hsum : s.mTotalSupply.toNat = total s.mBalances)
    {k : Call A} (hk : k.isTransfer = true) (hg : guard h s c k = .ok ()) :
    ∃ s', call h s c k = .ok s' := by
  obtain ⟨S, b, a, hS, hB, hA⟩ := ledger_of_guard hsum hk hg
  exact ⟨_, call_eq_ok.mpr ⟨hg, S, b, a, hS, hB, hA, rfl⟩⟩

/-- When the ledger is conserved, the view and the transfers agree. -/
theorem transfers_agree [Fintype A] (hsum : s.mTotalSupply.toNat = total s.mBalances) :
    (transferRules h s).Agree := by
  apply Transfers.agree_of_follows
  · intro src dst amount code hb
    exact firstBroken_range hb
  · intro src dst amount
    exact transferAllowed_eq
  · intro c dst amount hpos hdst
    constructor
    · intro code hb
      exact call_of_guard_error (guard_transfer_broken hpos hdst hb)
    · intro hb
      exact returns_of_guard hsum rfl (guard_transfer_clear hpos hdst hb)
  · intro c src dst amount code hpos hdst hb
    exact call_of_guard_error (guard_transferFrom_broken hpos hdst hb)
  · intro c src dst amount hpos hdst hle hb
    exact returns_of_guard hsum rfl (guard_transferFrom_clear hpos hdst hb hle)

end ERC7943Min

/-! ### The token with the accounting layer -/

namespace ERC7943

variable {A : Type} [DecidableEq A] [Zero A] (h : Host A) (s : ERC7943 A)

/-- `canTransfer`, the same expression as in `ERC7943Min`. -/
def canTransfer (fromAddr toAddr : A) (amount : U256) : Exec Bool :=
  transferAllowed s.mSendBlocked s.mRecvBlocked s.mFrozen s.mBalances fromAddr toAddr amount

def transferRules : Transfers A (ERC7943 A) where
  broken := ERC7943Min.broken s.toERC7943Min
  canTransfer := canTransfer s
  transfer c toAddr amount := call h s c (.base (.transfer toAddr amount))
  transferFrom c fromAddr toAddr amount := call h s c (.base (.transferFrom fromAddr toAddr amount))
  allowance := allowanceOf h s.mAllowances

variable {h s} {c : Ctx A} {src dst : A} {amount : U256}

def Call.isTransfer : Call A → Bool
  | .base k => k.isTransfer
  | .permit .. => false

omit [Zero A] in
/-- The holder count has room for one more: it counts accounts, and they are fewer than words. -/
theorem holdersMove_isOk [Fintype A] (hcard : Fintype.card A < 2 ^ 256 - 1)
    (hcount : s.mHolders.toNat = holders s.mBalances) (hpos : 0 < amount.toNat)
    (hle : amount ≤ s.mBalances src) : ∃ n, holdersMove s src dst amount = .ok n := by
  unfold holdersMove holdersAfterMove
  split
  · exact ⟨_, rfl⟩
  · have hroom : s.mHolders.toNat < 2 ^ 256 - 1 := by
      rw [hcount]
      exact lt_of_le_of_lt (Finset.card_le_univ _) hcard
    have hadd : s.mHolders.toNat + (if balanceOf s.mBalances dst = 0#256 then 1#256 else 0#256 :
        U256).toNat < 2 ^ 256 := by
      rw [toNat_flag]
      split <;> omega
    refine ⟨_, bind_eq_ok.mpr ⟨_, add_of_lt hadd, sub_of_le ?_⟩⟩
    rw [toNat_flag, BitVec.toNat_add_of_lt hadd]
    split
    · -- the payer is about to empty, so it is one of those counted
      next hall =>
      have hone : 0 < holders s.mBalances := by
        apply Finset.card_pos.mpr
        refine ⟨src, Finset.mem_filter.mpr ⟨Finset.mem_univ _, ?_⟩⟩
        intro h0
        rw [BitVec.le_def, h0] at hle
        simp at hle
        omega
      omega
    · omega

/-- **No transform behind the guards of a transfer traps**, the holder count included. -/
theorem returns_of_guard [Fintype A] (hcard : Fintype.card A < 2 ^ 256 - 1)
    (hsum : s.mTotalSupply.toNat = total s.mBalances)
    (hcount : s.mHolders.toNat = holders s.mBalances) {k : Call A} (hk : k.isTransfer = true)
    (hg : guard h s c k = .ok ()) : ∃ s', call h s c k = .ok s' := by
  cases k with
  | permit => cases hk
  | base k =>
    obtain ⟨S, b, a, hS, hB, hA⟩ := ERC7943Min.ledger_of_guard hsum hk hg
    have hcov := ERC7943Min.covered_of_guard hg
    have hpos := amount_pos hg
    have hH : ∃ n, holdersIn s c (.base k) = .ok n := by
      cases k with
      | transfer dst amount => exact holdersMove_isOk hcard hcount hpos hcov
      | transferFrom src dst amount => exact holdersMove_isOk hcard hcount hpos hcov
      | _ => cases hk
    have hF : ∃ f, frozenIn s (.base k) = .ok f := by
      cases k with
      | transfer => exact ⟨_, rfl⟩
      | transferFrom => exact ⟨_, rfl⟩
      | _ => cases hk
    obtain ⟨n, hn⟩ := hH
    obtain ⟨f, hf⟩ := hF
    exact ⟨_, call_eq_ok.mpr ⟨hg, S, b, a, s.mNonces, f, n, hS, hB, hA, rfl, hf, hn, rfl⟩⟩

theorem call_of_guard_error {k : ERC7943Min.Call A} {e : Revert}
    (hg : ERC7943Min.guard h s.toERC7943Min c k = .error e) :
    call h s c (.base k) = .error e := by
  rw [call, show guard h s c (.base k) = .error e from hg, error_bind]

/-- When the ledger is conserved and the holders are counted, the view and the transfers
    agree. -/
theorem transfers_agree [Fintype A] (hcard : Fintype.card A < 2 ^ 256 - 1)
    (hsum : s.mTotalSupply.toNat = total s.mBalances)
    (hcount : s.mHolders.toNat = holders s.mBalances) : (transferRules h s).Agree := by
  apply Transfers.agree_of_follows
  · intro src dst amount code hb
    exact firstBroken_range hb
  · intro src dst amount
    exact transferAllowed_eq
  · intro c dst amount hpos hdst
    constructor
    · intro code hb
      exact call_of_guard_error (ERC7943Min.guard_transfer_broken hpos hdst hb)
    · intro hb
      exact returns_of_guard hcard hsum hcount rfl
        (ERC7943Min.guard_transfer_clear (h := h) hpos hdst hb)
  · intro c src dst amount code hpos hdst hb
    exact call_of_guard_error (ERC7943Min.guard_transferFrom_broken hpos hdst hb)
  · intro c src dst amount hpos hdst hle hb
    exact returns_of_guard hcard hsum hcount rfl
      (ERC7943Min.guard_transferFrom_clear hpos hdst hb hle)

end ERC7943

/-! ### Every reachable state -/

abbrev Address := BitVec 160

instance : Fintype Address :=
  Fintype.ofEquiv (Fin (2 ^ 160)) ⟨BitVec.ofFin, BitVec.toFin, fun _ => rfl, fun _ => rfl⟩

theorem card_address : Fintype.card Address = 2 ^ 160 := by
  rw [Fintype.ofEquiv_card, Fintype.card_fin]

/-- **The transfer check agrees with the transfers** in every reachable state of both
    tokens: `canTransfer` is true exactly when the holder's `transfer` succeeds and exactly
    when the `transferFrom` of a spender with the allowance does, and when it is false both
    throw the code of the first rule that is broken; and behind the guards of a transfer
    nothing traps. -/
theorem canTransfer_exact (h : Host Address) :
    (∀ (a : ERC7943Min.Args Address) (ms : List (Ctx Address × ERC7943Min.Call Address)),
      let s := run (fun s m => ERC7943Min.call h s m.1 m.2) (ERC7943Min.deploy a) ms
      (ERC7943Min.transferRules h s).Agree ∧
        ∀ c k, k.isTransfer = true → ERC7943Min.guard h s c k = .ok () →
          ∃ s', ERC7943Min.call h s c k = .ok s') ∧
    ∀ (a : ERC7943.Args Address) (ms : List (Ctx Address × ERC7943.Call Address)),
      let s := run (fun s m => ERC7943.call h s m.1 m.2) (ERC7943.deploy h a) ms
      (ERC7943.transferRules h s).Agree ∧
        ∀ c k, k.isTransfer = true → ERC7943.guard h s c k = .ok () →
          ∃ s', ERC7943.call h s c k = .ok s' := by
  constructor
  · intro a ms s
    have hsum : s.mTotalSupply.toNat = total s.mBalances :=
      TokenLedger.conserved (T := ERC7943Min.ledger h) a ms
    exact ⟨ERC7943Min.transfers_agree hsum, fun c k => ERC7943Min.returns_of_guard hsum⟩
  · intro a ms s
    have hcard : Fintype.card Address < 2 ^ 256 - 1 := by
      rw [card_address]
      omega
    have hsum : s.mTotalSupply.toNat = total s.mBalances :=
      TokenLedger.conserved (T := ERC7943.ledger h) a ms
    have hcount : s.mHolders.toNat = holders s.mBalances := ERC7943.holders_of_run h a ms
    exact ⟨ERC7943.transfers_agree hcard hsum hcount,
      fun c k => ERC7943.returns_of_guard hcard hsum hcount⟩

/-- A holder of five sends three. -/
theorem canTransfer_exact_fresh :
    let h : Host Address := ⟨fun _ => 0, fun _ => 0, fun _ _ _ _ => 0⟩
    let s : ERC7943Min Address := ERC7943Min.deploy ⟨0, 1, 5⟩
    ∃ s', ERC7943Min.call h s ⟨1, 0, 0, 0⟩ (.transfer 2 3) = .ok s' := by
  intro h s
  obtain ⟨allowed, hview, htransfer, -, -⟩ :=
    ((canTransfer_exact h).1 ⟨0, 1, 5⟩ []).1 1 2 3 (by decide) (by decide)
  have hyes : ERC7943Min.canTransfer s 1 2 3 = .ok true := by decide
  have hallowed : (.ok allowed : Exec Bool) = .ok true := hview.symm.trans hyes
  cases hallowed
  exact (htransfer ⟨1, 0, 0, 0⟩ rfl).mp rfl

end CambrianLang.Stdlib
