/-
  **The `Transfer` logs of the tokens and of the accounting vault.**

  The entities say an indexer is to recover balances from the log.  Every route
  emits the move it makes.  The constructors of the tokens emit nothing and yet
  give the initial supply to its holder, so for a token this is so exactly when
  it is deployed with an initial supply of zero; the vault issues nothing at
  construction.

  The vault emits for a withdrawal after the asset returned, so while the asset
  calls back the log is behind the shares.
-/
import CambrianLang.Lib.TransferLog
import CambrianLang.Stdlib.Token.Conservation
import CambrianLang.Stdlib.Vault.Reentrancy

namespace CambrianLang.Stdlib

open Trapping Ledger TransferLog NestedCalls
open History

section Emits

variable {A : Type} [Zero A]

/-! ### What the routes emit -/

/-- The `emit Transfer` of each route. -/
def ERC20.transfers (c : Ctx A) : ERC20.Call A → List (Transfer A 256)
  | .transfer toAddr amount => [⟨c.sender, toAddr, amount⟩]
  | .transferFrom fromAddr toAddr amount => [⟨fromAddr, toAddr, amount⟩]
  | .approve _ _ => []
  | .permit .. => []
  | .mint toAddr amount => [⟨zeroAddress, toAddr, amount⟩]
  | .burn amount => [⟨c.sender, zeroAddress, amount⟩]

def ERC7943Min.transfers (c : Ctx A) : ERC7943Min.Call A → List (Transfer A 256)
  | .transfer toAddr amount => [⟨c.sender, toAddr, amount⟩]
  | .transferFrom fromAddr toAddr amount => [⟨fromAddr, toAddr, amount⟩]
  | .approve _ _ => []
  | .mint toAddr amount => [⟨zeroAddress, toAddr, amount⟩]
  | .burn amount => [⟨c.sender, zeroAddress, amount⟩]
  | .forcedTransfer fromAddr toAddr amount => [⟨fromAddr, toAddr, amount⟩]
  | .setFrozenTokens _ _ => []
  | .setSendBlocked _ _ => []
  | .setReceiveBlocked _ _ => []

def ERC7943.transfers (c : Ctx A) : ERC7943.Call A → List (Transfer A 256)
  | .base k => ERC7943Min.transfers c k
  | .permit .. => []

def ERC4626Min.shareTransfers (c : Ctx A) : ShareCall A → List (Transfer A 256)
  | .transfer toAddr amount => [⟨c.sender, toAddr, amount⟩]
  | .transferFrom fromAddr toAddr amount => [⟨fromAddr, toAddr, amount⟩]
  | .approve _ _ => []

theorem ERC20.transfers_eq (c : Ctx A) (k : ERC20.Call A) :
    ERC20.transfers c k = entries (ERC20.effect c k) := by
  cases k <;> rfl

theorem ERC7943Min.transfers_eq (c : Ctx A) (k : ERC7943Min.Call A) :
    ERC7943Min.transfers c k = entries (ERC7943Min.effect c k) := by
  cases k <;> rfl

theorem ERC7943.transfers_eq (c : Ctx A) (k : ERC7943.Call A) :
    ERC7943.transfers c k = entries (ERC7943.effect c k) := by
  cases k with
  | base k => exact ERC7943Min.transfers_eq c k
  | permit => rfl

variable [DecidableEq A] {h : Host A} {c : Ctx A}

/-- The guards ask for a recipient and an amount. -/
theorem ERC20.proper_of_guard {s : ERC20 A} {k : ERC20.Call A}
    (hg : ERC20.guard h s c k = .ok ()) : Proper (ERC20.effect c k) := by
  cases k with
  | transfer toAddr amount =>
    simp only [guard, bind_eq_ok, require_eq_ok] at hg
    obtain ⟨-, hpos, -, hto, -⟩ := hg
    exact ⟨hto, hpos⟩
  | transferFrom fromAddr toAddr amount =>
    simp only [guard, bind_eq_ok, require_eq_ok] at hg
    obtain ⟨-, hpos, -, hto, -⟩ := hg
    exact ⟨hto, hpos⟩
  | mint toAddr amount =>
    simp only [guard, bind_eq_ok, require_eq_ok] at hg
    obtain ⟨-, -, -, hto, -⟩ := hg
    exact hto
  | burn amount =>
    simp only [guard, bind_eq_ok, require_eq_ok] at hg
    obtain ⟨-, hpos, -⟩ := hg
    exact hpos
  | approve spender amount => trivial
  | permit owner spender value deadline v r sig => trivial

theorem ERC7943Min.proper_of_guard {s : ERC7943Min A} {k : ERC7943Min.Call A}
    (hg : ERC7943Min.guard h s c k = .ok ()) : Proper (ERC7943Min.effect c k) := by
  cases k with
  | transfer toAddr amount =>
    simp only [guard, bind_eq_ok, require_eq_ok] at hg
    obtain ⟨-, hpos, -, hto, -⟩ := hg
    exact ⟨hto, hpos⟩
  | transferFrom fromAddr toAddr amount =>
    simp only [guard, bind_eq_ok, require_eq_ok] at hg
    obtain ⟨-, hpos, -, hto, -⟩ := hg
    exact ⟨hto, hpos⟩
  | forcedTransfer fromAddr toAddr amount =>
    simp only [guard, bind_eq_ok, require_eq_ok] at hg
    obtain ⟨-, -, -, hpos, -, hto, -⟩ := hg
    exact ⟨hto, hpos⟩
  | mint toAddr amount =>
    simp only [guard, bind_eq_ok, require_eq_ok] at hg
    obtain ⟨-, -, -, hto, -⟩ := hg
    exact hto
  | burn amount =>
    simp only [guard, bind_eq_ok, require_eq_ok] at hg
    obtain ⟨-, hpos, -⟩ := hg
    exact hpos
  | approve spender amount => trivial
  | setFrozenTokens account amount => trivial
  | setSendBlocked account blocked => trivial
  | setReceiveBlocked account blocked => trivial

theorem ERC7943.proper_of_guard {s : ERC7943 A} {k : ERC7943.Call A}
    (hg : ERC7943.guard h s c k = .ok ()) : Proper (ERC7943.effect c k) := by
  cases k with
  | base k => exact ERC7943Min.proper_of_guard hg
  | permit => trivial

end Emits

/-! ### Tokens -/

/-- A token, what its routes and its constructor emit, and what the constructor gives out. -/
structure LoggedLedger (A : Type) [Fintype A] [DecidableEq A] [Zero A] extends TokenLedger A where
  transfers : Ctx A → Call → List (Transfer A 256)
  constructorTransfers : Args → List (Transfer A 256)
  initialHolder : Args → A
  initialSupply : Args → U256
  transfers_eq : ∀ c k, transfers c k = entries (effect c k)
  constructorTransfers_eq : ∀ a, constructorTransfers a = []
  proper_of_guard : ∀ {s c k}, guard s c k = .ok () → Proper (effect c k)
  supply_deploy : ∀ a, supply (deploy a) = initialSupply a
  balances_deploy : ∀ a,
    balances (deploy a) = Function.update (fun _ => 0#256) (initialHolder a) (initialSupply a)

namespace LoggedLedger

variable {A : Type} [Fintype A] [DecidableEq A] [Zero A] (T : LoggedLedger A)

/-- What a run emits: the events of a call that reverts are lost with it. -/
def log (s : T.State) : List (Ctx A × T.Call) → List (Transfer A 256)
  | [] => []
  | m :: ms =>
    match T.call s m.1 m.2 with
    | .ok s' => T.transfers m.1 m.2 ++ log s' ms
    | .error _ => log s ms

/-- The log since deployment, replayed on an empty ledger, is the balances, and what it
    minted less what it burnt is the supply. -/
def Faithful (a : T.Args) (ms : List (Ctx A × T.Call)) : Prop :=
  let s := T.run (T.deploy a) ms
  let ts := T.constructorTransfers a ++ T.log (T.deploy a) ms
  replay ts (fun _ => 0) = some (fun x => (T.balances s x).toNat) ∧
    (minted ts : Int) - burnt ts = (T.supply s).toNat

variable {T} {s s' : T.State}

/-- The routes keep the log. -/
theorem accounts_of_call {c : Ctx A} {k : T.Call} (hzero : T.balances s 0 = 0#256)
    (hk : T.call s c k = .ok s') :
    Accounts (T.transfers c k) (T.balances s) (T.supply s) (T.balances s') (T.supply s') ∧
      T.balances s' 0 = 0#256 := by
  obtain ⟨hg, hS, hB⟩ := T.call_ok hk
  rw [T.supplyIn_eq] at hS
  rw [T.balancesIn_eq] at hB
  rw [T.transfers_eq]
  exact accounts_of_effect hzero (T.proper_of_guard hg) (T.covered_of_guard hg) hS hB

theorem accounts_of_run (ms : List (Ctx A × T.Call)) (hzero : T.balances s 0 = 0#256) :
    Accounts (T.log s ms) (T.balances s) (T.supply s) (T.balances (T.run s ms))
      (T.supply (T.run s ms)) := by
  induction ms generalizing s with
  | nil => exact .refl _ _
  | cons m ms ih =>
    change Accounts _ _ _ (T.balances (T.run (T.step s m) ms)) (T.supply (T.run (T.step s m) ms))
    rw [log]
    cases hk : T.call s m.1 m.2 with
    | ok s' =>
      have hstep : T.step s m = s' := step_of_ok hk
      obtain ⟨hcall, hzero'⟩ := accounts_of_call hzero hk
      rw [hstep]
      exact hcall.trans (ih hzero')
    | error e =>
      have hstep : T.step s m = s := step_of_error hk
      rw [hstep]
      exact ih hzero

/-- After a deployment without a supply nobody holds anything. -/
theorem balances_deploy_zero {a : T.Args} (ha : T.initialSupply a = 0#256) :
    T.balances (T.deploy a) = fun _ => 0#256 := by
  rw [T.balances_deploy, ha, Function.update_eq_self_iff]

theorem faithful_of_no_supply {a : T.Args} (ha : T.initialSupply a = 0#256)
    (ms : List (Ctx A × T.Call)) : T.Faithful a ms := by
  have hbal := balances_deploy_zero ha
  have hrun := accounts_of_run (s := T.deploy a) ms (by rw [hbal])
  rw [hbal, T.supply_deploy, ha] at hrun
  rw [Faithful, T.constructorTransfers_eq, List.nil_append]
  exact hrun.replay_eq

/-- The log never makes up for an initial supply that went to an account. -/
theorem no_supply_of_faithful {a : T.Args} {ms : List (Ctx A × T.Call)}
    (hholder : T.initialHolder a ≠ 0) (hf : T.Faithful a ms) : T.initialSupply a = 0#256 := by
  have hzero : T.balances (T.deploy a) 0 = 0#256 := by
    rw [T.balances_deploy, Function.update_of_ne (Ne.symm hholder)]
  have hrun := (accounts_of_run ms hzero).supply
  have hnet := hf.2
  rw [T.constructorTransfers_eq, List.nil_append] at hnet
  rw [T.supply_deploy] at hrun
  apply BitVec.eq_of_toNat_eq
  rw [BitVec.toNat_ofNat, Nat.zero_mod]
  omega

theorem no_supply_of_faithful_nil {a : T.Args} (hf : T.Faithful a []) :
    T.initialSupply a = 0#256 := by
  have hnet := hf.2
  rw [T.constructorTransfers_eq] at hnet
  have hsupply : (T.supply (T.deploy a)).toNat = 0 := by
    simpa [log, minted, burnt, TokenLedger.run] using hnet.symm
  rw [T.supply_deploy] at hsupply
  exact BitVec.eq_of_toNat_eq (by simpa using hsupply)

end LoggedLedger

section Tokens

variable {A : Type} [Fintype A] [DecidableEq A] [Zero A] (h : Host A)

def ERC20.logged : LoggedLedger A where
  toTokenLedger := ERC20.ledger h
  transfers := ERC20.transfers
  constructorTransfers _ := []
  initialHolder a := a.initialHolder
  initialSupply a := a.initialSupply
  transfers_eq := ERC20.transfers_eq
  constructorTransfers_eq _ := rfl
  proper_of_guard := ERC20.proper_of_guard
  supply_deploy _ := rfl
  balances_deploy _ := rfl

def ERC20Multi.logged : LoggedLedger A where
  toTokenLedger := ERC20Multi.ledger h
  transfers := ERC20.transfers
  constructorTransfers _ := []
  initialHolder a := a.2.initialHolder
  initialSupply a := a.2.initialSupply
  transfers_eq := ERC20.transfers_eq
  constructorTransfers_eq _ := rfl
  proper_of_guard := ERC20.proper_of_guard
  supply_deploy _ := rfl
  balances_deploy _ := rfl

def ERC7943.logged : LoggedLedger A where
  toTokenLedger := ERC7943.ledger h
  transfers := ERC7943.transfers
  constructorTransfers _ := []
  initialHolder a := a.initialHolder
  initialSupply a := a.initialSupply
  transfers_eq := ERC7943.transfers_eq
  constructorTransfers_eq _ := rfl
  proper_of_guard := ERC7943.proper_of_guard
  supply_deploy _ := rfl
  balances_deploy _ := rfl

def ERC7943Min.logged : LoggedLedger A where
  toTokenLedger := ERC7943Min.ledger h
  transfers := ERC7943Min.transfers
  constructorTransfers _ := []
  initialHolder a := a.initialHolder
  initialSupply a := a.initialSupply
  transfers_eq := ERC7943Min.transfers_eq
  constructorTransfers_eq _ := rfl
  proper_of_guard := ERC7943Min.proper_of_guard
  supply_deploy _ := rfl
  balances_deploy _ := rfl

def StdToken.logged : StdToken → LoggedLedger A
  | .erc20 => ERC20.logged h
  | .erc20Multi => ERC20Multi.logged h
  | .erc7943 => ERC7943.logged h
  | .erc7943Min => ERC7943Min.logged h

end Tokens

/-! ### The vault -/

namespace ERC4626

/-- The books of a vault, and the transfers it emitted that no revert undid. -/
structure Journal (A : Type) extends Books A where
  transfers : List (Transfer A 256)

section Routes

variable {A : Type} [DecidableEq A] [Zero A] (h : Host A)

def gainLogged (n : U256) (j : Journal A) : Journal A := { j with toBooks := gain n j.toBooks }

/-- The routes of `serve` with their `emit Transfer`: a deposit and a mint emit in the phase
    that issues, a withdrawal and a redemption in the phase after the asset returned. -/
def serveLogged (q : Request A) (inside after : Journal A → Journal A) (j : Journal A) :
    Exec (Journal A) :=
  match q.call with
  | .deposit _ receiver => do
    require (receiver ≠ zeroAddress) 20
    let j₁ := inside j
    let (s, issued) ← depositIssue j₁.vault receiver j.assets j₁.assets q.ok
    return { j₁ with
      vault := s, credited := j₁.credited + (j₁.assets.toNat - j.assets.toNat)
      log := j₁.log ++ [⟨j₁.vault, .issue q.ctx receiver issued, s⟩]
      transfers := j₁.transfers ++ [⟨zeroAddress, receiver, issued⟩] }
  | .mint shares receiver => do
    require (receiver ≠ zeroAddress) 20
    let cost ← mintCost j.vault shares j.assets
    let j₁ := inside j
    let s ← mintIssue j₁.vault receiver shares j.assets cost j₁.assets q.ok
    return { j₁ with
      vault := s, credited := j₁.credited + cost.toNat
      log := j₁.log ++ [⟨j₁.vault, .issue q.ctx receiver shares, s⟩]
      transfers := j₁.transfers ++ [⟨zeroAddress, receiver, shares⟩] }
  | .withdraw assets receiver owner => do
    require (receiver ≠ zeroAddress) 20
    require (owner ≠ zeroAddress) 20
    let (s, burnt) ← withdrawSettle h j.vault q.ctx assets owner j.assets
    let j₁ := inside { j with
      vault := s, log := j.log ++ [⟨j.vault, .burn q.ctx owner burnt, s⟩] }
    let left ← sendOut q.ctx receiver j₁.assets assets
    let j₂ := after { j₁ with assets := left }
    require (q.ok = true) 24
    return { j₂ with transfers := j₂.transfers ++ [⟨owner, zeroAddress, burnt⟩] }
  | .redeem shares receiver owner => do
    require (receiver ≠ zeroAddress) 20
    require (owner ≠ zeroAddress) 20
    let (s, payout) ← redeemSettle h j.vault q.ctx shares owner j.assets
    let j₁ := inside { j with
      vault := s, log := j.log ++ [⟨j.vault, .burn q.ctx owner shares, s⟩] }
    let left ← sendOut q.ctx receiver j₁.assets payout
    let j₂ := after { j₁ with assets := left }
    require (q.ok = true) 24
    return { j₂ with transfers := j₂.transfers ++ [⟨owner, zeroAddress, shares⟩] }
  | .share k => do
    let t ← ERC4626Min.shareCall h j.vault.toERC4626Min q.ctx k
    let s := { j.vault with toERC4626Min := t }
    return { j with
      vault := s, log := j.log ++ [⟨j.vault, .share q.ctx k, s⟩]
      transfers := j.transfers ++ ERC4626Min.shareTransfers q.ctx k }

omit [DecidableEq A] [Zero A] in
theorem exec_map_bind {α β γ : Type} (g : β → γ) (m : Exec α) (f : α → Exec β) :
    (m >>= f).map g = m >>= fun a => (f a).map g := by
  cases m <;> rfl

/-- The transfers only record: without them the routes are those of `serve`. -/
theorem serveLogged_books (q : Request A) {inside after : Journal A → Journal A}
    {inside' after' : Books A → Books A} (hin : ∀ j, (inside j).toBooks = inside' j.toBooks)
    (haf : ∀ j, (after j).toBooks = after' j.toBooks) (j : Journal A) :
    (serveLogged h q inside after j).map Journal.toBooks =
      serve h q inside' after' j.toBooks := by
  obtain ⟨c, k, ok⟩ := q
  cases k with
  | deposit assets receiver =>
    simp only [serveLogged, serve, exec_map_bind, hin]
    rfl
  | mint shares receiver =>
    simp only [serveLogged, serve, exec_map_bind, hin]
    rfl
  | withdraw assets receiver owner =>
    simp only [serveLogged, serve, exec_map_bind, hin]
    simp only [pure_eq_ok, Except.map, haf]
  | redeem shares receiver owner =>
    simp only [serveLogged, serve, exec_map_bind, hin]
    simp only [pure_eq_ok, Except.map, haf]
  | share k =>
    simp only [serveLogged, serve, exec_map_bind]
    rfl

theorem exec_books (e : Script (Request A) U256) (j : Journal A) :
    (exec gainLogged (serveLogged h) e j).toBooks = exec gain (serve h) e j.toBooks := by
  induction e generalizing j with
  | done => rfl
  | move n rest ih => exact ih _
  | call q inside after rest ihi iha ih =>
    rw [exec, exec, ih]
    congr 1
    have hq := serveLogged_books h q ihi iha j
    rw [step, step, ← hq]
    cases serveLogged h q (exec gainLogged (serveLogged h) inside)
      (exec gainLogged (serveLogged h) after) j with
    | ok j' => rfl
    | error r => rfl

end Routes

/-! ### What a call of the vault owes the log -/

section Log

variable {A : Type} [DecidableEq A] [Zero A] {h : Host A} {s s' : ERC4626 A} {c : Ctx A}

omit [Zero A] in
theorem redeemSettle_burns {shares held payout : U256} {owner : A}
    (hr : redeemSettle h s c shares owner held = .ok (s', payout)) :
    ∃ t, ERC4626Min.burnShares h s.toERC4626Min c owner (.ok shares) = .ok t ∧
      s' = { s with toERC4626Min := t } := by
  simp only [redeemSettle, bind_eq_ok, require_eq_ok, pure_eq_ok, Except.ok.injEq,
    Prod.mk.injEq] at hr
  obtain ⟨n, -, -, -, -, -, -, -, t, ht, rfl, -⟩ := hr
  exact ⟨t, ht, rfl⟩

/-- What happened between two journals: the vault did what the new entries account for, and
    the zero account went on holding no shares. -/
def Journaled (j j' : Journal A) : Prop :=
  j.vault.mBalances 0 = 0#256 →
    (∃ ts, j'.transfers = j.transfers ++ ts ∧
      Accounts ts j.vault.mBalances j.vault.mTotalSupply j'.vault.mBalances
        j'.vault.mTotalSupply) ∧
      j'.vault.mBalances 0 = 0#256

theorem Journaled.refl (j : Journal A) : Journaled j j :=
  fun hzero => ⟨⟨[], (List.append_nil _).symm, .refl _ _⟩, hzero⟩

theorem Journaled.trans {j₁ j₂ j₃ : Journal A} (h₁ : Journaled j₁ j₂) (h₂ : Journaled j₂ j₃) :
    Journaled j₁ j₃ := by
  intro hzero
  obtain ⟨⟨ts, hts, hacc⟩, hzero₂⟩ := h₁ hzero
  obtain ⟨⟨us, hus, hacc'⟩, hzero₃⟩ := h₂ hzero₂
  refine ⟨⟨ts ++ us, ?_, hacc.trans hacc'⟩, hzero₃⟩
  rw [hus, hts, List.append_assoc]

/-- An issue is logged when it is made. -/
theorem journaled_of_issue {j j' : Journal A} {receiver : A} {n : U256} {t : ERC4626Min A}
    (hr : receiver ≠ 0)
    (hi : ERC4626Min.issueShares j.vault.toERC4626Min receiver (.ok n) = .ok t)
    (hvault : j'.vault = { j.vault with toERC4626Min := t })
    (hlog : j'.transfers = j.transfers ++ [⟨0, receiver, n⟩]) : Journaled j j' := by
  obtain ⟨n', supply, balances, hn, hS, hB, rfl⟩ := ERC4626Min.issueShares_eq_ok.mp hi
  cases hn
  intro hzero
  obtain ⟨hacc, hzero'⟩ := accounts_of_effect (e := .issue receiver n) hzero hr trivial hS hB
  rw [hvault]
  exact ⟨⟨_, hlog, hacc⟩, hzero'⟩

/-- A burn is logged after everything that happens while the assets go out. -/
theorem journaled_of_burn {j j₁ j₂ j' : Journal A} {owner : A} {n : U256} {t : ERC4626Min A}
    (ho : owner ≠ 0) (hmid : Journaled j₁ j₂)
    (hb : ERC4626Min.burnShares h j.vault.toERC4626Min c owner (.ok n) = .ok t)
    (hvault₁ : j₁.vault = { j.vault with toERC4626Min := t }) (hlog₁ : j₁.transfers = j.transfers)
    (hvault : j'.vault = j₂.vault)
    (hlog : j'.transfers = j₂.transfers ++ [⟨owner, 0, n⟩]) : Journaled j j' := by
  obtain ⟨n', supply, balances, rest, hn, hS, hB, -, rfl⟩ := ERC4626Min.burnShares_eq_ok.mp hb
  cases hn
  intro hzero
  have hzero₁ : j₁.vault.mBalances 0 = 0#256 := by
    obtain ⟨f, -, rfl⟩ := debit_eq_ok.mp hB
    rw [hvault₁]
    change Function.update j.vault.mBalances owner f 0 = _
    rw [Function.update_of_ne (Ne.symm ho), hzero]
  obtain ⟨⟨ts, hts, hacc⟩, hzero₂⟩ := hmid hzero₁
  rw [hvault₁] at hacc
  rw [hvault]
  refine ⟨⟨ts ++ [⟨owner, 0, n⟩], ?_, .of_debit ho hB hS hacc⟩, hzero₂⟩
  rw [hlog, hts, hlog₁, List.append_assoc]

theorem journaled_of_share {j j' : Journal A} {k : ShareCall A} {t : ERC4626Min A}
    (hk : ERC4626Min.shareCall h j.vault.toERC4626Min c k = .ok t)
    (hvault : j'.vault = { j.vault with toERC4626Min := t })
    (hlog : j'.transfers = j.transfers ++ ERC4626Min.shareTransfers c k) : Journaled j j' := by
  obtain ⟨hg, balances, allowances, hB, -, rfl⟩ := ERC4626Min.shareCall_eq_ok.mp hk
  intro hzero
  rw [hvault]
  cases k with
  | transfer toAddr amount =>
    simp only [ERC4626Min.shareGuard, bind_eq_ok, require_eq_ok] at hg
    obtain ⟨-, hpos, -, hto, hcov⟩ := hg
    obtain ⟨hacc, hzero'⟩ := accounts_of_effect (e := .move c.sender toAddr amount)
      (S := j.vault.mTotalSupply) hzero ⟨hto, hpos⟩ hcov rfl hB
    exact ⟨⟨_, hlog, hacc⟩, hzero'⟩
  | transferFrom fromAddr toAddr amount =>
    simp only [ERC4626Min.shareGuard, bind_eq_ok, require_eq_ok] at hg
    obtain ⟨-, hpos, -, hto, -, hcov, -⟩ := hg
    obtain ⟨hacc, hzero'⟩ := accounts_of_effect (e := .move fromAddr toAddr amount)
      (S := j.vault.mTotalSupply) hzero ⟨hto, hpos⟩ hcov rfl hB
    exact ⟨⟨_, hlog, hacc⟩, hzero'⟩
  | approve spender amount =>
    cases hB
    exact ⟨⟨_, hlog, .refl _ _⟩, hzero⟩

theorem journaled_of_serve {q : Request A} {inside after : Journal A → Journal A}
    {j j' : Journal A} (hin : ∀ j, Journaled j (inside j)) (haf : ∀ j, Journaled j (after j))
    (hs : serveLogged h q inside after j = .ok j') : Journaled j j' := by
  obtain ⟨c, k, ok⟩ := q
  cases k with
  | deposit assets receiver =>
    simp only [serveLogged, bind_eq_ok, require_eq_ok, pure_eq_ok, Except.ok.injEq] at hs
    obtain ⟨-, hr, ⟨s, issued⟩, hissue, rfl⟩ := hs
    obtain ⟨-, -, -, -, t, ht, rfl⟩ := depositIssue_ok hissue
    exact (hin j).trans (journaled_of_issue hr ht rfl rfl)
  | mint shares receiver =>
    simp only [serveLogged, bind_eq_ok, require_eq_ok, pure_eq_ok, Except.ok.injEq] at hs
    obtain ⟨-, hr, cost, -, s, hissue, rfl⟩ := hs
    obtain ⟨-, -, t, ht, rfl⟩ := mintIssue_ok hissue
    exact (hin j).trans (journaled_of_issue hr ht rfl rfl)
  | withdraw assets receiver owner =>
    simp only [serveLogged, bind_eq_ok, require_eq_ok, pure_eq_ok, Except.ok.injEq] at hs
    obtain ⟨-, -, -, ho, ⟨s, burnt⟩, hsettle, left, -, -, -, rfl⟩ := hs
    obtain ⟨-, -, -, -, -, t, ht, rfl⟩ := withdrawSettle_eq_ok.mp hsettle
    let s : ERC4626 A := { j.vault with toERC4626Min := t }
    let j₁ : Journal A := { j with
      vault := s, log := j.log ++ [⟨j.vault, .burn c owner burnt, s⟩] }
    let j₂ : Journal A := { inside j₁ with assets := left }
    have hpush : Journaled j₁ j₂ := hin j₁
    have hmid : Journaled j₁ (after j₂) := hpush.trans (haf j₂)
    exact journaled_of_burn ho hmid ht rfl rfl rfl rfl
  | redeem shares receiver owner =>
    simp only [serveLogged, bind_eq_ok, require_eq_ok, pure_eq_ok, Except.ok.injEq] at hs
    obtain ⟨-, -, -, ho, ⟨s, payout⟩, hsettle, left, -, -, -, rfl⟩ := hs
    obtain ⟨t, ht, rfl⟩ := redeemSettle_burns hsettle
    let s : ERC4626 A := { j.vault with toERC4626Min := t }
    let j₁ : Journal A := { j with
      vault := s, log := j.log ++ [⟨j.vault, .burn c owner shares, s⟩] }
    let j₂ : Journal A := { inside j₁ with assets := left }
    have hpush : Journaled j₁ j₂ := hin j₁
    have hmid : Journaled j₁ (after j₂) := hpush.trans (haf j₂)
    exact journaled_of_burn ho hmid ht rfl rfl rfl rfl
  | share k =>
    simp only [serveLogged, bind_eq_ok, pure_eq_ok, Except.ok.injEq] at hs
    obtain ⟨t, ht, rfl⟩ := hs
    exact journaled_of_share ht rfl rfl

/-- Whatever the asset does, a vault owes its log what the log says. -/
theorem journaled_of_exec (h : Host A) (e : Script (Request A) U256) (j : Journal A) :
    Journaled j (exec gainLogged (serveLogged h) e j) := by
  have hgain : ∀ n (j : Journal A), Journaled j (gainLogged n j) := by
    intro n j
    rw [gainLogged, gain]
    cases add j.assets n with
    | ok assets => exact .refl j
    | error r => exact .refl j
  have hframe : Frame gainLogged (serveLogged h) (fun _ _ => some ((), ()))
      fun _ j j' => Journaled j j' := {
    refl := fun _ j => .refl j
    trans := fun _ _ _ _ h₁ h₂ => h₁.trans h₂
    move := fun _ n j => hgain n j
    call := fun _ _ _ _ _ _ _ _ _ hin haf hs => journaled_of_serve hin haf hs }
  have hall : ∀ e : Script (Request A) U256, Allowed (fun _ _ => some ((), ())) () e := by
    intro e
    induction e with
    | done => trivial
    | move n rest ih => exact ih
    | call q inside after rest ihi iha ih => exact ⟨⟨(), (), rfl, ihi, iha⟩, ih⟩
  exact exec_of_frame hframe (hall e) j

/-- The log of a vault since deployment, replayed on an empty ledger, is its shares, and what
    it minted less what it burnt is their supply. -/
def Faithful (h : Host A) (s : ERC4626 A) (assets : U256) (e : Script (Request A) U256) : Prop :=
  let j := exec gainLogged (serveLogged h) e ⟨⟨⟨s, assets⟩, 0, 0, []⟩, []⟩
  replay j.transfers (fun _ => 0) = some (fun x => (j.vault.mBalances x).toNat) ∧
    (minted j.transfers : Int) - burnt j.transfers = j.vault.mTotalSupply.toNat

theorem faithful_of_deploy {args : ERC4626Min.Args} {v : U256} {s : ERC4626 A}
    (hd : deploy args v = .ok s) (assets : U256) (e : Script (Request A) U256) :
    Faithful h s assets e := by
  obtain ⟨-, -, hsupply, hbal⟩ := deploy_ok hd
  obtain ⟨⟨ts, hts, hacc⟩, -⟩ :=
    journaled_of_exec h e ⟨⟨⟨s, assets⟩, 0, 0, []⟩, []⟩ (by rw [hbal])
  rw [hbal, hsupply] at hacc
  rw [Faithful, hts, List.nil_append]
  exact hacc.replay_eq

end Log

end ERC4626

/-! ### All four -/

/-- **The `Transfer` log is the ledger.**  Replayed from deployment it gives the balances and
    the supply: for a token on every run when it was deployed with a supply of zero, and on
    no run when a supply went to an account; for the vault on every run, whatever its asset
    calls back. -/
theorem transfer_log_replays {A : Type} [Fintype A] [DecidableEq A] [Zero A] (h : Host A) :
    (∀ (e : StdToken) (a : (e.logged h).Args),
      ((∀ ms, (e.logged h).Faithful a ms) ↔ (e.logged h).initialSupply a = 0#256) ∧
      ((e.logged h).initialHolder a ≠ 0 →
        ∀ ms, (e.logged h).Faithful a ms ↔ (e.logged h).initialSupply a = 0#256)) ∧
    ∀ (args : ERC4626Min.Args) (v : U256) (s : ERC4626 A), ERC4626.deploy args v = .ok s →
      ∀ (assets : U256) (script : Script (ERC4626.Request A) U256),
        ERC4626.Faithful h s assets script := by
  refine ⟨?_, fun args v s hd assets script => ERC4626.faithful_of_deploy hd assets script⟩
  intro e a
  constructor
  · constructor
    · intro hall
      exact LoggedLedger.no_supply_of_faithful_nil (hall [])
    · intro ha ms
      exact LoggedLedger.faithful_of_no_supply ha ms
  · intro hholder ms
    constructor
    · intro hf
      exact LoggedLedger.no_supply_of_faithful hholder hf
    · intro ha
      exact LoggedLedger.faithful_of_no_supply ha ms

/-- A deposit that answers another one, and an `ERC7943` deployed without a supply. -/
theorem transfer_log_replays_sample :
    (∃ s : ERC4626 (Fin 4), ERC4626.deploy ⟨"Vault", "V", 18#8⟩ 1000#256 = .ok s ∧
      ERC4626.Faithful .sample s 0#256 (.call ⟨⟨2, 0#256, 1#256, 3⟩, .deposit 10#256 2, true⟩
        (.call ⟨⟨1, 0#256, 1#256, 3⟩, .deposit 10#256 1, true⟩ (.move 10#256 .done) .done .done)
        .done .done)) ∧
    ((StdToken.erc7943.logged .sample).Faithful ⟨⟨0, (1 : Fin 4), 0#256⟩, "Token", "T", 18#8⟩
        [(⟨0, 0#256, 1#256, 3⟩, .base (.mint 2 7#256))] ↔ (0#256 : U256) = 0#256) := by
  constructor
  · refine ⟨_, rfl, ?_⟩
    exact (transfer_log_replays .sample).2 ⟨"Vault", "V", 18#8⟩ 1000#256 _ rfl 0#256 _
  · exact ((transfer_log_replays .sample).1 .erc7943 ⟨⟨0, (1 : Fin 4), 0#256⟩, "Token", "T", 18#8⟩).2
      (by decide) [(⟨0, 0#256, 1#256, 3⟩, .base (.mint 2 7#256))]

/-- `ERC20` deployed with a supply of `5`: the log is empty, and account `1` holds `5`. -/
theorem transfer_log_missing_supply :
    ¬ ∀ (A : Type) [Fintype A] [DecidableEq A] [Zero A] (h : Host A)
      (a : (ERC20.logged h).Args) (ms : List (Ctx A × (ERC20.logged h).Call)),
        (ERC20.logged h).Faithful a ms := by
  intro hall
  have hf := hall (Fin 4) .sample ⟨"Token", "T", 18#8, 0, 1, 5#256⟩ []
  have hne : (5#256 : U256) ≠ 0#256 := by decide
  exact hne (LoggedLedger.no_supply_of_faithful_nil hf)

end CambrianLang.Stdlib
