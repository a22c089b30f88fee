/-
  **Share allowances of `ERC4626`, and spending in all three ledgers.**

  A share allowance is spent by `transferFrom` and by a withdrawal or redemption
  that somebody else than the owner makes, under the same hashed key.  The
  members are written in single pieces, between which the asset may do what it
  likes, so what holds of the pieces holds whatever asset the vault has.
-/
import CambrianLang.Stdlib.Token.Permit
import CambrianLang.Stdlib.Vault.Reentrancy

namespace CambrianLang.Stdlib

open Trapping Ledger History NestedCalls

namespace ERC4626

variable {A : Type}

def Write.caller : Write A → A
  | .issue c _ _ => c.sender
  | .burn c _ _ => c.sender
  | .share c _ => c.sender

/-- The owner and the spender whose allowance is written. -/
def Write.pair : Write A → Option (A × A)
  | .burn c owner _ => some (owner, c.sender)
  | .share c (.approve spender _) => some (c.sender, spender)
  | .share c (.transferFrom fromAddr _ _) => some (fromAddr, c.sender)
  | _ => none

/-- The allowance that is granted. -/
def Write.granted : Write A → Option U256
  | .share _ (.approve _ amount) => some amount
  | _ => none

def allowanceLedger : AllowanceLedger (ERC4626 A) (Write A) A where
  balances s := s.mBalances
  allowances s := s.mAllowances
  caller := Write.caller
  pair := Write.pair
  granted := Write.granted

variable [DecidableEq A] [Zero A] (h : Host A)

/-- A write, as the phase that makes it makes it. -/
def write (s : ERC4626 A) (m : Write A) : Exec (ERC4626 A) := do
  let t ← match m with
    | .issue _ receiver n => ERC4626Min.issueShares s.toERC4626Min receiver (.ok n)
    | .burn c owner n => ERC4626Min.burnShares h s.toERC4626Min c owner (.ok n)
    | .share c k => ERC4626Min.shareCall h s.toERC4626Min c k
  return { s with toERC4626Min := t }

variable {h} {s s' : ERC4626 A} {m : Write A}

/-- The writes do to balances and allowances what `Uses` says. -/
theorem step_of_write (hw : write h s m = .ok s') : allowanceLedger.Step h ⟨s, m, s'⟩ := by
  cases m with
  | issue c receiver n =>
    simp only [write, bind_eq_ok, pure_eq_ok, Except.ok.injEq] at hw
    obtain ⟨t, ht, rfl⟩ := hw
    obtain ⟨n', supply, balances, -, -, hB, rfl⟩ := ERC4626Min.issueShares_eq_ok.mp ht
    exact .keep (fun x _ => le_of_credit hB x) rfl
  | burn c owner n =>
    simp only [write, bind_eq_ok, pure_eq_ok, Except.ok.injEq] at hw
    obtain ⟨t, ht, rfl⟩ := hw
    obtain ⟨n', supply, balances, rest, hn, -, hB, hR, rfl⟩ := ERC4626Min.burnShares_eq_ok.mp ht
    cases hn
    refine .spend (le_of_debit hB) ?_ rfl
    intro (howner : owner ≠ c.sender)
    rw [shareAllowanceAfterBurn, if_neg howner] at hR
    exact hR
  | share c k =>
    simp only [write, bind_eq_ok, pure_eq_ok, Except.ok.injEq] at hw
    obtain ⟨t, ht, rfl⟩ := hw
    obtain ⟨-, balances, allowances, hB, hA, rfl⟩ := ERC4626Min.shareCall_eq_ok.mp ht
    cases k with
    | transfer toAddr amount =>
      cases hA
      refine .keep ?_ rfl
      intro x (hx : x ≠ c.sender)
      have hle := le_of_move hB x
      rwa [if_neg hx] at hle
    | transferFrom fromAddr toAddr amount =>
      simp only [ERC4626Min.shareAllowancesIn, bind_eq_ok, pure_eq_ok, Except.ok.injEq] at hA
      obtain ⟨rest, hrest, rfl⟩ := hA
      exact .spend (le_of_move hB) (fun _ => hrest) rfl
    | approve spender amount =>
      cases hA
      cases hB
      exact .grant rfl rfl

/-! ### The log of an execution -/

/-- The asset may hold for the vault, from one moment to the next, whatever it says. -/
def hold (assets : U256) (b : Books A) : Books A := { b with assets := assets }

/-- The log grew by writes that lead from the one vault to the other. -/
def Logged (h : Host A) (b b' : Books A) : Prop :=
  ∃ ts, b'.log = b.log ++ ts ∧ Leads b.vault ts b'.vault ∧
    ∀ t ∈ ts, write h t.before t.msg = .ok t.after

namespace Logged

variable {b b₁ b₂ b₃ : Books A}

theorem refl (b : Books A) : Logged h b b := by
  refine ⟨[], (List.append_nil _).symm, rfl, ?_⟩
  intro t ht
  cases ht

theorem trans (h₁ : Logged h b₁ b₂) (h₂ : Logged h b₂ b₃) : Logged h b₁ b₃ := by
  obtain ⟨ts, hlog, hlead, hall⟩ := h₁
  obtain ⟨us, hlog', hlead', hall'⟩ := h₂
  refine ⟨ts ++ us, ?_, leads_append.mpr ⟨_, hlead, hlead'⟩, ?_⟩
  · rw [hlog', hlog, List.append_assoc]
  · intro t ht
    rcases List.mem_append.mp ht with ht | ht
    · exact hall t ht
    · exact hall' t ht

theorem of_hold (assets : U256) (b : Books A) : Logged h b (hold assets b) :=
  refl b

/-- One more write. -/
theorem of_write {t : ERC4626 A} {assets : U256} {entered credited : Nat}
    (hw : write h b.vault m = .ok t) :
    Logged h b ⟨⟨t, assets⟩, entered, credited, b.log ++ [⟨b.vault, m, t⟩]⟩ := by
  refine ⟨[⟨b.vault, m, t⟩], rfl, ⟨rfl, rfl⟩, ?_⟩
  intro t' ht'
  rw [List.mem_singleton.mp ht']
  exact hw

end Logged

theorem logged_of_serve {q : Request A} {inside after : Books A → Books A} {b b' : Books A}
    (hin : ∀ b, Logged h b (inside b)) (haf : ∀ b, Logged h b (after b))
    (hs : serve h q inside after b = .ok b') : Logged h b b' := by
  obtain ⟨c, k, ok⟩ := q
  cases k with
  | deposit assets receiver =>
    simp only [serve, bind_eq_ok, require_eq_ok, pure_eq_ok, Except.ok.injEq] at hs
    obtain ⟨-, -, ⟨s, issued⟩, hissue, rfl⟩ := hs
    obtain ⟨-, -, -, -, t, ht, rfl⟩ := depositIssue_ok hissue
    refine (hin b).trans (Logged.of_write ?_)
    rw [write, ht]
    rfl
  | mint shares receiver =>
    simp only [serve, bind_eq_ok, require_eq_ok, pure_eq_ok, Except.ok.injEq] at hs
    obtain ⟨-, -, cost, -, s, hissue, rfl⟩ := hs
    obtain ⟨-, -, t, ht, rfl⟩ := mintIssue_ok hissue
    refine (hin b).trans (Logged.of_write ?_)
    rw [write, ht]
    rfl
  | withdraw assets receiver owner =>
    simp only [serve, bind_eq_ok, require_eq_ok, pure_eq_ok, Except.ok.injEq] at hs
    obtain ⟨-, -, -, -, ⟨s, burnt⟩, hsettle, left, -, -, -, rfl⟩ := hs
    obtain ⟨-, -, -, -, -, t, ht, rfl⟩ := withdrawSettle_eq_ok.mp hsettle
    have hburn : Logged h b { b with
        vault := { b.vault with toERC4626Min := t }
        log := b.log ++ [⟨b.vault, .burn c owner burnt, { b.vault with toERC4626Min := t }⟩] } := by
      refine Logged.of_write ?_
      rw [write, ht]
      rfl
    exact ((hburn.trans (hin _)).trans (Logged.of_hold left _)).trans (haf _)
  | redeem shares receiver owner =>
    simp only [serve, bind_eq_ok, require_eq_ok, pure_eq_ok, Except.ok.injEq] at hs
    obtain ⟨-, -, -, -, ⟨s, payout⟩, hsettle, left, -, -, -, rfl⟩ := hs
    simp only [redeemSettle, bind_eq_ok, require_eq_ok, pure_eq_ok, Except.ok.injEq,
      Prod.mk.injEq] at hsettle
    obtain ⟨-, -, -, -, -, -, -, -, t, ht, rfl, -⟩ := hsettle
    have hburn : Logged h b { b with
        vault := { b.vault with toERC4626Min := t }
        log := b.log ++ [⟨b.vault, .burn c owner shares, { b.vault with toERC4626Min := t }⟩] } := by
      refine Logged.of_write ?_
      rw [write, ht]
      rfl
    exact ((hburn.trans (hin _)).trans (Logged.of_hold left _)).trans (haf _)
  | share k =>
    simp only [serve, bind_eq_ok, pure_eq_ok, Except.ok.injEq] at hs
    obtain ⟨t, ht, rfl⟩ := hs
    refine Logged.of_write ?_
    rw [write, ht]
    rfl

/-- Every call may be made anywhere. -/
def anywhere (_ : Unit) (_ : Request A) : Option (Unit × Unit) := some ((), ())

omit [DecidableEq A] [Zero A] in
theorem allowed_anywhere (e : Script (Request A) U256) : Allowed anywhere () e := by
  induction e with
  | done => trivial
  | move n rest ih => exact ih
  | call q inside after rest ihi iha ih => exact ⟨⟨(), (), rfl, ihi, iha⟩, ih⟩

theorem logged_frame (h : Host A) : Frame hold (serve h) anywhere fun _ b b' => Logged h b b' where
  refl _ b := Logged.refl b
  trans _ _ _ _ h₁ h₂ := h₁.trans h₂
  move _ n b := Logged.of_hold n b
  call _ _ _ _ _ _ _ _ _ hin haf hs := logged_of_serve hin haf hs

/-- **Share allowances bound what is taken**, whatever the asset does. -/
theorem safe_of_exec {args : ERC4626Min.Args} {v : U256} {s : ERC4626 A}
    (hd : deploy args v = .ok s) (assets : U256) (e : Script (Request A) U256)
    (hinj : Set.InjOn h.hashOf
      {x | x ∈ allowanceLedger.pairs (exec hold (serve h) e ⟨⟨s, assets⟩, 0, 0, []⟩).log})
    {owner p : A} (hp : p ≠ owner) :
    allowanceLedger.Safe h (exec hold (serve h) e ⟨⟨s, assets⟩, 0, 0, []⟩).log owner p := by
  obtain ⟨ts, hlog, hlead, hall⟩ :=
    exec_of_frame (logged_frame h) (allowed_anywhere e) ⟨⟨s, assets⟩, 0, 0, []⟩
  rw [hlog, List.nil_append] at hinj ⊢
  refine AllowanceLedger.safe_of_steps hlead ?_ ?_ hinj hp
  · simp only [deploy, bind_eq_ok, require_eq_ok, pure_eq_ok, Except.ok.injEq] at hd
    obtain ⟨-, -, rfl⟩ := hd
    intro key
    rfl
  · intro t ht
    exact step_of_write (hall t ht)

end ERC4626

/-! ### The claim of the three ledgers -/

section Claim

variable {A : Type} [DecidableEq A] [Zero A]

/-- A call of `ERC20Multi` is the call of `ERC20` on its members. -/
theorem ERC20Multi.call_base {h : Host A} {s s' : ERC20Multi A} {c : Ctx A} {k : ERC20.Call A}
    (hc : ERC20Multi.call h s c k = .ok s') :
    ERC20.call h s.toERC20 c k = .ok s'.toERC20 := by
  simp only [ERC20Multi.call, bind_eq_ok, pure_eq_ok, Except.ok.injEq] at hc
  obtain ⟨t, ht, rfl⟩ := hc
  exact ht

/-- The accepted calls of a run of `ERC20`, and of `ERC20Multi` as calls on its members. -/
def ERC20.accepted (h : Host A) (args : ERC20.Args A) (ms : List (Ctx A × ERC20.Call A)) :
    List (Transition (ERC20 A) (Ctx A × ERC20.Call A)) :=
  history (fun s m => ERC20.call h s m.1 m.2) (ERC20.deploy h args) ms

def ERC20Multi.accepted (h : Host A) (tokenId : BitVec 8) (args : ERC20.Args A)
    (ms : List (Ctx A × ERC20.Call A)) : List (Transition (ERC20 A) (Ctx A × ERC20.Call A)) :=
  (history (fun s m => ERC20Multi.call h s m.1 m.2) (ERC20Multi.deploy h tokenId args) ms).map
    (Transition.map ERC20Multi.toERC20)

/-- **Allowances and permits are safe over whole runs** of `ERC20` and `ERC20Multi`, and share
    allowances over whole runs of `ERC4626` with any asset, where the hashes keep apart
    the tuples that were hashed. -/
theorem spending_safe (h : Host A) (tokenId : BitVec 8) (args : ERC20.Args A)
    (ms : List (Ctx A × ERC20.Call A)) (vargs : ERC4626Min.Args) (v : U256) {s : ERC4626 A}
    (hd : ERC4626.deploy vargs v = .ok s) (assets : U256)
    (e : Script (ERC4626.Request A) U256)
    (hU : Set.InjOn h.hashOf {x | x ∈ ERC20.hashed (ERC20.accepted h args ms)})
    (hP : Set.InjOn h.keccak256Packed {x | x ∈ ERC20.packed h (ERC20.accepted h args ms)})
    (hUm : Set.InjOn h.hashOf {x | x ∈ ERC20.hashed (ERC20Multi.accepted h tokenId args ms)})
    (hPm : Set.InjOn h.keccak256Packed
      {x | x ∈ ERC20.packed h (ERC20Multi.accepted h tokenId args ms)})
    (hV : Set.InjOn h.hashOf {x | x ∈ ERC4626.allowanceLedger.pairs
      (exec ERC4626.hold (ERC4626.serve h) e ⟨⟨s, assets⟩, 0, 0, []⟩).log}) :
    ERC20.Promise h (run (fun s m => ERC20.call h s m.1 m.2) (ERC20.deploy h args) ms)
      (ERC20.accepted h args ms) ∧
    ERC20.Promise h
      (run (fun s m => ERC20Multi.call h s m.1 m.2) (ERC20Multi.deploy h tokenId args) ms).toERC20
      (ERC20Multi.accepted h tokenId args ms) ∧
    ∀ owner p, p ≠ owner → ERC4626.allowanceLedger.Safe h
      (exec ERC4626.hold (ERC4626.serve h) e ⟨⟨s, assets⟩, 0, 0, []⟩).log owner p := by
  refine ⟨?_, ?_, fun owner p hp => ERC4626.safe_of_exec hd assets e hV hp⟩
  · refine ERC20.promise_of_history leads_history ?_ hU hP
    intro t ht
    exact call_of_mem_history ht
  · have hlead : Leads (ERC20.deploy h args) (ERC20Multi.accepted h tokenId args ms)
        (run (fun s m => ERC20Multi.call h s m.1 m.2) (ERC20Multi.deploy h tokenId args)
          ms).toERC20 := by
      rw [ERC20Multi.accepted]
      exact leads_map (s := ERC20Multi.deploy h tokenId args) ERC20Multi.toERC20 leads_history
    refine ERC20.promise_of_history hlead ?_ hUm hPm
    intro t ht
    obtain ⟨t', ht', rfl⟩ := List.mem_map.mp ht
    exact ERC20Multi.call_base (call_of_mem_history ht')

/-- A hash that keeps the members of a list apart is injective on it. -/
theorem injOn_of_forall {α β : Type} {f : α → β} {l : List α}
    (hl : ∀ x ∈ l, ∀ y ∈ l, f x = f y → x = y) : Set.InjOn f {x | x ∈ l} :=
  fun x hx y hy => hl x hx y hy

/-- A grant, a permit and a spend of each; in the vault a redemption by a spender. -/
theorem spending_sample :
    ∃ s : ERC4626 (Fin 4), ERC4626.deploy ⟨"Vault", "V", 18#8⟩ 1000#256 = .ok s ∧
      let c (sender : Fin 4) : Ctx (Fin 4) := ⟨sender, 0#256, 1#256, 3⟩
      let ms : List (Ctx (Fin 4) × ERC20.Call (Fin 4)) :=
        [(c 1, .approve 2 5#256), (c 2, .transferFrom 1 3 4#256),
          (c 2, .permit 1 2 7#256 0#256 1#8 0#256 0#256), (c 2, .transferFrom 1 3 7#256)]
      let args : ERC20.Args (Fin 4) := ⟨"Token", "T", 18#8, 1, 1, 100#256⟩
      let e : Script (ERC4626.Request (Fin 4)) U256 :=
        .call ⟨c 1, .deposit 8#256 1, true⟩ (.move 8#256 .done) .done <|
        .call ⟨c 1, .share (.approve 2 5000#256), true⟩ .done .done <|
        .call ⟨c 2, .redeem 4000#256 2 1, true⟩ .done .done .done
      ERC20.Promise .sample
          (run (fun s m => ERC20.call .sample s m.1 m.2) (ERC20.deploy .sample args) ms)
          (ERC20.accepted .sample args ms) ∧
        ERC4626.allowanceLedger.Safe .sample
          (exec ERC4626.hold (ERC4626.serve .sample) e ⟨⟨s, 0#256⟩, 0, 0, []⟩).log 1 2 := by
  refine ⟨_, rfl, ?_⟩
  intro c ms args e
  have hall := spending_safe .sample 0#8 args ms ⟨"Vault", "V", 18#8⟩ 1000#256 rfl 0#256 e
    (injOn_of_forall (by decide +kernel)) (injOn_of_forall (by decide +kernel))
    (injOn_of_forall (by decide +kernel)) (injOn_of_forall (by decide +kernel))
    (injOn_of_forall (by decide +kernel))
  exact ⟨hall.1, hall.2.2 1 2 (by decide)⟩

end Claim

end CambrianLang.Stdlib
