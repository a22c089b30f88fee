/-
  **Allowances and permits of `ERC20` and `ERC20Multi`.**

  A permit is a grant that the owner signed instead of sending.  Its message
  carries the owner's nonce, which an accepted permit advances, so no message is
  accepted twice; and where the hashes keep apart what they hash, no digest is.
-/
import CambrianLang.Stdlib.Token.Allowance

namespace CambrianLang.Stdlib

open Trapping Ledger History

/-- What a permit signs: the domain and the message. -/
structure PermitMessage (A : Type) where
  hashedName : U256
  hashedVersion : U256
  chainid : U256
  address : A
  owner : A
  spender : A
  value : U256
  nonce : U256
  deadline : U256

namespace PermitMessage

variable {A : Type} (h : Host A) (m : PermitMessage A)

def separator : U256 := domainSeparator h m.hashedName m.hashedVersion m.chainid m.address

def structHash : U256 := permitStructHash h m.owner m.spender m.value m.nonce m.deadline

def digest : U256 := permitDigest h (m.separator h) (m.structHash h)

/-- What is hashed with `hashOf` for the digest. -/
def hashed : List (HashArgs A) :=
  [.domain eip712DomainTypehash m.hashedName m.hashedVersion m.chainid m.address,
    .permit permitTypehash m.owner m.spender m.value m.nonce m.deadline]

/-- Messages whose tuples the hashes keep apart have different digests. -/
theorem digest_inj {U : Set (HashArgs A)} {P : Set PackedArgs} {m m' : PermitMessage A}
    (hU : Set.InjOn h.hashOf U) (hP : Set.InjOn h.keccak256Packed P)
    (hm : ∀ x ∈ m.hashed, x ∈ U) (hm' : ∀ x ∈ m'.hashed, x ∈ U)
    (hd : .digest (m.separator h) (m.structHash h) ∈ P)
    (hd' : .digest (m'.separator h) (m'.structHash h) ∈ P) (heq : m.digest h = m'.digest h) :
    m = m' := by
  have hpacked := hP hd hd' heq
  obtain ⟨hsep, hstruct⟩ := PackedArgs.digest.inj hpacked
  have hdomain := hU (hm _ (by simp [hashed])) (hm' _ (by simp [hashed])) hsep
  have hpermit := hU (hm _ (by simp [hashed])) (hm' _ (by simp [hashed])) hstruct
  cases m
  cases m'
  simp only [HashArgs.domain.injEq, HashArgs.permit.injEq, true_and] at hdomain hpermit
  obtain ⟨rfl, rfl, rfl, rfl⟩ := hdomain
  obtain ⟨rfl, rfl, rfl, rfl, rfl⟩ := hpermit
  rfl

end PermitMessage

namespace ERC20

variable {A : Type}

/-- The owner and the spender whose allowance a call writes. -/
def Call.pair (c : Ctx A) : Call A → Option (A × A)
  | .approve spender _ => some (c.sender, spender)
  | .transferFrom fromAddr _ _ => some (fromAddr, c.sender)
  | .permit owner spender _ _ _ _ _ => some (owner, spender)
  | _ => none

/-- The allowance a call grants. -/
def Call.granted : Call A → Option U256
  | .approve _ amount => some amount
  | .permit _ _ value _ _ _ _ => some value
  | _ => none

def allowanceLedger : AllowanceLedger (ERC20 A) (Ctx A × Call A) A where
  balances := ERC20.mBalances
  allowances := ERC20.mAllowances
  caller m := m.1.sender
  pair m := m.2.pair m.1
  granted m := m.2.granted

/-- The message of a `permit`. -/
def message (s : ERC20 A) (c : Ctx A) : Call A → Option (PermitMessage A)
  | .permit owner spender value deadline _ _ _ =>
    some ⟨s.mHashedName, s.mHashedVersion, c.chainid, c.address, owner, spender, value,
      nonceOf s.mNonces owner, deadline⟩
  | _ => none

/-- The messages a history accepted, in order. -/
def messages (ts : List (Transition (ERC20 A) (Ctx A × Call A))) : List (PermitMessage A) :=
  ts.filterMap fun t => message t.before t.msg.1 t.msg.2

/-- The tuples a history hashes with `hashOf`, and the digests it packs. -/
def hashed (ts : List (Transition (ERC20 A) (Ctx A × Call A))) : List (HashArgs A) :=
  allowanceLedger.pairs ts ++ (messages ts).flatMap PermitMessage.hashed

def packed (h : Host A) (ts : List (Transition (ERC20 A) (Ctx A × Call A))) : List PackedArgs :=
  (messages ts).map fun m => .digest (m.separator h) (m.structHash h)

/-- The call is a `permit` of `owner`. -/
def permitOf [DecidableEq A] (owner : A) (t : Transition (ERC20 A) (Ctx A × Call A)) : Bool :=
  match t.msg.2 with
  | .permit o _ _ _ _ _ _ => decide (o = owner)
  | _ => false

variable [DecidableEq A] [Zero A] {h : Host A} {s s' : ERC20 A} {c : Ctx A} {k : Call A}

/-- The calls do to balances and allowances what `Uses` says. -/
theorem step_of_call (hc : call h s c k = .ok s') : allowanceLedger.Step h ⟨s, (c, k), s'⟩ := by
  obtain ⟨-, supply, balances, allowances, nonces, -, hB, hA, -, rfl⟩ := call_eq_ok.mp hc
  cases k with
  | transfer toAddr amount =>
    cases hA
    refine .keep ?_ rfl
    intro x (hx : x ≠ c.sender)
    have hle := le_of_move hB x
    rwa [if_neg hx] at hle
  | transferFrom fromAddr toAddr amount =>
    simp only [allowancesIn, bind_eq_ok, pure_eq_ok, Except.ok.injEq] at hA
    obtain ⟨rest, hrest, rfl⟩ := hA
    exact .spend (le_of_move hB) (fun _ => hrest) rfl
  | approve spender amount =>
    cases hA
    cases hB
    exact .grant rfl rfl
  | permit owner spender value deadline v r sig =>
    cases hA
    cases hB
    exact .grant rfl rfl
  | mint toAddr amount =>
    cases hA
    exact .keep (fun x _ => le_of_credit hB x) rfl
  | burn amount =>
    cases hA
    refine .keep ?_ rfl
    intro x (hx : x ≠ c.sender)
    have hle := le_of_debit hB x
    rwa [if_neg hx] at hle

/-- A permit advances its owner's nonce, and nothing else does. -/
theorem nonce_of_call (hc : call h s c k = .ok s') (owner : A) :
    (s'.mNonces owner).toNat =
      (s.mNonces owner).toNat + if permitOf owner ⟨s, (c, k), s'⟩ then 1 else 0 := by
  obtain ⟨-, supply, balances, allowances, nonces, -, -, -, hN, rfl⟩ := call_eq_ok.mp hc
  cases k with
  | permit o spender value deadline v r sig =>
    simp only [noncesIn, bind_eq_ok, pure_eq_ok, Except.ok.injEq] at hN
    obtain ⟨next, hnext, rfl⟩ := hN
    have hsum := add_eq_ok.mp hnext
    have hone : (1#256 : U256).toNat = 1 := by simp
    change (Function.update s.mNonces o next owner).toNat =
      (s.mNonces owner).toNat + if decide (o = owner) then 1 else 0
    by_cases ho : o = owner
    · subst ho
      rw [Function.update_self, if_pos (decide_eq_true rfl), hsum, hone, nonceOf]
    · rw [Function.update_of_ne (Ne.symm ho), decide_eq_false ho]
      rfl
  | transfer | transferFrom | approve | mint | burn =>
    cases hN
    rfl

/-- The message of an accepted permit carries the nonce that the permit uses up. -/
theorem stamped_of_call (hc : call h s c k = .ok s') :
    Stamped (fun t => message t.before t.msg.1 t.msg.2)
      (fun (m : PermitMessage A) (s : ERC20 A) => (s.mNonces m.owner).toNat)
      (fun m => m.nonce.toNat) ⟨s, (c, k), s'⟩ := by
  constructor
  · intro m
    have hnonce := nonce_of_call hc m.owner
    change (s.mNonces m.owner).toNat ≤ (s'.mNonces m.owner).toNat
    omega
  · intro m hm
    cases k with
    | permit owner spender value deadline v r sig =>
      cases hm
      refine ⟨rfl, ?_⟩
      have hnonce := nonce_of_call hc owner
      have hself : permitOf owner
          ⟨s, (c, .permit owner spender value deadline v r sig), s'⟩ = true := decide_eq_true rfl
      rw [if_pos hself] at hnonce
      change (s.mNonces owner).toNat < (s'.mNonces owner).toNat
      omega
    | transfer | transferFrom | approve | mint | burn => cases hm

/-- The digest of an accepted permit is one its owner signed. -/
theorem signed_of_call (hc : call h s c k = .ok s') {m : PermitMessage A}
    (hm : message s c k = some m) : ∃ v r sig, h.ecrecover (m.digest h) v r sig = m.owner := by
  obtain ⟨hg, -⟩ := call_eq_ok.mp hc
  cases k with
  | permit owner spender value deadline v r sig =>
    cases hm
    simp only [guard, permitGuard, bind_eq_ok, require_eq_ok] at hg
    obtain ⟨-, -, -, -, -, -, hsigner⟩ := hg
    exact ⟨v, r, sig, hsigner⟩
  | transfer | transferFrom | approve | mint | burn => cases hm

/-- What a history of the token keeps: allowances bound what is taken, a nonce counts the
    accepted permits of its owner, who signed them all, and no digest was accepted twice. -/
structure Promise (h : Host A) (s' : ERC20 A) (ts : List (Transition (ERC20 A) (Ctx A × Call A))) :
    Prop where
  allowances : ∀ owner p, p ≠ owner → allowanceLedger.Safe h ts owner p
  nonces : ∀ owner, (s'.mNonces owner).toNat = ts.countP (permitOf owner)
  signed : ∀ m ∈ messages ts, ∃ v r sig, h.ecrecover (m.digest h) v r sig = m.owner
  digests : ((messages ts).map fun m => m.digest h).Nodup

theorem promise_of_history {args : Args A} {ts : List (Transition (ERC20 A) (Ctx A × Call A))}
    (hl : Leads (deploy h args) ts s')
    (hcalls : ∀ t ∈ ts, call h t.before t.msg.1 t.msg.2 = .ok t.after)
    (hU : Set.InjOn h.hashOf {x | x ∈ hashed ts})
    (hP : Set.InjOn h.keccak256Packed {x | x ∈ packed h ts}) :
    Promise h s' ts where
  allowances owner p hp := by
    refine AllowanceLedger.safe_of_steps hl (fun _ => rfl) ?_ ?_ hp
    · intro t ht
      exact step_of_call (hcalls t ht)
    · exact hU.mono fun x hx => List.mem_append_left _ hx
  nonces owner := by
    have hcount : (s'.mNonces owner).toNat =
        ((deploy h args).mNonces owner).toNat + ts.countP (permitOf owner) :=
      @counter_eq _ _ _ _ _ (fun s : ERC20 A => (s.mNonces owner).toNat) _ hl
        fun t ht => nonce_of_call (hcalls t ht) owner
    have hzero : ((deploy h args).mNonces owner).toNat = 0 := by
      rw [deploy]
      rfl
    omega
  signed m hm := by
    obtain ⟨t, ht, hmsg⟩ := List.mem_filterMap.mp hm
    exact signed_of_call (hcalls t ht) hmsg
  digests := by
    have hnodup : (messages ts).Nodup :=
      nodup_stamps hl fun t ht => stamped_of_call (hcalls t ht)
    refine hnodup.map_on ?_
    have hhashed : ∀ m ∈ messages ts, ∀ x ∈ m.hashed, x ∈ hashed ts := fun m hm x hx =>
      List.mem_append_right _ (List.mem_flatMap.mpr ⟨m, hm, hx⟩)
    have hpacked : ∀ m ∈ messages ts, .digest (m.separator h) (m.structHash h) ∈ packed h ts :=
      fun m hm => List.mem_map.mpr ⟨m, hm, rfl⟩
    intro m hm m' hm' heq
    exact PermitMessage.digest_inj h hU hP (hhashed m hm) (hhashed m' hm') (hpacked m hm)
      (hpacked m' hm') heq

end ERC20

end CambrianLang.Stdlib
