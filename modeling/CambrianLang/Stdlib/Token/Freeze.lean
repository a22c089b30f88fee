/-
  **The holder count and the freeze of `ERC7943`.**

  The count is maintained by every route that can empty or open an account, and
  is proved to be the number of accounts that hold something.  The freeze bounds
  what the holder's own routes can take; a seizure may reach into it and lowers
  it to what is left.
-/
import CambrianLang.Stdlib.Token.ERC7943

namespace CambrianLang.Stdlib.ERC7943

open Trapping Ledger

variable {A : Type} [DecidableEq A] [Zero A] {h : Host A} {s s' : ERC7943 A} {c : Ctx A}

/-! ### The holder count -/

section Holders

variable [Fintype A] {k : Call A}

omit [Fintype A] in
/-- The amount of a call that passed its guards is positive. -/
theorem amount_pos {k' : ERC7943Min.Call A}
    (hg : ERC7943Min.guard h s.toERC7943Min c k' = .ok ()) :
    match ERC7943Min.effect c k' with
    | .keep => True
    | .move _ _ amount => 0 < amount.toNat
    | .issue _ amount => 0 < amount.toNat
    | .retire _ amount => 0 < amount.toNat := by
  cases k' with
  | forcedTransfer fromAddr toAddr amount =>
    simp only [ERC7943Min.guard, bind_eq_ok, require_eq_ok] at hg
    obtain ⟨-, -, -, hpos, -⟩ := hg
    simpa [ERC7943Min.effect, BitVec.lt_def] using hpos
  | transfer | transferFrom | mint | burn =>
    simp only [ERC7943Min.guard, bind_eq_ok, require_eq_ok] at hg
    obtain ⟨-, hpos, -⟩ := hg
    simpa [ERC7943Min.effect, BitVec.lt_def] using hpos
  | approve | setFrozenTokens | setSendBlocked | setReceiveBlocked => trivial

theorem toNat_flag (p : Prop) [Decidable p] :
    (if p then 1#256 else 0#256 : U256).toNat = if p then 1 else 0 := by
  split <;> rfl

omit [Zero A] in
theorem holdersMove_eq {fromAddr toAddr : A} {amount n : U256} {balances : A → U256}
    (hpos : 0 < amount.toNat) (hcount : s.mHolders.toNat = holders s.mBalances)
    (hB : move s.mBalances fromAddr toAddr amount = .ok balances)
    (hn : holdersMove s fromAddr toAddr amount = .ok n) : n.toNat = holders balances := by
  by_cases heq : toAddr = fromAddr
  · subst heq
    rw [move_self] at hB
    rw [holdersMove, if_pos rfl] at hn
    cases hB
    cases hn
    exact hcount
  · have hmove := holders_move heq hpos hB
    rw [holdersMove, if_neg heq, balanceOf, balanceOf] at hn
    simp only [holdersAfterMove, bind_eq_ok, add_eq_ok, sub_eq_ok, toNat_flag] at hn
    obtain ⟨more, hmore, hn⟩ := hn
    omega

/-- **A call keeps the holder count the number of accounts that hold something.** -/
theorem holders_of_call (hcount : s.mHolders.toNat = holders s.mBalances)
    (hcall : call h s c k = .ok s') : s'.mHolders.toNat = holders s'.mBalances := by
  obtain ⟨hg, supply, balances, allowances, nonces, frozen, n, -, hB, -, -, -, hn, rfl⟩ :=
    call_eq_ok.mp hcall
  cases k with
  | permit =>
    cases hB
    cases hn
    exact hcount
  | base k =>
    have hpos := amount_pos hg
    cases k with
    | transfer toAddr amount => exact holdersMove_eq hpos hcount hB hn
    | transferFrom fromAddr toAddr amount => exact holdersMove_eq hpos hcount hB hn
    | forcedTransfer fromAddr toAddr amount => exact holdersMove_eq hpos hcount hB hn
    | mint toAddr amount =>
      have hcredit := holders_credit hpos hB
      by_cases h0 : s.mBalances toAddr = 0#256
      · have hadd : add s.mHolders 1#256 = .ok n := by rwa [holdersIn, balanceOf, if_pos h0] at hn
        rw [if_pos h0] at hcredit
        exact (add_eq_ok.mp hadd).trans (by rw [hcount]; exact hcredit.symm)
      · rw [holdersIn, balanceOf, if_neg h0] at hn
        rw [if_neg h0] at hcredit
        cases hn
        exact hcount.trans hcredit.symm
    | burn amount =>
      have hdebit := holders_debit hpos hB
      by_cases hall : s.mBalances c.sender = amount
      · have hsub : sub s.mHolders 1#256 = .ok n := by
          rwa [holdersIn, balanceOf, if_pos hall] at hn
        have hone := sub_eq_ok.mp hsub
        rw [if_pos hall] at hdebit
        exact Nat.add_right_cancel (hone.trans (hcount.trans hdebit.symm))
      · rw [holdersIn, balanceOf, if_neg hall] at hn
        rw [if_neg hall] at hdebit
        cases hn
        exact hcount.trans hdebit.symm
    | approve | setFrozenTokens | setSendBlocked | setReceiveBlocked =>
      cases hB
      cases hn
      exact hcount

omit [Zero A] in
theorem holders_deploy (h : Host A) (a : Args A) :
    (deploy h a).mHolders.toNat = holders (deploy h a).mBalances := by
  have hupd := holders_update (fun _ : A => 0#256) a.initialHolder a.initialSupply
  rw [holders_zero] at hupd
  simp only [deploy, ERC7943Min.deploy]
  by_cases h0 : a.initialSupply = 0#256
  · simp_all [counts]
  · have hpos : 0#256 < a.initialSupply := by
      rw [BitVec.lt_def]
      exact CheckedWord.toNat_pos h0
    simp_all [counts]

/-- **The holder count is the number of nonzero balances after every run.** -/
theorem holders_of_run (h : Host A) (a : Args A) (ms : List (Ctx A × Call A)) :
    (run (fun s m => call h s m.1 m.2) (deploy h a) ms).mHolders.toNat =
      holders (run (fun s m => call h s m.1 m.2) (deploy h a) ms).mBalances := by
  refine run_induction (P := fun s : ERC7943 A => s.mHolders.toNat = holders s.mBalances) ?_
    (holders_deploy h a)
  intro s m s' hcount hcall
  exact holders_of_call hcount hcall

end Holders

/-! ### The freeze -/

omit [Zero A] [DecidableEq A] in
/-- A balance is its unfrozen part and its frozen part. -/
theorem unfrozen_add_frozen {frozen balances : A → U256} {x : A} {u : U256}
    (hu : unfrozenOf frozen balances x = .ok u) :
    u.toNat + min (frozen x).toNat (balances x).toNat = (balances x).toNat := by
  have huv := unfrozenOf_eq_ok.mp hu
  omega

/-- The routes a holder, or whoever the holder approved, takes value through. -/
def ownRoute : Call A → Bool
  | .base (.transfer ..) => true
  | .base (.transferFrom ..) => true
  | .base (.burn ..) => true
  | .base (.approve ..) => true
  | _ => false

/-- The freeze of `x` in `s` is kept by `s'`, and is covered by what `x` holds there
    as far as what it holds in `s` covers it. -/
def KeepsFreeze (s s' : ERC7943 A) : Prop :=
  s'.mFrozen = s.mFrozen ∧
    ∀ x, min (s.mFrozen x).toNat (s.mBalances x).toNat ≤ (s'.mBalances x).toNat

omit [Zero A] [DecidableEq A] in
theorem KeepsFreeze.refl (s : ERC7943 A) : KeepsFreeze s s :=
  ⟨rfl, fun _ => Nat.min_le_right _ _⟩

omit [Zero A] [DecidableEq A] in
theorem KeepsFreeze.trans {s₁ s₂ s₃ : ERC7943 A} (h₁ : KeepsFreeze s₁ s₂)
    (h₂ : KeepsFreeze s₂ s₃) : KeepsFreeze s₁ s₃ := by
  refine ⟨h₂.1.trans h₁.1, fun x => ?_⟩
  have hx₁ := h₁.2 x
  have hx₂ := h₂.2 x
  rw [h₁.1] at hx₂
  omega

omit [Zero A] in
/-- Taking from `src` no more than is unfrozen keeps every freeze. -/
theorem min_le_of_taken {frozen balances balances' : A → U256} {src : A} {amount u : U256}
    (hu : unfrozenOf frozen balances src = .ok u) (hle : amount ≤ u)
    (htaken : ∀ x, (balances x).toNat ≤
      (balances' x).toNat + if x = src then amount.toNat else 0) (x : A) :
    min (frozen x).toNat (balances x).toNat ≤ (balances' x).toNat := by
  have huv := unfrozenOf_eq_ok.mp hu
  have hx := htaken x
  rw [BitVec.le_def] at hle
  by_cases hs : x = src
  · subst hs
    rw [if_pos rfl] at hx
    omega
  · rw [if_neg hs] at hx
    omega

theorem keepsFreeze_of_call {k : Call A} (hk : ownRoute k = true)
    (hcall : call h s c k = .ok s') : KeepsFreeze s s' := by
  obtain ⟨hg, supply, balances, allowances, nonces, frozen, n, -, hB, -, -, hF, -, rfl⟩ :=
    call_eq_ok.mp hcall
  cases k with
  | permit => cases hk
  | base k =>
    cases k with
    | transfer toAddr amount =>
      simp only [guard, ERC7943Min.guard, bind_eq_ok, require_eq_ok] at hg
      obtain ⟨-, -, -, -, -, -, -, -, u, hu, hle⟩ := hg
      cases hF
      exact ⟨rfl, min_le_of_taken hu hle (le_of_move hB)⟩
    | transferFrom fromAddr toAddr amount =>
      simp only [guard, ERC7943Min.guard, bind_eq_ok, require_eq_ok] at hg
      obtain ⟨-, -, -, -, -, -, -, -, u, hu, -, hle, -⟩ := hg
      cases hF
      exact ⟨rfl, min_le_of_taken hu hle (le_of_move hB)⟩
    | burn amount =>
      simp only [guard, ERC7943Min.guard, bind_eq_ok, require_eq_ok] at hg
      obtain ⟨-, -, -, -, u, hu, hle⟩ := hg
      cases hF
      exact ⟨rfl, min_le_of_taken hu hle (le_of_debit hB)⟩
    | approve spender amount =>
      cases hF
      cases hB
      exact KeepsFreeze.refl s
    | mint | forcedTransfer | setFrozenTokens | setSendBlocked | setReceiveBlocked => cases hk

/-- A sequence of a holder's own routes keeps the freeze. -/
theorem keepsFreeze_of_run (h : Host A) (s : ERC7943 A) {ms : List (Ctx A × Call A)}
    (hms : ∀ m ∈ ms, ownRoute m.2 = true) :
    KeepsFreeze s (run (fun s m => call h s m.1 m.2) s ms) := by
  induction ms generalizing s with
  | nil => exact KeepsFreeze.refl s
  | cons m ms ih =>
    rw [run_cons]
    have hrest := ih (step (fun s m => call h s m.1 m.2) s m)
      (fun m' hm' => hms m' (List.mem_cons_of_mem _ hm'))
    refine KeepsFreeze.trans ?_ hrest
    rcases step_cases (fun s m => call h s m.1 m.2) s m with hok | hsame
    · exact keepsFreeze_of_call (hms m List.mem_cons_self) hok
    · rw [hsame]
      exact KeepsFreeze.refl s

/-! ### Seizure -/

/-- What a seizure of `amount` from `src` in favour of `dst` makes of `s`. -/
structure Seized (s s' : ERC7943 A) (src dst : A) (amount : U256) : Prop where
  debited : (s'.mBalances src).toNat + amount.toNat = (s.mBalances src).toNat
  credited : (s'.mBalances dst).toNat = (s.mBalances dst).toNat + amount.toNat
  others : ∀ x, x ≠ src → x ≠ dst → s'.mBalances x = s.mBalances x
  frozen_le : ∀ x, (s'.mFrozen x).toNat ≤ (s.mFrozen x).toNat
  unfrozen : ∀ u u', unfrozenOf s.mFrozen s.mBalances src = .ok u →
    unfrozenOf s'.mFrozen s'.mBalances src = .ok u' → u'.toNat = u.toNat - amount.toNat

omit [Zero A] in
/-- The freeze after a seizure: what is left caps it. -/
theorem frozenIn_forcedTransfer {src dst : A} {amount : U256} {frozen : A → U256}
    (hne : dst ≠ src) (hF : frozenIn s (.base (.forcedTransfer src dst amount)) = .ok frozen) :
    ∃ remaining : U256, remaining.toNat + amount.toNat = (s.mBalances src).toNat ∧
      (frozen src).toNat = min (s.mFrozen src).toNat remaining.toNat ∧
      ∀ x, x ≠ src → frozen x = s.mFrozen x := by
  rw [frozenIn, if_neg hne] at hF
  obtain ⟨remaining, hrem, hF⟩ := bind_eq_ok.mp hF
  have hrv := sub_eq_ok.mp hrem
  refine ⟨remaining, hrv, ?_⟩
  by_cases hlt : remaining < frozenOf s.mFrozen src
  · rw [if_pos hlt] at hF
    cases hF
    rw [BitVec.lt_def, frozenOf] at hlt
    refine ⟨by rw [Function.update_self]; omega, fun x hx => Function.update_of_ne hx _ _⟩
  · rw [if_neg hlt] at hF
    cases hF
    rw [BitVec.lt_def, frozenOf] at hlt
    exact ⟨by omega, fun x _ => rfl⟩

theorem seized_of_call {src dst : A} {amount : U256} (hne : dst ≠ src)
    (hcall : call h s c (.base (.forcedTransfer src dst amount)) = .ok s') :
    Seized s s' src dst amount := by
  obtain ⟨-, supply, balances, allowances, nonces, frozen, n, -, hB, -, -, hF, -, rfl⟩ :=
    call_eq_ok.mp hcall
  obtain ⟨f, t, hf, ht, rfl⟩ := (move_eq_ok hne).mp hB
  obtain ⟨remaining, hrem, hsrc, hothers⟩ := frozenIn_forcedTransfer hne hF
  have hbal : Function.update (Function.update s.mBalances src f) dst t src = f := by
    rw [Function.update_of_ne (Ne.symm hne), Function.update_self]
  refine ⟨?_, ?_, ?_, ?_, ?_⟩
  · change (Function.update (Function.update s.mBalances src f) dst t src).toNat + _ = _
    rw [hbal]
    exact hf
  · change (Function.update (Function.update s.mBalances src f) dst t dst).toNat = _
    rw [Function.update_self]
    exact ht
  · intro x hxs hxd
    change Function.update (Function.update s.mBalances src f) dst t x = _
    rw [Function.update_of_ne hxd, Function.update_of_ne hxs]
  · intro x
    change (frozen x).toNat ≤ _
    by_cases hx : x = src
    · subst hx
      omega
    · rw [hothers x hx]
  · intro u u' hu hu'
    have huv := unfrozenOf_eq_ok.mp hu
    have huv' : u'.toNat = (Function.update (Function.update s.mBalances src f) dst t src).toNat -
      (frozen src).toNat := unfrozenOf_eq_ok.mp hu'
    rw [hbal] at huv'
    omega

/-- A seizure from an account in its own favour changes nothing. -/
theorem eq_of_seized_self {src : A} {amount : U256}
    (hcall : call h s c (.base (.forcedTransfer src src amount)) = .ok s') : s' = s := by
  obtain ⟨-, supply, balances, allowances, nonces, frozen, n, hS, hB, hA, hN, hF, hn, rfl⟩ :=
    call_eq_ok.mp hcall
  have hB' : move s.mBalances src src amount = .ok balances := hB
  rw [move_self] at hB'
  rw [frozenIn, if_pos rfl] at hF
  rw [holdersIn, holdersMove, if_pos rfl] at hn
  cases hS
  cases hB'
  cases hA
  cases hN
  cases hF
  cases hn
  rfl

/-- **The holder count and the freeze hold in every reachable state.**  The count is
    the number of nonzero balances; a holder's own routes, one call or many, keep
    the freeze and what it covers; a seizure moves exactly its amount, raises no
    freeze, takes from the unfrozen part first, and changes nothing when both
    parties are one; and a balance is its unfrozen and its frozen part. -/
theorem holders_and_freeze [Fintype A] (h : Host A) (a : Args A) (ms : List (Ctx A × Call A)) :
    let s := run (fun s m => call h s m.1 m.2) (deploy h a) ms
    s.mHolders.toNat = (Finset.univ.filter fun x => s.mBalances x ≠ 0#256).card ∧
    (∀ c k s', ownRoute k = true → call h s c k = .ok s' → KeepsFreeze s s') ∧
    (∀ ms' : List (Ctx A × Call A), (∀ m ∈ ms', ownRoute m.2 = true) →
      KeepsFreeze s (run (fun s m => call h s m.1 m.2) s ms')) ∧
    (∀ c src dst amount s', call h s c (.base (.forcedTransfer src dst amount)) = .ok s' →
      if dst = src then s' = s else Seized s s' src dst amount) ∧
    ∀ x, ∃ u, unfrozenOf s.mFrozen s.mBalances x = .ok u ∧
      u.toNat + min (s.mFrozen x).toNat (s.mBalances x).toNat = (s.mBalances x).toNat := by
  intro s
  refine ⟨holders_of_run h a ms, ?_, ?_, ?_, ?_⟩
  · intro c k s' hk hcall
    exact keepsFreeze_of_call hk hcall
  · intro ms' hms'
    exact keepsFreeze_of_run h s hms'
  · intro c src dst amount s' hcall
    split
    · next heq =>
      subst heq
      exact eq_of_seized_self hcall
    · next hne => exact seized_of_call hne hcall
  · intro x
    obtain ⟨u, hu, -⟩ := unfrozenOf_eq s.mFrozen s.mBalances x
    exact ⟨u, hu, unfrozen_add_frozen hu⟩

end CambrianLang.Stdlib.ERC7943
