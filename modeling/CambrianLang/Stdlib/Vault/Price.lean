/-
  **The share price of `ERC4626` never falls.**

  The rounding of each conversion makes every action one that does not lower the
  price (`notBelow_of_did`), and the price over whole runs gives the backing of
  the shares, the bound on what a party takes out, and the cost of the
  first-holder attack.
-/
import CambrianLang.Stdlib.Vault.ERC4626

namespace CambrianLang.Stdlib.ERC4626

open Trapping Ledger SharePrice

variable {A : Type} [DecidableEq A] [Zero A] {h : Host A} {w w' : World (ERC4626 A)}
variable {a : VaultAction A}

/-- **No action lowers the price.** -/
theorem notBelow_of_did (hd : Did h w a w') :
    NotBelow (vshares w) (supply w) (held w) (supply w') (held w') := by
  cases hd with
  | @issue c k reply receiver n after t of issued came bound =>
    have hS := ERC4626Min.supply_of_issue issued
    have hT : held w + (after.toNat - w.assets.toNat) = after.toNat := Nat.add_sub_of_le came
    have hprice := NotBelow.enter bound
    rw [hT] at hprice
    change NotBelow (vshares w) (supply w) (held w) t.mTotalSupply.toNat after.toNat
    rw [hS]
    exact hprice
  | @burn c k reply owner n left paid t of burnt allowed went bound =>
    have hS : t.mTotalSupply.toNat + n.toNat = supply w := ERC4626Min.supply_of_burn burnt
    have hT : left.toNat + paid = held w := went
    rw [← hS, ← hT] at bound ⊢
    exact NotBelow.leave bound
  | share did =>
    obtain ⟨-, balances, allowances, -, -, rfl⟩ := ERC4626Min.shareCall_eq_ok.mp did
    exact NotBelow.refl _ _ _
  | @donate amount assets came =>
    have hle : held w ≤ assets.toNat := by
      rw [came]
      exact Nat.le_add_right _ _
    exact NotBelow.gift hle

/-! ### Runs -/

/-- The later state of the same vault: its virtual shares, and a price not below. -/
structure Later (w w' : World (ERC4626 A)) : Prop where
  vshares_eq : vshares w' = vshares w
  notBelow : NotBelow (vshares w) (supply w) (held w) (supply w') (held w')

omit [DecidableEq A] [Zero A] in
theorem Later.trans {w₁ w₂ w₃ : World (ERC4626 A)} (hv : 0 < vshares w₁) (h₁ : Later w₁ w₂)
    (h₂ : Later w₂ w₃) : Later w₁ w₃ := by
  refine ⟨h₂.vshares_eq.trans h₁.vshares_eq, NotBelow.trans hv h₁.notBelow ?_⟩
  rw [← h₁.vshares_eq]
  exact h₂.notBelow

theorem later_of_act (hv : 0 < vshares w) (ha : act h w a = .ok w') : Later w w' := by
  have hd := did_of_act hv ha
  exact ⟨congrArg BitVec.toNat (vshares_of_did hd), notBelow_of_did hd⟩

theorem later_of_run (hv : 0 < vshares w) (as : List (VaultAction A)) : Later w (run (act h) w as) := by
  refine run_induction (P := fun w' => Later w w') ?_ ⟨rfl, NotBelow.refl _ _ _⟩
  intro w₁ a w₂ h₁ hact
  exact h₁.trans hv (later_of_act (by rw [h₁.vshares_eq]; exact hv) hact)

/-- The assets that came in, and those that went out, in the course of a run. -/
def totalIn (h : Host A) (w : World (ERC4626 A)) : List (VaultAction A) → Nat
  | [] => 0
  | a :: as => (held (step (act h) w a) - held w) + totalIn h (step (act h) w a) as

def totalOut (h : Host A) (w : World (ERC4626 A)) : List (VaultAction A) → Nat
  | [] => 0
  | a :: as => (held w - held (step (act h) w a)) + totalOut h (step (act h) w a) as

/-- What is held at the end is what was held, plus what came in, less what went out. -/
theorem held_run (h : Host A) (w : World (ERC4626 A)) (as : List (VaultAction A)) :
    held (run (act h) w as) + totalOut h w as = held w + totalIn h w as := by
  induction as generalizing w with
  | nil => rfl
  | cons a as ih =>
    have hrest := ih (step (act h) w a)
    rw [run_cons, totalIn, totalOut]
    omega

/-! ### Sums -/

section Sums

variable [Fintype A]

theorem conserved_of_did (hs : w.vault.Conserved) (hd : Did h w a w') : w'.vault.Conserved := by
  cases hd with
  | issue of issued => exact ERC4626Min.conserved_of_issue hs issued
  | burn of burnt => exact ERC4626Min.conserved_of_burn hs burnt
  | share did => exact ERC4626Min.conserved_of_share hs did
  | donate => exact hs

end Sums

/-! ### One account on its own -/

/-- The account `p` acts, and spends no shares but its own. -/
def OwnOnly (p : A) : VaultAction A → Prop
  | .donate _ => True
  | .call c (.withdraw _ _ owner) _ => c.sender = p ∧ owner = p
  | .call c (.redeem _ _ owner) _ => c.sender = p ∧ owner = p
  | .call c (.share (.transferFrom fromAddr _ _)) _ => c.sender = p ∧ fromAddr = p
  | .call c _ _ => c.sender = p

/-- Nobody else loses shares. -/
theorem others_of_did {p : A} (ho : OwnOnly p a) (hd : Did h w a w') {x : A} (hx : x ≠ p) :
    (w.vault.mBalances x).toNat ≤ (w'.vault.mBalances x).toNat := by
  cases hd with
  | issue of issued =>
    obtain ⟨n, supply, balances, -, -, hB, rfl⟩ := ERC4626Min.issueShares_eq_ok.mp issued
    exact le_of_credit hB x
  | @burn c k reply owner n left paid t of burnt allowed went bound =>
    obtain ⟨n', supply, balances, rest, -, -, hB, -, rfl⟩ := ERC4626Min.burnShares_eq_ok.mp burnt
    have howner : owner = p := by
      cases k with
      | withdraw => cases of; exact ho.2
      | redeem => cases of; exact ho.2
      | deposit | mint | share => cases of
    have hle := le_of_debit hB x
    rw [howner, if_neg hx] at hle
    exact hle
  | @share c k reply t did =>
    obtain ⟨-, balances, allowances, hB, -, rfl⟩ := ERC4626Min.shareCall_eq_ok.mp did
    cases k with
    | transfer toAddr amount =>
      have hle := le_of_move hB x
      rw [show c.sender = p from ho, if_neg hx] at hle
      exact hle
    | transferFrom fromAddr toAddr amount =>
      have hle := le_of_move hB x
      rw [ho.2, if_neg hx] at hle
      exact hle
    | approve spender amount =>
      cases hB
      exact Nat.le_refl _
  | donate => exact Nat.le_refl _

theorem others_of_run {p : A} (hv : 0 < vshares w) {as : List (VaultAction A)}
    (ho : ∀ a ∈ as, OwnOnly p a) {x : A} (hx : x ≠ p) :
    (w.vault.mBalances x).toNat ≤ ((run (act h) w as).vault.mBalances x).toNat := by
  induction as generalizing w with
  | nil => exact Nat.le_refl _
  | cons a as ih =>
    have hrest : ∀ a' ∈ as, OwnOnly p a' := fun a' ha' => ho a' (List.mem_cons_of_mem _ ha')
    rw [run_cons]
    rcases step_cases (act h) w a with hok | hsame
    · have hd := did_of_act hv hok
      have hstep := others_of_did (ho a List.mem_cons_self) hd hx
      have hv' : 0 < vshares (step (act h) w a) := by
        rw [vshares, vshares_of_did hd]
        exact hv
      exact hstep.trans (ih hv' hrest)
    · rw [hsame]
      exact ih hv hrest

/-! ### The claims of the entity -/

variable [Fintype A]

omit [DecidableEq A] [Zero A] [Fintype A] in
/-- A vault that its constructor accepted has virtual shares and no others. -/
theorem deploy_ok {args : ERC4626Min.Args} {v : U256} {s : ERC4626 A} (hd : deploy args v = .ok s) :
    s.mVirtualShares = v ∧ 1000 ≤ v.toNat ∧ s.mTotalSupply = 0#256 ∧ s.mBalances = fun _ => 0#256 := by
  simp only [deploy, bind_eq_ok, require_eq_ok, pure_eq_ok, Except.ok.injEq] at hd
  obtain ⟨-, hmin, rfl⟩ := hd
  exact ⟨rfl, BitVec.le_def.mp hmin, rfl, rfl⟩

omit [DecidableEq A] [Zero A] [Fintype A] in
theorem vshares_pos_of_deploy {args : ERC4626Min.Args} {v : U256} {s : ERC4626 A}
    (hd : deploy args v = .ok s) (assets : U256) :
    0 < vshares (⟨s, assets⟩ : World (ERC4626 A)) := by
  obtain ⟨hsv, hmin, -⟩ := deploy_ok hd
  rw [vshares, hsv]
  omega

omit [DecidableEq A] [Zero A] in
theorem conserved_of_deploy {args : ERC4626Min.Args} {v : U256} {s : ERC4626 A}
    (hd : deploy args v = .ok s) : s.Conserved := by
  obtain ⟨-, -, hS, hB⟩ := deploy_ok hd
  rw [ERC4626Min.Conserved, hS, hB, total_zero]
  rfl

theorem conserved_of_run (hv : 0 < vshares w) (hs : w.vault.Conserved) (as : List (VaultAction A)) :
    (run (act h) w as).vault.Conserved := by
  have hinv : 0 < vshares (run (act h) w as) ∧ (run (act h) w as).vault.Conserved := by
    refine run_induction (P := fun w' => 0 < vshares w' ∧ w'.vault.Conserved) ?_ ⟨hv, hs⟩
    intro w₁ a w₂ hw₁ hact
    have hd := did_of_act hw₁.1 hact
    refine ⟨?_, conserved_of_did hw₁.2 hd⟩
    rw [vshares, vshares_of_did hd]
    exact hw₁.1
  exact hinv.2

/-- **The share price never falls.**  In every state a vault can reach the supply is
    the sum of the balances, the virtual shares are those of the constructor and
    the shares are backed; every action that succeeds there leaves a price not
    below the one it found, and one that fails leaves the state; nobody takes out
    of a new vault more than was put in, nor out of an old one more than it puts
    in itself, when it holds nothing there and spends its own. -/
theorem share_price_never_falls (h : Host A) (args : ERC4626Min.Args) (v : U256) {s : ERC4626 A}
    (hd : deploy args v = .ok s) (assets : U256) (as : List (VaultAction A)) :
    let w := run (act h) ⟨s, assets⟩ as
    w.vault.mTotalSupply.toNat = ∑ x, (w.vault.mBalances x).toNat ∧
    w.vault.mVirtualShares = v ∧
    supply w ≤ v.toNat * held w ∧
    (∀ a w', act h w a = .ok w' →
      (held w + 1) * (supply w' + v.toNat) ≤ (held w' + 1) * (supply w + v.toNat)) ∧
    (∀ a e, act h w a = .error e → step (act h) w a = w) ∧
    totalOut h ⟨s, 0#256⟩ as ≤ totalIn h ⟨s, 0#256⟩ as ∧
    ∀ (p : A) (as' : List (VaultAction A)), w.vault.mBalances p = 0#256 →
      (∀ a ∈ as', OwnOnly p a) → totalOut h w as' ≤ totalIn h w as' := by
  intro w
  obtain ⟨hsv, hmin, hS, -⟩ := deploy_ok hd
  have hv0 := vshares_pos_of_deploy hd assets
  have hlater : Later ⟨s, assets⟩ w := later_of_run hv0 as
  have hvw : vshares w = v.toNat := by rw [hlater.vshares_eq, vshares, hsv]
  have hvpos : 0 < vshares w := by omega
  have hzero : supply (⟨s, assets⟩ : World (ERC4626 A)) = 0 := by
    rw [supply, hS]
    rfl
  have hcons : w.vault.Conserved := conserved_of_run hv0 (conserved_of_deploy hd) as
  refine ⟨hcons, BitVec.eq_of_toNat_eq hvw, ?_, ?_, fun a e he => step_of_error he, ?_, ?_⟩
  · have hprice := hlater.notBelow
    rw [hzero, vshares, hsv] at hprice
    exact backed hprice
  · intro a w' ha
    have hstep := (later_of_act hvpos ha).notBelow
    rw [hvw] at hstep
    exact hstep
  · have hflow := held_run h ⟨s, 0#256⟩ as
    have hnone : held (⟨s, 0#256⟩ : World (ERC4626 A)) = 0 := rfl
    omega
  · intro p as' hp ho
    -- the shares of the others are all there were, and they are still there
    have hshares : supply w ≤ supply (run (act h) w as') := by
      have hcons' := conserved_of_run (h := h) hvpos hcons as'
      rw [supply, supply, hcons, hcons']
      apply total_le_total
      intro x
      by_cases hx : x = p
      · rw [hx, hp]
        exact Nat.zero_le _
      · exact others_of_run hvpos ho hx
    have hassets := assets_le hvpos (later_of_run (h := h) hvpos as').notBelow hshares
    have hflow := held_run h w as'
    omega

/-- A vault with the least virtual amount, after a donation and a deposit. -/
theorem share_price_sample :
    ∃ s : ERC4626 (Fin 4), deploy ⟨"Vault", "V", 18#8⟩ 1000#256 = .ok s ∧
      supply (run (act .sample) ⟨s, 0#256⟩
          [.donate 7#256, .call ⟨1, 0#256, 1#256, 3⟩ (.deposit 8#256 1) fun n => .ok ⟨true, n⟩]) ≤
        1000 * held (run (act .sample) ⟨s, 0#256⟩
          [.donate 7#256, .call ⟨1, 0#256, 1#256, 3⟩ (.deposit 8#256 1) fun n => .ok ⟨true, n⟩]) :=
  ⟨_, rfl, (share_price_never_falls .sample ⟨"Vault", "V", 18#8⟩ 1000#256 rfl 0#256 _).2.2.1⟩

/-! ### The first-holder attack -/

omit [Fintype A] in
/-- **Zeroing a deposit costs about `v` times the deposit.**  Whatever was done to a new
    vault before a deposit of `x` that was credited no share, and whatever is done
    after it, those who did it paid in at least `(v - 1) · x - 1` more than they
    got back. -/
theorem zeroed_deposit_costs (h : Host A) (args : ERC4626Min.Args) (v : U256) {s : ERC4626 A}
    (hd : deploy args v = .ok s) (before after : List (VaultAction A)) (x : U256) (receiver : A)
    {w' : World (ERC4626 A)}
    (hdep : deposit (run (act h) ⟨s, 0#256⟩ before) x receiver exactReply = .ok (w', 0#256)) :
    (v.toNat - 1) * x.toNat + (totalOut h ⟨s, 0#256⟩ before + totalOut h w' after) ≤
      totalIn h ⟨s, 0#256⟩ before + totalIn h w' after + 1 := by
  obtain ⟨hsv, hmin, hS, -⟩ := deploy_ok hd
  have hv0 := vshares_pos_of_deploy hd 0#256
  have hlater := later_of_run (h := h) hv0 before
  have hflow := held_run h ⟨s, 0#256⟩ before
  have hnone : held (⟨s, 0#256⟩ : World (ERC4626 A)) = 0 := rfl
  generalize run (act h) ⟨s, 0#256⟩ before = w at hdep hlater hflow
  have hvw : vshares w = v.toNat := by rw [hlater.vshares_eq, vshares, hsv]
  have hvpos : 0 < vshares w := by omega
  -- the deposit was worth less than a share
  simp only [deposit, exactReply, bind_eq_ok, require_eq_ok, pure_eq_ok, Except.ok.injEq,
    Prod.mk.injEq] at hdep
  obtain ⟨-, -, r, rfl, assets, hassets, ⟨t, issued⟩, hissue, rfl, rfl⟩ := hdep
  have hsum : assets.toNat = held w + x.toNat := add_eq_ok.mp hassets
  obtain ⟨-, -, -, hn, t', ht', rfl⟩ := depositIssue_ok hissue
  have hsupply := ERC4626Min.supply_of_issue ht'
  have hworth : x.toNat * (supply w + vshares w) < held w + 1 := by
    have hdiv : x.toNat * (supply w + vshares w) / (held w + 1) = 0 := by
      have hgot : assets.toNat - w.assets.toNat = x.toNat := by
        rw [hsum]
        exact Nat.add_sub_cancel_left _ _
      rw [hgot] at hn
      exact hn.symm
    exact (Nat.div_eq_zero_iff_lt (Nat.succ_pos _)).mp hdiv
  -- and from there the price stands
  generalize hw₁ : (⟨{ w.vault with toERC4626Min := t' }, assets⟩ : World (ERC4626 A)) = w₁
  have hv₁ : vshares w₁ = v.toNat := by
    rw [← hvw, ← hw₁]
    rfl
  have hS₁ : supply w₁ = supply w := by
    rw [← hw₁]
    exact hsupply
  have hT₁ : held w₁ = held w + x.toNat := by
    rw [← hw₁]
    exact hsum
  have hend := (later_of_run (h := h) (w := w₁) (by omega) after).notBelow
  have hflow' := held_run h w₁ after
  rw [hS₁, hT₁, hv₁] at hend
  rw [hvw] at hworth
  have hcost := zeroing_cost (by omega) hworth hend
  have hsplit : v.toNat * x.toNat = (v.toNat - 1) * x.toNat + x.toNat := by
    rw [← Nat.succ_mul, Nat.succ_eq_add_one, Nat.sub_add_cancel (by omega)]
  omega

/-- A donation of `1000` zeroes a deposit of `1`. -/
theorem zeroed_deposit_sample :
    ∃ s w', deploy (A := Fin 4) ⟨"Vault", "V", 18#8⟩ 1000#256 = .ok s ∧
      deposit (run (act .sample) ⟨s, 0#256⟩ [.donate 1000#256]) 1#256 1 exactReply =
        .ok (w', 0#256) ∧
      999 * 1 + (totalOut .sample ⟨s, 0#256⟩ [.donate 1000#256] + totalOut .sample w' []) ≤
        totalIn .sample ⟨s, 0#256⟩ [.donate 1000#256] + totalIn .sample w' [] + 1 :=
  ⟨_, _, rfl, rfl, zeroed_deposit_costs .sample ⟨"Vault", "V", 18#8⟩ 1000#256 rfl
    [.donate 1000#256] [] 1#256 1 rfl⟩

end CambrianLang.Stdlib.ERC4626
