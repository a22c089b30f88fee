/-
  **When `ERC4626` answers.**

  Every conversion adds the virtual amounts to the supply and to the assets, and
  no route keeps those two sums inside the type: the constructor has a floor for
  the virtual shares and no ceiling, and anybody may send the vault assets.  A
  vault answers exactly as long as both sums are words (`usable_iff`), and stays
  so through the calls that keep them words (`fits_of_run`).
-/
import CambrianLang.Stdlib.Vault.Price

namespace CambrianLang.Stdlib.ERC4626

open Trapping Ledger SharePrice

variable {A : Type} [DecidableEq A] [Zero A] {h : Host A} {w w' : World (ERC4626 A)}
variable {a : VaultAction A}

/-- The asset answers `true` for every amount it holds for the vault. -/
def Cooperative (w : World (ERC4626 A)) (push : Reply) : Prop :=
  ∀ n : U256, n ≤ w.assets → ∃ r, push n = .ok r ∧ r.ok = true

/-- The vault answers: the conversions of nothing, every preview whose exact result is
    a word, and every redemption by an owner of what it holds. -/
structure Usable (h : Host A) (w : World (ERC4626 A)) : Prop where
  convertToShares : ∃ z, previewDeposit w 0#256 = .ok z
  convertToAssets : ∃ z, previewRedeem w 0#256 = .ok z
  previewDeposit : ∀ x : U256, x.toNat * (supply w + vshares w) / (held w + 1) < 2 ^ 256 →
    ∃ z, previewDeposit w x = .ok z
  previewMint : ∀ x : U256, (x.toNat * (held w + 1)) ⌈/⌉ (supply w + vshares w) < 2 ^ 256 →
    ∃ z, previewMint w x = .ok z
  previewWithdraw : ∀ x : U256, (x.toNat * (supply w + vshares w)) ⌈/⌉ (held w + 1) < 2 ^ 256 →
    ∃ z, previewWithdraw w x = .ok z
  previewRedeem : ∀ x : U256, x.toNat * (held w + 1) / (supply w + vshares w) < 2 ^ 256 →
    ∃ z, previewRedeem w x = .ok z
  redeem : ∀ (c : Ctx A) (x : U256) (receiver : A) (push : Reply), c.sender ≠ zeroAddress →
    receiver ≠ zeroAddress → x ≤ w.vault.mBalances c.sender → Cooperative w push →
      ∃ z, redeem h w c x receiver c.sender push = .ok z

/-- Both sums of the conversions are words. -/
def Fits (w : World (ERC4626 A)) : Prop :=
  SumsFit w.vault.mTotalSupply w.vault.mVirtualShares w.assets

/-- An owner's redemption of what it holds goes through. -/
theorem redeem_isOk [Fintype A] (hv : 0 < vshares w) (hcons : w.vault.Conserved) (hfit : Fits w)
    {c : Ctx A} {x : U256} {receiver : A} {push : Reply} (hs : c.sender ≠ zeroAddress)
    (hr : receiver ≠ zeroAddress) (hx : x ≤ w.vault.mBalances c.sender)
    (hpush : Cooperative w push) : ∃ z, redeem h w c x receiver c.sender push = .ok z := by
  have hxle := BitVec.le_def.mp hx
  have hsum : w.vault.mTotalSupply.toNat = total w.vault.mBalances := hcons
  have hbal := toNat_le_total w.vault.mBalances c.sender
  -- the payout is at most what is held
  have hpay : x.toNat * (w.assets.toNat + 1) /
      (w.vault.mTotalSupply.toNat + w.vault.mVirtualShares.toNat) ≤ w.assets.toNat := by
    apply payout_le
    simp only [vshares] at hv
    omega
  obtain ⟨payout, hpv⟩ := exists_word (hpay.trans_lt w.assets.isLt)
  obtain ⟨t, hburn⟩ := ERC4626Min.burnShares_own_isOk (h := h) hcons hx
  have hsettle := (redeemSettle_eq_ok hv).mpr
    ⟨hfit, hpv, hx, if_pos rfl, hpv ▸ hpay, t, hburn, rfl⟩
  obtain ⟨r, hpr, hrok⟩ := hpush payout (BitVec.le_def.mpr (hpv ▸ hpay))
  obtain ⟨left, hleft⟩ : ∃ l, sendOut c receiver w.assets payout = .ok l :=
    sendOut_isOk c receiver (hpv ▸ hpay)
  simp only [redeem, require_of hr, require_of hs, ok_bind, hsettle, hpr, hleft,
    require_of hrok, pure_eq_ok]
  exact ⟨_, rfl⟩

/-- **A vault answers exactly while both sums are words.** -/
theorem usable_iff [Fintype A] (hv : 0 < vshares w) (hcons : w.vault.Conserved) :
    Usable h w ↔ Fits w := by
  constructor
  · intro hu
    obtain ⟨z, hz⟩ := hu.convertToShares
    exact (offsetSharesDown_eq_ok.mp hz).1
  · intro hfit
    have hzero : (0#256 : U256).toNat = 0 := by simp
    refine ⟨⟨0#256, ?_⟩, ⟨0#256, ?_⟩, ?_, ?_, ?_, ?_, ?_⟩
    · exact offsetSharesDown_eq_ok.mpr ⟨hfit, by rw [hzero, Nat.zero_mul, Nat.zero_div]⟩
    · exact (offsetAssetsDown_eq_ok hv).mpr ⟨hfit, by rw [hzero, Nat.zero_mul, Nat.zero_div]⟩
    · intro x hx
      obtain ⟨z, hz⟩ := exists_word hx
      exact ⟨z, offsetSharesDown_eq_ok.mpr ⟨hfit, hz⟩⟩
    · intro x hx
      obtain ⟨z, hz⟩ := exists_word hx
      exact ⟨z, (offsetAssetsUp_eq_ok hv).mpr ⟨hfit, hz⟩⟩
    · intro x hx
      obtain ⟨z, hz⟩ := exists_word hx
      exact ⟨z, offsetSharesUp_eq_ok.mpr ⟨hfit, hz⟩⟩
    · intro x hx
      obtain ⟨z, hz⟩ := exists_word hx
      exact ⟨z, (offsetAssetsDown_eq_ok hv).mpr ⟨hfit, hz⟩⟩
    · intro c x receiver push hs hr hx hpush
      exact redeem_isOk hv hcons hfit hs hr hx hpush

/-! ### Runs that keep the sums words -/

/-- The action leaves both sums words: what comes in and the shares issued for it do
    not carry them out of the type. -/
def StaysFit (w : World (ERC4626 A)) : VaultAction A → Prop
  | .donate amount => held w + amount.toNat + 1 < 2 ^ 256
  | .call _ (.deposit assets _) pull => ∀ r, pull assets = .ok r →
    held w + r.got.toNat + 1 < 2 ^ 256 ∧
      supply w + r.got.toNat * (supply w + vshares w) / (held w + 1) + vshares w < 2 ^ 256
  | .call _ (.mint shares _) pull => supply w + shares.toNat + vshares w < 2 ^ 256 ∧
    ∀ cost r, mintCost w.vault shares w.assets = .ok cost → pull cost = .ok r →
      held w + r.got.toNat + 1 < 2 ^ 256
  | _ => True

/-- Every action of a run leaves both sums words. -/
def RunStaysFit (h : Host A) (w : World (ERC4626 A)) : List (VaultAction A) → Prop
  | [] => True
  | a :: as => StaysFit w a ∧ RunStaysFit h (step (act h) w a) as

theorem fits_of_act (hv : 0 < vshares w) (hfit : Fits w) (hstay : StaysFit w a)
    (ha : act h w a = .ok w') : Fits w' := by
  have hd := did_of_act hv ha
  have hbefore := hfit
  obtain ⟨hS, hT⟩ := hfit
  cases a with
  | donate amount =>
    simp only [act, bind_eq_ok, pure_eq_ok, Except.ok.injEq] at ha
    obtain ⟨assets, hassets, rfl⟩ := ha
    refine ⟨hS, ?_⟩
    rw [add_eq_ok.mp hassets]
    exact hstay
  | call c k reply =>
    cases k with
    | deposit assets receiver =>
      simp only [act, deposit, bind_eq_ok, require_eq_ok, pure_eq_ok, Except.ok.injEq] at ha
      obtain ⟨-, ⟨-, -, r, hr, after, hafter, ⟨s, issued⟩, hissue, rfl⟩, rfl⟩ := ha
      obtain ⟨-, -, -, hn, t, ht, rfl⟩ := depositIssue_ok hissue
      obtain ⟨hin, hout⟩ := hstay r hr
      have hsum := add_eq_ok.mp hafter
      rw [hsum, Nat.add_sub_cancel_left] at hn
      refine ⟨?_, ?_⟩
      · change t.mTotalSupply.toNat + vshares w < 2 ^ 256
        rw [ERC4626Min.supply_of_issue ht, hn]
        exact hout
      · rw [hsum]
        exact hin
    | mint shares receiver =>
      simp only [act, mint, bind_eq_ok, require_eq_ok, pure_eq_ok, Except.ok.injEq] at ha
      obtain ⟨-, ⟨-, -, cost, hcost, r, hr, after, hafter, s, hissue, rfl⟩, rfl⟩ := ha
      obtain ⟨-, -, t, ht, rfl⟩ := mintIssue_ok hissue
      refine ⟨?_, ?_⟩
      · change t.mTotalSupply.toNat + vshares w < 2 ^ 256
        rw [ERC4626Min.supply_of_issue ht]
        exact hstay.1
      · rw [add_eq_ok.mp hafter]
        exact hstay.2 cost r hcost hr
    | withdraw assets receiver owner | redeem shares receiver owner =>
      -- both sums only fall
      cases hd with
      | issue of => cases of
      | @burn _ _ _ _ n left paid t of burnt allowed went bound =>
        have hsupply := ERC4626Min.supply_of_burn burnt
        refine ⟨?_, ?_⟩
        · change t.mTotalSupply.toNat + vshares w < 2 ^ 256
          simp only [vshares]
          omega
        · change left.toNat + 1 < 2 ^ 256
          omega
    | share k =>
      simp only [act, bind_eq_ok, pure_eq_ok, Except.ok.injEq] at ha
      obtain ⟨t, ht, rfl⟩ := ha
      obtain ⟨-, balances, allowances, -, -, rfl⟩ := ERC4626Min.shareCall_eq_ok.mp ht
      exact hbefore

theorem fits_of_run {as : List (VaultAction A)} (hv : 0 < vshares w) (hfit : Fits w)
    (hstay : RunStaysFit h w as) : Fits (run (act h) w as) := by
  induction as generalizing w with
  | nil => exact hfit
  | cons a as ih =>
    obtain ⟨ha, hrest⟩ := hstay
    rw [run_cons]
    rcases step_cases (act h) w a with hok | hsame
    · have hv' : 0 < vshares (step (act h) w a) := by
        rw [(later_of_act hv hok).vshares_eq]
        exact hv
      exact ih hv' (fits_of_act hv hfit ha hok) hrest
    · rw [hsame] at hrest ⊢
      exact ih hv hfit hrest

/-! ### The claim of the entity -/

/-- **A vault stays usable through the runs that keep its sums words**, and in any state
    it can reach it is usable exactly when they are words. -/
theorem usable_while_sums_fit [Fintype A] (h : Host A) (args : ERC4626Min.Args) (v : U256)
    {s : ERC4626 A} (hd : deploy args v = .ok s) (assets : U256) (as : List (VaultAction A)) :
    let w := run (act h) ⟨s, assets⟩ as
    (assets.toNat + 1 < 2 ^ 256 → RunStaysFit h ⟨s, assets⟩ as → Usable h w) ∧
    (Usable h w ↔ supply w + v.toNat < 2 ^ 256 ∧ held w + 1 < 2 ^ 256) := by
  intro w
  obtain ⟨hsv, hmin, hS, -⟩ := deploy_ok hd
  have hv0 := vshares_pos_of_deploy hd assets
  have hcons : w.vault.Conserved := conserved_of_run hv0 (conserved_of_deploy hd) as
  have hvw : vshares w = v.toNat := by
    rw [(later_of_run (h := h) hv0 as).vshares_eq, vshares, hsv]
  have hvpos : 0 < vshares w := by omega
  have hiff : Usable h w ↔ Fits w := usable_iff hvpos hcons
  refine ⟨?_, ?_⟩
  · intro hassets hstay
    apply hiff.mpr
    refine fits_of_run hv0 ⟨?_, hassets⟩ hstay
    change s.mTotalSupply.toNat + s.mVirtualShares.toNat < 2 ^ 256
    rw [hS, hsv]
    simpa using v.isLt
  · rw [hiff, ← hvw]
    exact Iff.rfl

/-- A vault with the least virtual amount, after a deposit. -/
theorem usable_sample :
    ∃ s : ERC4626 (Fin 4), deploy ⟨"Vault", "V", 18#8⟩ 1000#256 = .ok s ∧
      Usable .sample (run (act .sample) ⟨s, 0#256⟩
        [.call ⟨1, 0#256, 1#256, 3⟩ (.deposit 8#256 1) exactReply]) := by
  refine ⟨_, rfl, (usable_while_sums_fit .sample ⟨"Vault", "V", 18#8⟩ 1000#256 rfl 0#256 _).1
    (by decide) ⟨?_, trivial⟩⟩
  rintro r ⟨rfl⟩
  decide

/-- The greatest virtual amount is accepted; one asset buys as many shares, and from then
    on no conversion answers and the owner redeems nothing. -/
theorem bricked_by_first_deposit :
    ∃ (s : ERC4626 (Fin 4)) (w : World (ERC4626 (Fin 4))),
      deploy ⟨"Vault", "V", 18#8⟩ (BitVec.allOnes 256) = .ok s ∧
      run (act .sample) ⟨s, 0#256⟩
        [.call ⟨1, 0#256, 1#256, 3⟩ (.deposit 1#256 1) exactReply] = w ∧
      previewDeposit w 0#256 = .error .overflow ∧
      previewRedeem w 0#256 = .error .overflow ∧
      redeem .sample w ⟨1, 0#256, 1#256, 3⟩ (BitVec.allOnes 256) 1 1 exactReply =
        .error .overflow ∧
      w.vault.mBalances 1 = BitVec.allOnes 256 ∧ ¬ Usable .sample w := by
  refine ⟨_, _, rfl, rfl, rfl, rfl, rfl, rfl, ?_⟩
  intro hu
  obtain ⟨z, hz⟩ := hu.convertToShares
  cases hz

/-! ### When everybody leaves -/

/-- An owner who leaves: the call, the receiver of the payout and the answer of the asset. -/
structure Leaver (A : Type) where
  ctx : Ctx A
  receiver : A
  push : Reply

/-- An owner redeems all of its shares. -/
def leave (h : Host A) (w : World (ERC4626 A)) (l : Leaver A) : Exec (World (ERC4626 A) × U256) :=
  redeem h w l.ctx (maxRedeem w l.ctx.sender) l.receiver l.ctx.sender l.push

/-- One owner leaves after another; the payouts in the same order. -/
def leaveAll (h : Host A) : World (ERC4626 A) → List (Leaver A) → Exec (World (ERC4626 A) × List U256)
  | w, [] => .ok (w, [])
  | w, l :: ls => do
    let (w', paid) ← leave h w l
    let (w'', rest) ← leaveAll h w' ls
    return (w'', paid :: rest)

/-- What the shares of an account are worth. -/
def worth (w : World (ERC4626 A)) (x : A) : Nat :=
  (w.vault.mBalances x).toNat * (held w + 1) / (supply w + vshares w)

/-- The asset and the receiver do not stand in the way. -/
def Leaver.Free (w : World (ERC4626 A)) (l : Leaver A) : Prop :=
  l.ctx.sender ≠ zeroAddress ∧ l.receiver ≠ zeroAddress ∧ Cooperative w l.push

/-- A leaver is paid what its shares are worth, and takes no shares of the others. -/
theorem leave_spec [Fintype A] (hv : 0 < vshares w) (hcons : w.vault.Conserved) (hfit : Fits w)
    {l : Leaver A} (hl : l.Free w) :
    ∃ w' n a, leave h w l = .ok (w', n) ∧ n.toNat = worth w l.ctx.sender ∧
      act h w a = .ok w' ∧ held w' ≤ held w ∧
      supply w' + (w.vault.mBalances l.ctx.sender).toNat = supply w ∧
        ∀ y, y ≠ l.ctx.sender → (w.vault.mBalances y).toNat ≤ (w'.vault.mBalances y).toNat := by
  obtain ⟨hs, hr, hpush⟩ := hl
  have hle : maxRedeem w l.ctx.sender ≤ w.vault.mBalances l.ctx.sender :=
    BitVec.le_def.mpr (Nat.le_refl _)
  obtain ⟨⟨w', n⟩, hz⟩ := redeem_isOk (h := h) hv hcons hfit hs hr hle hpush
  have hact : act h w (.call l.ctx (.redeem (maxRedeem w l.ctx.sender) l.receiver l.ctx.sender)
      l.push) = .ok w' := by
    rw [act, hz]
    rfl
  have hothers : ∀ y, y ≠ l.ctx.sender →
      (w.vault.mBalances y).toNat ≤ (w'.vault.mBalances y).toNat :=
    fun y hy => others_of_did (by simp [OwnOnly]) (did_of_act hv hact) hy
  refine ⟨w', n, _, hz, ?_, hact, ?_, ?_, hothers⟩
  all_goals
    simp only [redeem, bind_eq_ok, require_eq_ok, pure_eq_ok, Except.ok.injEq, Prod.mk.injEq] at hz
    obtain ⟨-, -, -, -, ⟨s', payout⟩, hsettle, r, -, left, hleft, -, -, rfl, rfl⟩ := hz
    obtain ⟨-, hn, -, -, -, t, hburn, rfl⟩ := (redeemSettle_eq_ok hv).mp hsettle
  · exact hn
  · obtain ⟨paid, -, hpaid⟩ := went_of_sendOut hleft
    simp only [held]
    omega
  · exact ERC4626Min.supply_of_burn hburn

theorem leaveAll_ok [Fintype A] {ls : List (Leaver A)} (hv : 0 < vshares w)
    (hcons : w.vault.Conserved) (hfit : Fits w) (hnodup : (ls.map (·.ctx.sender)).Nodup)
    (hls : ∀ l ∈ ls, l.Free w) :
    ∃ w' paid, leaveAll h w ls = .ok (w', paid) ∧
      List.Forall₂ (fun l n => worth w l.ctx.sender ≤ n.toNat) ls paid ∧
      supply w' + (ls.map fun l => (w.vault.mBalances l.ctx.sender).toNat).sum ≤ supply w := by
  induction ls generalizing w with
  | nil => exact ⟨w, [], rfl, .nil, Nat.le_refl _⟩
  | cons l ls ih =>
    obtain ⟨hl, hrest⟩ := List.forall_mem_cons.mp hls
    rw [List.map_cons, List.nodup_cons] at hnodup
    obtain ⟨w₁, n, a, hz, hn, hact, hheld, hsupply, hothers⟩ := leave_spec (h := h) hv hcons hfit hl
    obtain ⟨hvs, hlater⟩ := later_of_act hv hact
    have hfit₁ : Fits w₁ := by
      simp only [Fits, SumsFit, supply, vshares, held] at *
      omega
    have hkept : ∀ m ∈ ls, (w.vault.mBalances m.ctx.sender).toNat ≤
        (w₁.vault.mBalances m.ctx.sender).toNat := by
      intro m hm
      refine hothers _ fun heq => hnodup.1 ?_
      rw [← heq]
      exact List.mem_map_of_mem hm
    have hfree : ∀ m ∈ ls, m.Free w₁ := by
      intro m hm
      obtain ⟨hs, hr, hpush⟩ := hrest m hm
      exact ⟨hs, hr, fun n hle => hpush n (BitVec.le_def.mpr ((BitVec.le_def.mp hle).trans hheld))⟩
    obtain ⟨w', paid, hrun, hpaid, hgone⟩ := ih (hvs ▸ hv)
      (conserved_of_did hcons (did_of_act hv hact)) hfit₁ hnodup.2 hfree
    refine ⟨w', n :: paid, ?_, .cons hn.ge ?_, ?_⟩
    · simp only [leaveAll, hz, ok_bind, hrun]
      rfl
    · -- what the others' shares are worth has not fallen
      refine List.forall₂_iff_get.mpr ⟨hpaid.length_eq, fun i hi hi' => ?_⟩
      refine le_trans ?_ (hpaid.get hi hi')
      rw [worth, worth, hvs]
      exact quote_le hv hlater (hkept _ (List.get_mem ls _))
    · have hsum := List.sum_le_sum hkept
      rw [List.map_cons, List.sum_cons]
      omega

/-- **A run on the vault**: where its sums fit, the owners can all leave, in any order, each is
    paid what the vault quoted before the first left, and when all have left no share is. -/
theorem everyone_leaves [Fintype A] (h : Host A) (args : ERC4626Min.Args) (v : U256)
    {s : ERC4626 A} (hd : deploy args v = .ok s) (assets : U256) (as : List (VaultAction A))
    (ls : List (Leaver A)) (hnodup : (ls.map (·.ctx.sender)).Nodup) :
    let w := run (act h) ⟨s, assets⟩ as
    Fits w → (∀ l ∈ ls, l.Free w) →
    ∃ w' paid, leaveAll h w ls = .ok (w', paid) ∧
      List.Forall₂ (fun l n => ∀ q, maxWithdraw w l.ctx.sender = .ok q → q ≤ n) ls paid ∧
      ((∀ x, w.vault.mBalances x ≠ 0#256 → x ∈ ls.map (·.ctx.sender)) → supply w' = 0) := by
  intro w hfit hls
  have hv₀ := vshares_pos_of_deploy hd assets
  have hv : 0 < vshares w := (later_of_run (h := h) hv₀ as).vshares_eq ▸ hv₀
  have hcons : w.vault.Conserved := conserved_of_run hv₀ (conserved_of_deploy hd) as
  obtain ⟨w', paid, hrun, hpaid, hgone⟩ := leaveAll_ok (h := h) hv hcons hfit hnodup hls
  refine ⟨w', paid, hrun, hpaid.imp fun l n hle q hq => ?_, fun hall => ?_⟩
  · rw [BitVec.le_def, ((offsetAssetsDown_eq_ok hv).mp hq).2]
    exact hle
  · have hsum : total w.vault.mBalances =
        (ls.map fun l => (w.vault.mBalances l.ctx.sender).toNat).sum := by
      rw [total, ← Finset.sum_subset (Finset.subset_univ (ls.map (·.ctx.sender)).toFinset),
        List.sum_toFinset _ hnodup, List.map_map]
      · rfl
      · intro x _ hx
        by_contra hne
        exact hx (List.mem_toFinset.mpr (hall x fun hzero => hne (by rw [hzero]; rfl)))
    have hsupply : supply w = total w.vault.mBalances := hcons
    omega

theorem everyone_leaves_sample :
    ∃ (s : ERC4626 (Fin 4)) (w' : World (ERC4626 (Fin 4))) (paid : List U256),
      deploy ⟨"Vault", "V", 18#8⟩ 1000#256 = .ok s ∧
      leaveAll .sample (run (act .sample) ⟨s, 0#256⟩
        [.call ⟨1, 0#256, 1#256, 3⟩ (.deposit 8#256 1) exactReply])
        [⟨⟨1, 0#256, 1#256, 3⟩, 2, exactReply⟩] = .ok (w', paid) := by
  obtain ⟨w', paid, hrun, -⟩ := everyone_leaves .sample ⟨"Vault", "V", 18#8⟩ 1000#256 rfl 0#256
    [.call ⟨1, 0#256, 1#256, 3⟩ (.deposit 8#256 1) exactReply]
    [⟨⟨1, 0#256, 1#256, 3⟩, 2, exactReply⟩] (List.nodup_singleton _) ⟨by decide, by decide⟩ (by
      intro l hl
      cases List.mem_singleton.mp hl
      exact ⟨by decide, by decide, fun n _ => ⟨_, rfl, rfl⟩⟩)
  exact ⟨_, w', paid, rfl, hrun⟩

end CambrianLang.Stdlib.ERC4626
