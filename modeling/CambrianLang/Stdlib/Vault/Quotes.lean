/-
  **The vaults honour their quotes.**

  A preview and the write it quotes compute the same conversion of the same
  state, so a trade settles at its quote (`Trading.Honoured`); the limits are
  what the two opposite roundings of one price leave an owner.
-/
import CambrianLang.Stdlib.Vault.ERC4626Min
import CambrianLang.Stdlib.Vault.Price

namespace CambrianLang.Stdlib

open Trapping Ledger

/-- The routes of a vault that trade, and those that quote and limit them. -/
structure Trading (V A : Type) where
  ledger : V → ERC4626Min A
  deposit : World V → U256 → A → Reply → Exec (World V × U256)
  mint : World V → U256 → A → Reply → Exec (World V × U256)
  withdraw : World V → Ctx A → U256 → A → A → Reply → Exec (World V × U256)
  redeem : World V → Ctx A → U256 → A → A → Reply → Exec (World V × U256)
  previewDeposit : World V → U256 → Exec U256
  previewMint : World V → U256 → Exec U256
  previewWithdraw : World V → U256 → Exec U256
  previewRedeem : World V → U256 → Exec U256
  maxWithdraw : World V → A → Exec U256
  maxRedeem : World V → A → U256

/-- `shares` were issued to the receiver and `assets` came in. -/
structure Entered {A : Type} (s s' : ERC4626Min A) (T T' : U256) (receiver : A)
    (shares assets : U256) : Prop where
  supply : s'.mTotalSupply.toNat = s.mTotalSupply.toNat + shares.toNat
  balance : (s'.mBalances receiver).toNat = (s.mBalances receiver).toNat + shares.toNat
  moved : T'.toNat = T.toNat + assets.toNat

/-- `shares` of the owner were burnt and `assets` went to the receiver. -/
structure Left {A : Type} [DecidableEq A] (c : Ctx A) (s s' : ERC4626Min A) (T T' : U256)
    (receiver owner : A) (shares assets : U256) : Prop where
  supply : s'.mTotalSupply.toNat + shares.toNat = s.mTotalSupply.toNat
  balance : (s'.mBalances owner).toNat + shares.toNat = (s.mBalances owner).toNat
  moved : T'.toNat + (if receiver = c.address then 0 else assets.toNat) = T.toNat

section Trades

variable {A : Type} [DecidableEq A] {h : Host A} {c : Ctx A} {s s' : ERC4626Min A}
variable {T T' n x : U256} {receiver owner : A}

theorem Entered.of_issue (hi : ERC4626Min.issueShares s receiver (.ok n) = .ok s')
    (hT : add T x = .ok T') : Entered s s' T T' receiver n x :=
  ⟨ERC4626Min.supply_of_issue hi, ERC4626Min.balance_of_issue hi, add_eq_ok.mp hT⟩

theorem Left.of_burn (hb : ERC4626Min.burnShares h s c owner (.ok n) = .ok s')
    (hT : sendOut c receiver T x = .ok T') : Left c s s' T T' receiver owner n x :=
  ⟨ERC4626Min.supply_of_burn hb, ERC4626Min.balance_of_burn hb, (sendOut_eq_ok.mp hT).2⟩

end Trades

namespace Trading

variable {V A : Type} [DecidableEq A] [Zero A]

/-- Trades settle at their quotes with an asset that moves exactly what it is asked to;
    an owner that takes its limit is stopped by no guard on shares or assets, and
    one that asks for more shares is stopped. -/
structure Honoured (I : Trading V A) (w : World V) : Prop where
  deposit : ∀ x receiver w' n, I.deposit w x receiver exactReply = .ok (w', n) →
    I.previewDeposit w x = .ok n ∧
      Entered (I.ledger w.vault) (I.ledger w'.vault) w.assets w'.assets receiver n x
  mint : ∀ x receiver w' n, I.mint w x receiver exactReply = .ok (w', n) →
    I.previewMint w x = .ok n ∧
      Entered (I.ledger w.vault) (I.ledger w'.vault) w.assets w'.assets receiver x n
  withdraw : ∀ c x receiver owner w' n,
    I.withdraw w c x receiver owner exactReply = .ok (w', n) →
      I.previewWithdraw w x = .ok n ∧
        Left c (I.ledger w.vault) (I.ledger w'.vault) w.assets w'.assets receiver owner n x
  redeem : ∀ c x receiver owner w' n,
    I.redeem w c x receiver owner exactReply = .ok (w', n) →
      I.previewRedeem w x = .ok n ∧
        Left c (I.ledger w.vault) (I.ledger w'.vault) w.assets w'.assets receiver owner x n
  maxWithdraw : ∀ c x receiver, c.sender ≠ zeroAddress → receiver ≠ zeroAddress →
    I.maxWithdraw w c.sender = .ok x →
      ∃ z, I.withdraw w c x receiver c.sender exactReply = .ok z
  maxRedeem : ∀ c receiver, c.sender ≠ zeroAddress → receiver ≠ zeroAddress →
    (∃ z, I.redeem w c (I.maxRedeem w c.sender) receiver c.sender exactReply = .ok z) ∨
      I.redeem w c (I.maxRedeem w c.sender) receiver c.sender exactReply = .error .overflow
  aboveMax : ∀ c x receiver owner push, I.maxRedeem w owner < x →
    I.redeem w c x receiver owner push =
      .error (if receiver = zeroAddress ∨ owner = zeroAddress then .thrown 20
        else if (I.previewRedeem w x).isOk then .thrown 21 else .overflow)

end Trading

variable {A : Type} [DecidableEq A] [Zero A]

namespace ERC4626Min

/-- The trading routes of `ERC4626Min`. -/
def trading (h : Host A) : Trading (ERC4626Min A) A where
  ledger := id
  deposit := deposit
  mint := mint
  withdraw := withdraw h
  redeem := redeem h
  previewDeposit := previewDeposit
  previewMint := previewMint
  previewWithdraw := previewWithdraw
  previewRedeem := previewRedeem
  maxWithdraw := maxWithdraw
  maxRedeem := maxRedeem

variable {h : Host A} {w : World (ERC4626Min A)} {c : Ctx A} {receiver owner : A} {x n : U256}

/-- An owner withdraws up to its limit. -/
theorem withdraw_max_isOk [Fintype A] (hs : w.vault.Conserved) (hsender : c.sender ≠ zeroAddress)
    (hreceiver : receiver ≠ zeroAddress) (hx : maxWithdraw w c.sender = .ok x) :
    ∃ z, withdraw h w c x receiver c.sender exactReply = .ok z := by
  have hle := ERC4626Min.balance_le_supply hs c.sender
  obtain ⟨hheld, n, hn, hnle⟩ := ratio_round_trip hle hx
  have hbal : n ≤ balanceOf w.vault.mBalances c.sender := BitVec.le_def.mpr hnle
  obtain ⟨t, ht⟩ := burnShares_own_isOk (h := h) hs hbal
  obtain ⟨left, hleft⟩ := sendOut_isOk c receiver hheld
  have hallowed : shareSpendAllowed h w.vault.mAllowances c.sender c.sender n = true := if_pos rfl
  simp only [withdraw, require_of hreceiver, require_of hsender, ok_bind, hn,
    require_of (BitVec.le_def.mpr hheld), require_of hbal, require_of hallowed, ht, exactReply,
    hleft, pure_eq_ok]
  exact ⟨_, rfl⟩

/-- An owner redeems all it holds. -/
theorem redeem_max_isOk [Fintype A] (hs : w.vault.Conserved) (hsender : c.sender ≠ zeroAddress)
    (hreceiver : receiver ≠ zeroAddress) :
    ∃ z, redeem h w c (maxRedeem w c.sender) receiver c.sender exactReply = .ok z := by
  have hle : (maxRedeem w c.sender).toNat ≤ w.vault.mTotalSupply.toNat :=
    ERC4626Min.balance_le_supply hs c.sender
  obtain ⟨payout, hpayout⟩ := ratioAssetsDown_isOk w.assets hle
  obtain ⟨hheld, -⟩ := ratio_round_trip hle hpayout
  have hbal : maxRedeem w c.sender ≤ balanceOf w.vault.mBalances c.sender := BitVec.le_refl _
  obtain ⟨t, ht⟩ := burnShares_own_isOk (h := h) hs hbal
  obtain ⟨left, hleft⟩ := sendOut_isOk c receiver hheld
  have hallowed : shareSpendAllowed h w.vault.mAllowances c.sender c.sender
      (maxRedeem w c.sender) = true := if_pos rfl
  simp only [redeem, require_of hreceiver, require_of hsender, ok_bind, hpayout,
    require_of hbal, require_of hallowed, ht, exactReply, hleft, pure_eq_ok]
  exact ⟨_, rfl⟩

/-- Nobody redeems more than the owner holds. -/
theorem redeem_above_max {push : Reply} (hx : maxRedeem w owner < x) :
    redeem h w c x receiver owner push =
      .error (if receiver = zeroAddress ∨ owner = zeroAddress then .thrown 20
        else if (previewRedeem w x).isOk then .thrown 21 else .overflow) := by
  have hbal : ¬ x ≤ balanceOf w.vault.mBalances owner := BitVec.not_le.mpr hx
  by_cases hr : receiver = zeroAddress
  · rw [if_pos (.inl hr), redeem, require_of_not (not_not_intro hr), error_bind]
  by_cases ho : owner = zeroAddress
  · rw [if_pos (.inr ho), redeem, require_of hr, ok_bind, require_of_not (not_not_intro ho),
      error_bind]
  rw [if_neg (not_or_intro hr ho), redeem, require_of hr, require_of ho, previewRedeem]
  cases hp : ratioAssetsDown x w.vault.mTotalSupply w.assets with
  | ok payout => simp only [ok_bind, require_of_not hbal, error_bind, Except.isOk, Except.toBool, if_true]
  | error e =>
    rw [ratioAssetsDown_error hp]
    rfl

theorem honoured [Fintype A] (hs : w.vault.Conserved) : (trading h).Honoured w where
  deposit x receiver w' n hd := by
    obtain ⟨hissued, hissue, r, hr, hafter⟩ := deposit_ok hd
    cases hr
    exact ⟨hissued, .of_issue hissue hafter⟩
  mint x receiver w' n hm := by
    obtain ⟨hcost, hissue, r, hr, hafter⟩ := mint_ok hm
    cases hr
    exact ⟨hcost, .of_issue hissue hafter⟩
  withdraw c x receiver owner w' n hw := by
    obtain ⟨hburnt, hburn, hleft⟩ := withdraw_ok hw
    exact ⟨hburnt, .of_burn hburn hleft⟩
  redeem c x receiver owner w' n hr := by
    obtain ⟨hpayout, hburn, hleft⟩ := redeem_ok hr
    exact ⟨hpayout, .of_burn hburn hleft⟩
  maxWithdraw _ _ _ hsender hreceiver hx := withdraw_max_isOk hs hsender hreceiver hx
  maxRedeem _ _ hsender hreceiver := .inl (redeem_max_isOk hs hsender hreceiver)
  aboveMax _ _ _ _ _ hx := redeem_above_max hx

end ERC4626Min

namespace ERC4626

/-- The trading routes of `ERC4626`. -/
def trading (h : Host A) : Trading (ERC4626 A) A where
  ledger := ERC4626.toERC4626Min
  deposit := deposit
  mint := mint
  withdraw := withdraw h
  redeem := redeem h
  previewDeposit := previewDeposit
  previewMint := previewMint
  previewWithdraw := previewWithdraw
  previewRedeem := previewRedeem
  maxWithdraw := maxWithdraw
  maxRedeem := maxRedeem

variable {h : Host A} {w w' : World (ERC4626 A)} {c : Ctx A} {receiver owner : A} {x n : U256}

theorem deposit_exact (hd : deposit w x receiver exactReply = .ok (w', n)) :
    previewDeposit w x = .ok n ∧
      Entered w.vault.toERC4626Min w'.vault.toERC4626Min w.assets w'.assets receiver n x := by
  simp only [deposit, exactReply, bind_eq_ok, require_eq_ok, pure_eq_ok, Except.ok.injEq,
    Prod.mk.injEq] at hd
  obtain ⟨-, -, r, rfl, after, hafter, ⟨s, issued⟩, hissue, rfl, rfl⟩ := hd
  obtain ⟨-, -, hfit, hn, t, ht, rfl⟩ := depositIssue_ok hissue
  refine ⟨offsetSharesDown_eq_ok.mpr ⟨hfit, ?_⟩, .of_issue ht hafter⟩
  -- what arrived is what was asked for
  rw [add_eq_ok.mp hafter, Nat.add_sub_cancel_left] at hn
  exact hn

theorem mint_exact (hm : mint w x receiver exactReply = .ok (w', n)) :
    previewMint w x = .ok n ∧
      Entered w.vault.toERC4626Min w'.vault.toERC4626Min w.assets w'.assets receiver x n := by
  simp only [mint, exactReply, bind_eq_ok, require_eq_ok, pure_eq_ok, Except.ok.injEq,
    Prod.mk.injEq] at hm
  obtain ⟨-, -, cost, hcost, r, rfl, after, hafter, s, hissue, rfl, rfl⟩ := hm
  obtain ⟨-, -, t, ht, rfl⟩ := mintIssue_ok hissue
  exact ⟨hcost, .of_issue ht hafter⟩

theorem withdraw_exact (hw : withdraw h w c x receiver owner exactReply = .ok (w', n)) :
    previewWithdraw w x = .ok n ∧
      Left c w.vault.toERC4626Min w'.vault.toERC4626Min w.assets w'.assets receiver owner n x := by
  simp only [withdraw, bind_eq_ok, require_eq_ok, pure_eq_ok, Except.ok.injEq,
    Prod.mk.injEq] at hw
  obtain ⟨-, -, -, -, ⟨s, burnt⟩, hsettle, r, -, left, hleft, -, -, rfl, rfl⟩ := hw
  obtain ⟨hfit, hn, -, -, -, t, ht, rfl⟩ := withdrawSettle_eq_ok.mp hsettle
  exact ⟨offsetSharesUp_eq_ok.mpr ⟨hfit, hn⟩, .of_burn ht hleft⟩

theorem redeem_exact (hv : 0 < vshares w)
    (hr : redeem h w c x receiver owner exactReply = .ok (w', n)) :
    previewRedeem w x = .ok n ∧
      Left c w.vault.toERC4626Min w'.vault.toERC4626Min w.assets w'.assets receiver owner x n := by
  simp only [redeem, bind_eq_ok, require_eq_ok, pure_eq_ok, Except.ok.injEq,
    Prod.mk.injEq] at hr
  obtain ⟨-, -, -, -, ⟨s, payout⟩, hsettle, r, -, left, hleft, -, -, rfl, rfl⟩ := hr
  obtain ⟨hfit, hn, -, -, -, t, ht, rfl⟩ := (redeemSettle_eq_ok hv).mp hsettle
  exact ⟨(offsetAssetsDown_eq_ok hv).mpr ⟨hfit, hn⟩, .of_burn ht hleft⟩

/-- An owner withdraws up to its limit. -/
theorem withdraw_max_isOk [Fintype A] (hv : 0 < vshares w) (hs : w.vault.Conserved)
    (hsender : c.sender ≠ zeroAddress) (hreceiver : receiver ≠ zeroAddress)
    (hx : maxWithdraw w c.sender = .ok x) :
    ∃ z, withdraw h w c x receiver c.sender exactReply = .ok z := by
  have hle := ERC4626Min.balance_le_supply hs c.sender
  obtain ⟨hheld, n, hn, hnle⟩ := offset_round_trip hv hle hx
  obtain ⟨hfit, hval⟩ := offsetSharesUp_eq_ok.mp hn
  have hbal : n ≤ balanceOf w.vault.mBalances c.sender := BitVec.le_def.mpr hnle
  obtain ⟨t, ht⟩ := ERC4626Min.burnShares_own_isOk (h := h) hs hbal
  obtain ⟨left, hleft⟩ := sendOut_isOk c receiver hheld
  have hsettle := withdrawSettle_eq_ok.mpr
    ⟨hfit, hval, hheld, hbal, if_pos rfl, t, ht, rfl⟩
  simp only [withdraw, require_of hreceiver, require_of hsender, ok_bind, hsettle, exactReply,
    hleft, pure_eq_ok]
  exact ⟨_, rfl⟩

/-- An owner redeems all it holds, unless the sums of the price overflow. -/
theorem redeem_max_isOk_or [Fintype A] (hv : 0 < vshares w) (hs : w.vault.Conserved)
    (hsender : c.sender ≠ zeroAddress) (hreceiver : receiver ≠ zeroAddress) :
    (∃ z, redeem h w c (maxRedeem w c.sender) receiver c.sender exactReply = .ok z) ∨
      redeem h w c (maxRedeem w c.sender) receiver c.sender exactReply = .error .overflow := by
  have hle : (maxRedeem w c.sender).toNat ≤ w.vault.mTotalSupply.toNat :=
    ERC4626Min.balance_le_supply hs c.sender
  cases hp : offsetAssetsDown (maxRedeem w c.sender) w.vault.mTotalSupply w.vault.mVirtualShares
      w.assets with
  | error e =>
    right
    simp only [redeem, redeemSettle, require_of hreceiver, require_of hsender, ok_bind, hp,
      error_bind, offsetAssetsDown_error hv hp]
  | ok payout =>
    left
    obtain ⟨hheld, -⟩ := offset_round_trip hv hle hp
    obtain ⟨hfit, hval⟩ := (offsetAssetsDown_eq_ok hv).mp hp
    have hbal : maxRedeem w c.sender ≤ balanceOf w.vault.mBalances c.sender := BitVec.le_refl _
    obtain ⟨t, ht⟩ := ERC4626Min.burnShares_own_isOk (h := h) hs hbal
    obtain ⟨left, hleft⟩ := sendOut_isOk c receiver hheld
    have hsettle := (redeemSettle_eq_ok hv).mpr
      ⟨hfit, hval, hbal, if_pos rfl, hheld, t, ht, rfl⟩
    simp only [redeem, require_of hreceiver, require_of hsender, ok_bind, hsettle, exactReply,
      hleft, pure_eq_ok]
    exact ⟨_, rfl⟩

/-- Nobody redeems more than the owner holds. -/
theorem redeem_above_max (hv : 0 < vshares w) {push : Reply} (hx : maxRedeem w owner < x) :
    redeem h w c x receiver owner push =
      .error (if receiver = zeroAddress ∨ owner = zeroAddress then .thrown 20
        else if (previewRedeem w x).isOk then .thrown 21 else .overflow) := by
  have hbal : ¬ x ≤ balanceOf w.vault.mBalances owner := BitVec.not_le.mpr hx
  by_cases hr : receiver = zeroAddress
  · rw [if_pos (.inl hr), redeem, require_of_not (not_not_intro hr), error_bind]
  by_cases ho : owner = zeroAddress
  · rw [if_pos (.inr ho), redeem, require_of hr, ok_bind, require_of_not (not_not_intro ho),
      error_bind]
  rw [if_neg (not_or_intro hr ho), redeem, require_of hr, require_of ho, redeemSettle,
    previewRedeem]
  cases hp : offsetAssetsDown x w.vault.mTotalSupply w.vault.mVirtualShares w.assets with
  | ok payout => simp only [ok_bind, require_of_not hbal, error_bind, Except.isOk, Except.toBool, if_true]
  | error e =>
    rw [offsetAssetsDown_error hv hp]
    rfl

theorem honoured [Fintype A] (hv : 0 < vshares w) (hs : w.vault.Conserved) :
    (trading h).Honoured w where
  deposit _ _ _ _ hd := deposit_exact hd
  mint _ _ _ _ hm := mint_exact hm
  withdraw _ _ _ _ _ _ hw := withdraw_exact hw
  redeem _ _ _ _ _ _ hr := redeem_exact hv hr
  maxWithdraw _ _ _ hsender hreceiver hx := withdraw_max_isOk hv hs hsender hreceiver hx
  maxRedeem _ _ hsender hreceiver := redeem_max_isOk_or hv hs hsender hreceiver
  aboveMax _ _ _ _ _ hx := redeem_above_max hv hx

end ERC4626

/-! ### The claim of the two vaults -/

/-- **Quotes are honoured**, in every state that either vault can reach. -/
theorem quotes_honoured [Fintype A] (h : Host A) (args : ERC4626Min.Args) (v : U256)
    {s : ERC4626 A} (hd : ERC4626.deploy args v = .ok s) (assets : U256)
    (as : List (VaultAction A)) :
    (ERC4626.trading h).Honoured (run (ERC4626.act h) ⟨s, assets⟩ as) ∧
      (ERC4626Min.trading h).Honoured
        (run (ERC4626Min.act h) ⟨ERC4626Min.deploy args, assets⟩ as) := by
  have hv0 := ERC4626.vshares_pos_of_deploy hd assets
  have hcons := ERC4626.conserved_of_deploy hd
  have hconsMin : (ERC4626Min.deploy args : ERC4626Min A).Conserved := by
    rw [ERC4626Min.Conserved, ERC4626Min.deploy, total_zero]
    rfl
  refine ⟨ERC4626.honoured ?_ (ERC4626.conserved_of_run hv0 hcons as), ERC4626Min.honoured ?_⟩
  · rw [(ERC4626.later_of_run hv0 as).vshares_eq]
    exact hv0
  · refine run_induction (P := fun w : World (ERC4626Min A) => w.vault.Conserved) ?_ hconsMin
    intro w₁ a w₂ h₁ hact
    exact ERC4626Min.conserved_of_act h₁ hact

/-- A deposit in a vault that got a donation settles at its quote. -/
theorem quotes_sample :
    ∃ s : ERC4626 (Fin 4), ERC4626.deploy ⟨"Vault", "V", 18#8⟩ 1000#256 = .ok s ∧
      (ERC4626.trading .sample).Honoured
        (run (ERC4626.act .sample) ⟨s, 0#256⟩ [.donate 1000000#256]) :=
  ⟨_, rfl, (quotes_honoured .sample ⟨"Vault", "V", 18#8⟩ 1000#256 rfl 0#256 _).1⟩

/-- A redemption beyond the limit whose price overflows is not rejected with `21`, and what
    a deposit moves is not what `previewDeposit` returns. -/
theorem quotes_not_as_stated :
    ∃ (s : ERC4626 (Fin 4)) (w w' : World (ERC4626 (Fin 4))),
      ERC4626.deploy ⟨"Vault", "V", 18#8⟩ 1000#256 = .ok s ∧
      run (ERC4626.act .sample) ⟨s, 0#256⟩ [.donate 1000000#256,
        .call ⟨1, 0#256, 1#256, 3⟩ (.deposit 1000000#256 1) exactReply] = w ∧
      ERC4626.maxRedeem w 1 = 999#256 ∧
      ERC4626.redeem .sample w ⟨1, 0#256, 1#256, 3⟩ (BitVec.allOnes 256) 1 1 exactReply =
        .error .overflow ∧
      ERC4626.deposit w 8000#256 1 exactReply = .ok (w', 7#256) ∧
      ERC4626.previewDeposit w 8000#256 = .ok 7#256 ∧
      w'.assets = w.assets + 8000#256 :=
  ⟨_, _, _, rfl, rfl, rfl, rfl, rfl, rfl, rfl⟩

end CambrianLang.Stdlib
