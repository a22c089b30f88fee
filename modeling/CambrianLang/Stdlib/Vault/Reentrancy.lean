/-
  **`ERC4626` and an asset that calls back.**

  A pull or a push hands control to the asset before the route is done, and the
  emitted contract takes no lock.  The balance read is a `view` route of the
  asset, a static call, so nothing is written under it.

  Two deposits that are open at once count the same delivery, and a withdrawal
  made while another one is still owed its assets is priced with them.  Where
  neither happens (`enter`) every delivery is counted once and no outermost call
  lowers the price, whatever else is nested.
-/
import CambrianLang.Lib.History
import CambrianLang.Lib.NestedCalls
import CambrianLang.Stdlib.Vault.Price

namespace CambrianLang.Stdlib.ERC4626

open Trapping SharePrice NestedCalls
open History

variable {A : Type} [DecidableEq A] [Zero A] (h : Host A)

/-- What the members of a vault are written for: shares issued by a deposit or mint, shares
    burnt by a withdrawal or redemption, and the share routes. -/
inductive Write (A : Type)
  | issue (c : Ctx A) (receiver : A) (shares : U256)
  | burn (c : Ctx A) (owner : A) (shares : U256)
  | share (c : Ctx A) (k : ShareCall A)

/-- A vault and its assets, with the assets that entered so far, those that completed
    deposits and mints were credited for, and the writes that no revert undid. -/
structure Books (A : Type) extends World (ERC4626 A) where
  entered : Nat
  credited : Nat
  log : List (Transition (ERC4626 A) (Write A))

/-- A call, and the flag the asset answers the transfer with. -/
structure Request (A : Type) where
  ctx : Ctx A
  call : VaultCall A
  ok : Bool

/-- Assets enter the vault, unless its balance would overflow. -/
def gain (n : U256) (b : Books A) : Books A :=
  match add b.assets n with
  | .ok assets => { b with assets := assets, entered := b.entered + n.toNat }
  | .error _ => b

/-- The routes.  The asset does `inside` before it moves what it is asked to move out, and
    `after` afterwards; what is to come in, comes in `inside`. -/
def serve (q : Request A) (inside after : Books A → Books A) (b : Books A) : Exec (Books A) :=
  match q.call with
  | .deposit _ receiver => do
    require (receiver ≠ zeroAddress) 20
    let b₁ := inside b
    let (s, issued) ← depositIssue b₁.vault receiver b.assets b₁.assets q.ok
    return { b₁ with
      vault := s, credited := b₁.credited + (b₁.assets.toNat - b.assets.toNat)
      log := b₁.log ++ [⟨b₁.vault, .issue q.ctx receiver issued, s⟩] }
  | .mint shares receiver => do
    require (receiver ≠ zeroAddress) 20
    let cost ← mintCost b.vault shares b.assets
    let b₁ := inside b
    let s ← mintIssue b₁.vault receiver shares b.assets cost b₁.assets q.ok
    return { b₁ with
      vault := s, credited := b₁.credited + cost.toNat
      log := b₁.log ++ [⟨b₁.vault, .issue q.ctx receiver shares, s⟩] }
  | .withdraw assets receiver owner => do
    require (receiver ≠ zeroAddress) 20
    require (owner ≠ zeroAddress) 20
    let (s, burnt) ← withdrawSettle h b.vault q.ctx assets owner b.assets
    let b₁ := inside { b with
      vault := s, log := b.log ++ [⟨b.vault, .burn q.ctx owner burnt, s⟩] }
    let left ← sendOut q.ctx receiver b₁.assets assets
    let b₂ := after { b₁ with assets := left }
    require (q.ok = true) 24
    return b₂
  | .redeem shares receiver owner => do
    require (receiver ≠ zeroAddress) 20
    require (owner ≠ zeroAddress) 20
    let (s, payout) ← redeemSettle h b.vault q.ctx shares owner b.assets
    let b₁ := inside { b with
      vault := s, log := b.log ++ [⟨b.vault, .burn q.ctx owner shares, s⟩] }
    let left ← sendOut q.ctx receiver b₁.assets payout
    let b₂ := after { b₁ with assets := left }
    require (q.ok = true) 24
    return b₂
  | .share k => do
    let t ← ERC4626Min.shareCall h b.vault.toERC4626Min q.ctx k
    let s := { b.vault with toERC4626Min := t }
    return { b with vault := s, log := b.log ++ [⟨b.vault, .share q.ctx k, s⟩] }

omit [DecidableEq A] [Zero A] in

/-! ### Modes -/

/-- What is in progress: a pull, and a push whose assets have not left. -/
structure Mode where
  pulling : Bool
  owing : Bool

/-- No delivery is waited for twice, and nothing is paid out while a payout is owed. -/
def enter (m : Mode) (q : Request A) : Option (Mode × Mode) :=
  match q.call with
  | .deposit _ _ | .mint _ _ => if m.pulling then none else some ({ m with pulling := true }, m)
  | .withdraw _ _ _ | .redeem _ _ _ => if m.owing then none else some ({ m with owing := true }, m)
  | .share _ => some (m, m)

/-- What one party does to the vault in a mode, as far as the others are concerned. -/
structure Kept (m : Mode) (b b' : Books A) : Prop where
  vshares_eq : vshares b'.toWorld = vshares b.toWorld
  price : NotBelow (vshares b.toWorld) (supply b.toWorld) (held b.toWorld) (supply b'.toWorld)
    (held b'.toWorld)
  counted : b'.credited + b.entered ≤ b.credited + b'.entered
  arrived : held b'.toWorld + b.entered ≤ held b.toWorld + b'.entered
  pulling : m.pulling = true → supply b'.toWorld ≤ supply b.toWorld ∧ b'.credited = b.credited
  owing : m.owing = true → held b.toWorld ≤ held b'.toWorld

namespace Kept

variable {m : Mode} {b b' b₁ b₂ b₃ : Books A}

omit [DecidableEq A] [Zero A] in
theorem refl (m : Mode) (b : Books A) : Kept m b b where
  vshares_eq := rfl
  price := NotBelow.refl _ _ _
  counted := Nat.le_refl _
  arrived := Nat.le_refl _
  pulling _ := ⟨Nat.le_refl _, rfl⟩
  owing _ := Nat.le_refl _

omit [DecidableEq A] [Zero A] in
theorem trans (hv : 0 < vshares b₁.toWorld) (h₁ : Kept m b₁ b₂) (h₂ : Kept m b₂ b₃) :
    Kept m b₁ b₃ where
  vshares_eq := h₂.vshares_eq.trans h₁.vshares_eq
  price := by
    have hprice := h₂.price
    rw [h₁.vshares_eq] at hprice
    exact NotBelow.trans hv h₁.price hprice
  counted := by
    have hc₁ := h₁.counted
    have hc₂ := h₂.counted
    omega
  arrived := by
    have ha₁ := h₁.arrived
    have ha₂ := h₂.arrived
    omega
  pulling hp := by
    obtain ⟨hS₁, hc₁⟩ := h₁.pulling hp
    obtain ⟨hS₂, hc₂⟩ := h₂.pulling hp
    exact ⟨hS₂.trans hS₁, hc₂.trans hc₁⟩
  owing ho := (h₁.owing ho).trans (h₂.owing ho)

omit [DecidableEq A] [Zero A] in
theorem of_gain (m : Mode) (n : U256) (b : Books A) : Kept m b (gain n b) := by
  rw [gain]
  cases hadd : add b.assets n with
  | error e => exact refl m b
  | ok assets =>
    have hsum : assets.toNat = held b.toWorld + n.toNat := add_eq_ok.mp hadd
    have hle : held b.toWorld ≤ assets.toNat := by omega
    exact {
      vshares_eq := rfl
      price := NotBelow.gift hle
      counted := Nat.add_le_add_left (Nat.le_add_right _ _) _
      arrived := by
        change assets.toNat + b.entered ≤ held b.toWorld + (b.entered + n.toNat)
        omega
      pulling := fun _ => ⟨Nat.le_refl _, rfl⟩
      owing := fun _ => hle }

variable {h} {c : Ctx A} {t : ERC4626Min A} {receiver owner : A} {n left : U256}
variable {log : List (Transition (ERC4626 A) (Write A))}

omit [Zero A] in
/-- Shares issued at the end of a pull for what arrived since its start. -/
theorem of_issue (hm : m.pulling = false) (hin : Kept { m with pulling := true } b b₁)
    (issued : ERC4626Min.issueShares b₁.vault.toERC4626Min receiver (.ok n) = .ok t)
    {got credit : Nat} (came : held b₁.toWorld = held b.toWorld + got) (hcredit : credit ≤ got)
    (worth : n.toNat * (held b.toWorld + 1) ≤ got * (supply b.toWorld + vshares b.toWorld)) :
    Kept m b { b₁ with
      vault := { b₁.vault with toERC4626Min := t }, credited := b₁.credited + credit
      log := log } := by
  obtain ⟨hS, hcredited⟩ := hin.pulling rfl
  have hsupply : t.mTotalSupply.toNat = supply b₁.toWorld + n.toNat :=
    ERC4626Min.supply_of_issue issued
  have harrived := hin.arrived
  refine ⟨hin.vshares_eq, ?_, ?_, harrived, ?_, ?_⟩
  · have hprice := NotBelow.enter_late hS worth
    rw [← came, ← hsupply] at hprice
    exact hprice
  · change b₁.credited + credit + b.entered ≤ b.credited + b₁.entered
    omega
  · intro hp
    rw [hm] at hp
    cases hp
  · intro _
    change held b.toWorld ≤ held b₁.toWorld
    omega

omit [Zero A] in
/-- Assets that leave for shares burnt at the start of a push. -/
theorem of_burn (hm : m.owing = false)
    (burnt : ERC4626Min.burnShares h b.vault.toERC4626Min c owner (.ok n) = .ok t)
    (hin : Kept { m with owing := true }
      { b with vault := { b.vault with toERC4626Min := t }, log := log } b₁)
    {paid : Nat} (went : left.toNat + paid = held b₁.toWorld)
    (worth : paid * (supply b.toWorld + vshares b.toWorld) ≤ n.toNat * (held b.toWorld + 1)) :
    Kept m b { b₁ with assets := left } := by
  have hsupply : t.mTotalSupply.toNat + n.toNat = supply b.toWorld :=
    ERC4626Min.supply_of_burn burnt
  have hgrown : held b.toWorld ≤ held b₁.toWorld := hin.owing rfl
  refine ⟨hin.vshares_eq, ?_, hin.counted, ?_, ?_, ?_⟩
  · have hmid := hin.price
    rw [← went] at hgrown hmid
    rw [← hsupply] at worth ⊢
    exact NotBelow.leave_late worth hgrown hmid
  · have harrived : held b₁.toWorld + b.entered ≤ held b.toWorld + b₁.entered := hin.arrived
    change left.toNat + b.entered ≤ held b.toWorld + b₁.entered
    omega
  · intro hp
    obtain ⟨hS, hcredited⟩ := hin.pulling hp
    refine ⟨hS.trans ?_, hcredited⟩
    change t.mTotalSupply.toNat ≤ supply b.toWorld
    omega
  · intro ho
    rw [hm] at ho
    cases ho

theorem of_share {k : ShareCall A} (m : Mode)
    (hk : ERC4626Min.shareCall h b.vault.toERC4626Min c k = .ok t) :
    Kept m b { b with vault := { b.vault with toERC4626Min := t }, log := log } := by
  obtain ⟨-, balances, allowances, -, -, rfl⟩ := ERC4626Min.shareCall_eq_ok.mp hk
  exact { refl m b with }

end Kept

/-- A call keeps the mode's promises when what is done inside it does. -/
theorem kept_of_serve {m m₁ m₂ : Mode} {q : Request A} {inside after : Books A → Books A}
    {b b' : Books A} (hv : 0 < vshares b.toWorld) (hq : enter m q = some (m₁, m₂))
    (hin : ∀ b, 0 < vshares b.toWorld → Kept m₁ b (inside b))
    (haf : ∀ b, 0 < vshares b.toWorld → Kept m₂ b (after b))
    (hs : serve h q inside after b = .ok b') : Kept m b b' := by
  obtain ⟨c, k, ok⟩ := q
  cases k with
  | deposit assets receiver =>
    simp only [enter] at hq
    split at hq
    · cases hq
    next hm =>
    cases hq
    simp only [serve, bind_eq_ok, require_eq_ok, pure_eq_ok, Except.ok.injEq] at hs
    obtain ⟨-, -, ⟨s, issued⟩, hissue, rfl⟩ := hs
    obtain ⟨-, hle, -, hn, t, ht, rfl⟩ := depositIssue_ok hissue
    have hS := (hin b hv).pulling rfl
    refine Kept.of_issue (by simpa using hm) (hin b hv) ht (Nat.add_sub_of_le hle).symm (Nat.le_refl _) ?_
    -- the supply is the one after the pull, and not greater
    rw [hn]
    refine (Nat.div_mul_le_self _ _).trans (Nat.mul_le_mul_left _ ?_)
    rw [← (hin b hv).vshares_eq]
    exact Nat.add_le_add_right hS.1 _
  | mint shares receiver =>
    simp only [enter] at hq
    split at hq
    · cases hq
    next hm =>
    cases hq
    simp only [serve, bind_eq_ok, require_eq_ok, pure_eq_ok, Except.ok.injEq] at hs
    obtain ⟨-, -, cost, hcost, s, hissue, rfl⟩ := hs
    obtain ⟨-, hle, t, ht, rfl⟩ := mintIssue_ok hissue
    obtain ⟨-, hcv⟩ := mintCost_ok hv hcost
    have hpos : 0 < supply b.toWorld + vshares b.toWorld := by omega
    have hceil := ceil_bound shares.toNat (held b.toWorld + 1) hpos
    have hgot : cost.toNat ≤ (inside b).assets.toNat - b.assets.toNat := by omega
    have hcame : (inside b).assets.toNat =
        b.assets.toNat + ((inside b).assets.toNat - b.assets.toNat) := by omega
    refine Kept.of_issue (by simpa using hm) (hin b hv) ht hcame hgot ?_
    exact hceil.trans (Nat.mul_le_mul_right _ (hcv ▸ hgot))
  | withdraw assets receiver owner =>
    simp only [enter] at hq
    split at hq
    · cases hq
    next hm =>
    cases hq
    simp only [serve, bind_eq_ok, require_eq_ok, pure_eq_ok, Except.ok.injEq] at hs
    obtain ⟨-, -, -, -, ⟨s, burnt⟩, hsettle, left, hleft, -, -, rfl⟩ := hs
    obtain ⟨-, hn, -, -, -, t, ht, rfl⟩ := withdrawSettle_eq_ok.mp hsettle
    obtain ⟨paid, hpaid, hwent⟩ := went_of_sendOut hleft
    have hworth : paid * (supply b.toWorld + vshares b.toWorld) ≤
        burnt.toNat * (held b.toWorld + 1) := by
      refine (Nat.mul_le_mul_right _ hpaid).trans ?_
      rw [hn]
      exact ceil_bound _ _ (Nat.succ_pos _)
    have hpushed := Kept.of_burn (by simpa using hm) ht (hin _ hv) hwent hworth
    refine hpushed.trans hv (haf _ ?_)
    rw [hpushed.vshares_eq]
    exact hv
  | redeem shares receiver owner =>
    simp only [enter] at hq
    split at hq
    · cases hq
    next hm =>
    cases hq
    simp only [serve, bind_eq_ok, require_eq_ok, pure_eq_ok, Except.ok.injEq] at hs
    obtain ⟨-, -, -, -, ⟨s, payout⟩, hsettle, left, hleft, -, -, rfl⟩ := hs
    obtain ⟨-, hn, -, -, -, t, ht, rfl⟩ := (redeemSettle_eq_ok hv).mp hsettle
    obtain ⟨paid, hpaid, hwent⟩ := went_of_sendOut hleft
    have hworth : paid * (supply b.toWorld + vshares b.toWorld) ≤
        shares.toNat * (held b.toWorld + 1) := by
      refine (Nat.mul_le_mul_right _ hpaid).trans ?_
      rw [hn]
      exact Nat.div_mul_le_self _ _
    have hpushed := Kept.of_burn (by simpa using hm) ht (hin _ hv) hwent hworth
    refine hpushed.trans hv (haf _ ?_)
    rw [hpushed.vshares_eq]
    exact hv
  | share k =>
    simp only [serve, bind_eq_ok, pure_eq_ok, Except.ok.injEq] at hs
    obtain ⟨t, ht, rfl⟩ := hs
    exact Kept.of_share m ht

/-- The modes keep their promises over every script. -/
theorem frame (h : Host A) :
    Frame gain (serve h) enter fun m b b' => 0 < vshares b.toWorld → Kept m b b' where
  refl m b _ := Kept.refl m b
  trans m b₁ b₂ b₃ h₁ h₂ hv := by
    have hk := h₁ hv
    refine hk.trans hv (h₂ ?_)
    rw [hk.vshares_eq]
    exact hv
  move m n b _ := Kept.of_gain m n b
  call m q m₁ m₂ inside after b b' hq hin haf hs hv := kept_of_serve h hv hq hin haf hs

/-! ### The claim of the entity -/

/-- Nothing in progress. -/
def Mode.idle : Mode := ⟨false, false⟩

/-- **Every delivery is counted once, and no outermost call lowers the price**, as long as
    the asset starts no deposit or mint inside a pull and no withdrawal or redemption
    before it moved the assets of another one. -/
theorem counted_once (h : Host A) (args : ERC4626Min.Args) (v : U256) {s : ERC4626 A}
    (hd : deploy args v = .ok s) (assets : U256) (e : Script (Request A) U256)
    (he : Allowed enter Mode.idle e) :
    let b : Books A := exec gain (serve h) e ⟨⟨s, assets⟩, 0, 0, []⟩
    b.credited ≤ b.entered ∧
      ∀ p ∈ spans gain (serve h) e ⟨⟨s, assets⟩, 0, 0, []⟩,
        (held p.1.toWorld + 1) * (supply p.2.toWorld + v.toNat) ≤
          (held p.2.toWorld + 1) * (supply p.1.toWorld + v.toNat) := by
  intro b
  obtain ⟨hsv, hmin, -⟩ := deploy_ok hd
  have hv0 := vshares_pos_of_deploy hd assets
  refine ⟨?_, ?_⟩
  · have hcounted := (exec_of_frame (frame h) he ⟨⟨s, assets⟩, 0, 0, []⟩ hv0).counted
    simpa using hcounted
  · intro p hp
    have hbefore := spans_reached (frame h) he ⟨⟨s, assets⟩, 0, 0, []⟩ p hp hv0
    have hvp : vshares p.1.toWorld = v.toNat := by
      rw [hbefore.vshares_eq, vshares, hsv]
    have hspan := spans_of_frame (frame h) he ⟨⟨s, assets⟩, 0, 0, []⟩ p hp (by omega)
    have hprice := hspan.price
    rw [hvp] at hprice
    exact hprice

/-- A withdrawal in the middle of a deposit, and a deposit in the middle of a withdrawal. -/
theorem counted_once_sample :
    ∃ s : ERC4626 (Fin 4), deploy ⟨"Vault", "V", 18#8⟩ 1000#256 = .ok s ∧
      let e : Script (Request (Fin 4)) U256 :=
        .call ⟨⟨1, 0#256, 1#256, 3⟩, .deposit 10#256 1, true⟩ (.move 10#256 .done) .done <|
        .call ⟨⟨2, 0#256, 1#256, 3⟩, .deposit 10#256 2, true⟩
          (.call ⟨⟨1, 0#256, 1#256, 3⟩, .redeem 1#256 1 1, true⟩ .done .done <|
            .move 10#256 .done) .done <|
        .call ⟨⟨1, 0#256, 1#256, 3⟩, .redeem 100#256 1 1, true⟩
          (.call ⟨⟨2, 0#256, 1#256, 3⟩, .deposit 5#256 2, true⟩ (.move 5#256 .done) .done .done)
          .done .done
      let b : Books (Fin 4) := exec gain (serve .sample) e ⟨⟨s, 0#256⟩, 0, 0, []⟩
      b.credited ≤ b.entered := by
  refine ⟨_, rfl, (counted_once .sample ⟨"Vault", "V", 18#8⟩ 1000#256 rfl 0#256 _ ?_).1⟩
  simp [Allowed, enter, Mode.idle]

/-- After an honest deposit the asset answers a pull for `10` with a deposit of `10` of its
    own: the `10` that arrive are credited twice, and the price falls. -/
theorem counted_twice :
    ∃ (s : ERC4626 (Fin 4)) (b₀ b₁ : Books (Fin 4)),
      deploy ⟨"Vault", "V", 18#8⟩ 1000#256 = .ok s ∧
      exec gain (serve .sample) (.call ⟨⟨1, 0#256, 1#256, 3⟩, .deposit 1000000#256 1, true⟩
        (.move 1000000#256 .done) .done .done) ⟨⟨s, 0#256⟩, 0, 0, []⟩ = b₀ ∧
      exec gain (serve .sample) (.call ⟨⟨2, 0#256, 1#256, 3⟩, .deposit 10#256 2, true⟩
        (.call ⟨⟨2, 0#256, 1#256, 3⟩, .deposit 10#256 2, true⟩ (.move 10#256 .done) .done .done)
        .done .done) b₀ = b₁ ∧
      b₁.entered = 1000010 ∧ b₁.credited = 1000020 ∧
      ¬ NotBelow 1000 (supply b₀.toWorld) (held b₀.toWorld) (supply b₁.toWorld)
        (held b₁.toWorld) := by
  refine ⟨_, _, _, rfl, rfl, rfl, rfl, rfl, ?_⟩
  unfold NotBelow
  decide +kernel

end CambrianLang.Stdlib.ERC4626
