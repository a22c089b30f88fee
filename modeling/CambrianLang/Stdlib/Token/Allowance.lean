/-
  **What allowances permit.**

  The tokens and the vault keep allowances under `hashOf(owner, spender)`, and
  three things happen to them: a grant sets one, a spend by the spender takes
  from one what it takes from the owner's balance, and everything else leaves
  them (`Uses`).  Where the hash keeps the pairs apart, the allowance is a reserve
  that the spender's calls pay from, and so bounds them between two grants.
-/
import CambrianLang.Lib.History
import CambrianLang.Stdlib.Token.ERC20

namespace CambrianLang.Stdlib

open History

variable {σ μ A : Type} [DecidableEq A]

/-- What a step does to the balances and the allowances: the pair whose allowance it
    writes, and what it grants. -/
inductive Uses (h : Host A) (caller : A) (B B' : A → U256) (a a' : U256 → U256) :
    Option (A × A) → Option U256 → Prop
  | keep (hB : ∀ x, x ≠ caller → (B x).toNat ≤ (B' x).toNat) (ha : a' = a) :
      Uses h caller B B' a a' none none
  | grant {owner spender : A} {v : U256} (hB : B' = B)
      (ha : a' = Function.update a (h.hashOf (.allowance owner spender)) v) :
      Uses h caller B B' a a' (some (owner, spender)) (some v)
  | spend {owner : A} {n rest : U256}
      (hB : ∀ x, (B x).toNat ≤ (B' x).toNat + if x = owner then n.toNat else 0)
      (hrest : owner ≠ caller → allowanceAfterSpend (allowanceOf h a owner caller) n = .ok rest)
      (ha : a' = Function.update a (h.hashOf (.allowance owner caller)) rest) :
      Uses h caller B B' a a' (some (owner, caller)) none

/-- A ledger with allowances. -/
structure AllowanceLedger (σ μ A : Type) where
  balances : σ → A → U256
  allowances : σ → U256 → U256
  caller : μ → A
  /-- The owner and the spender whose allowance a call writes. -/
  pair : μ → Option (A × A)
  granted : μ → Option U256

namespace AllowanceLedger

variable (L : AllowanceLedger σ μ A) (h : Host A)

/-- What `p` may still take of the balance of `owner`. -/
def allowance (owner p : A) (s : σ) : U256 := allowanceOf h (L.allowances s) owner p

/-- `m` grants `p` an allowance `v` of `owner`. -/
def Grants (owner p : A) (v : U256) (m : μ) : Prop :=
  L.pair m = some (owner, p) ∧ L.granted m = some v

/-- What a step by `p` took of the balance of `owner`. -/
def taken (owner p : A) (t : Transition σ μ) : Nat :=
  if L.caller t.msg = p then
    (L.balances t.before owner).toNat - (L.balances t.after owner).toNat
  else 0

/-- The allowance tuples that are hashed in the course of a history. -/
def pairs (ts : List (Transition σ μ)) : List (HashArgs A) :=
  ts.filterMap fun t => (L.pair t.msg).map fun q => .allowance q.1 q.2

/-- **What `p` takes of the balance of `owner`**: nothing before it is granted an allowance,
    and between two grants no more than the first one granted, unless that is the
    unlimited allowance, which no step decrements. -/
structure Safe (ts : List (Transition σ μ)) (owner p : A) : Prop where
  ungranted : ∀ pre post, ts = pre ++ post → (∀ t ∈ pre, ∀ v, ¬ L.Grants owner p v t.msg) →
    spent (L.taken owner p) pre = 0
  granted : ∀ pre g mid post v, ts = pre ++ g :: (mid ++ post) → L.Grants owner p v g.msg →
    (∀ t ∈ mid, ∀ v', ¬ L.Grants owner p v' t.msg) →
      (v ≠ maxU256 → spent (L.taken owner p) mid ≤ v.toNat) ∧
        (v = maxU256 → ∀ t ∈ mid, L.allowance h owner p t.after = maxU256)

/-- A step does to the ledger what `Uses` says. -/
def Step (t : Transition σ μ) : Prop :=
  Uses h (L.caller t.msg) (L.balances t.before) (L.balances t.after) (L.allowances t.before)
    (L.allowances t.after) (L.pair t.msg) (L.granted t.msg)

variable {L h} {t : Transition σ μ} {ts : List (Transition σ μ)} {s s' : σ} {owner p : A}

omit [DecidableEq A] in
theorem mem_pairs (ht : t ∈ ts) (hq : L.pair t.msg = some (owner, p)) :
    .allowance owner p ∈ L.pairs ts :=
  List.mem_filterMap.mpr ⟨t, ht, by rw [hq]; rfl⟩

/-- A step that does not write the allowance of `p` takes nothing for it. -/
theorem taken_eq_zero (ht : L.Step h t) (hp : p ≠ owner) (hpair : L.pair t.msg ≠ some (owner, p)) :
    L.taken owner p t = 0 := by
  rw [taken]
  split
  swap
  · rfl
  next hcaller =>
  rw [Step] at ht
  apply Nat.sub_eq_zero_of_le
  generalize hpr : L.pair t.msg = pr at ht hpair
  generalize hgr : L.granted t.msg = gr at ht
  cases ht with
  | keep hB => exact hB owner (hcaller ▸ hp.symm)
  | grant hB =>
    rw [hB]
  | @spend o n rest hB =>
    have howner : owner ≠ o := by
      rintro rfl
      exact hpair (by rw [hcaller])
    have hle := hB owner
    rwa [if_neg howner, Nat.add_zero] at hle

/-- A step on another pair leaves the allowance. -/
theorem allowance_eq (ht : L.Step h t)
    (hother : ∀ o q, L.pair t.msg = some (o, q) →
      h.hashOf (.allowance owner p) ≠ h.hashOf (.allowance o q)) :
    L.allowance h owner p t.after = L.allowance h owner p t.before := by
  rw [Step] at ht
  rw [allowance, allowance, allowanceOf, allowanceOf]
  generalize hpr : L.pair t.msg = pr at ht hother
  generalize hgr : L.granted t.msg = gr at ht
  cases ht with
  | keep hB ha => rw [ha]
  | @grant o q v hB ha => rw [ha, Function.update_of_ne (hother o q rfl)]
  | @spend o n rest hB hrest ha => rw [ha, Function.update_of_ne (hother o _ rfl)]

/-- A grant sets the allowance. -/
theorem allowance_of_grant (ht : L.Step h t) {v : U256} (hg : L.Grants owner p v t.msg) :
    L.allowance h owner p t.after = v := by
  rw [Step, hg.1, hg.2] at ht
  rw [allowance, allowanceOf]
  cases ht with
  | grant hB ha => rw [ha, Function.update_self]

/-- **A step that grants `p` nothing is paid for out of its allowance.** -/
theorem pays_of_step (ht : L.Step h t) (hp : p ≠ owner)
    (hother : ∀ o q, L.pair t.msg = some (o, q) → (o, q) ≠ (owner, p) →
      h.hashOf (.allowance owner p) ≠ h.hashOf (.allowance o q))
    (hno : ∀ v, ¬ L.Grants owner p v t.msg) :
    Pays (fun s => (L.allowance h owner p s).toNat) maxU256.toNat (L.taken owner p) t := by
  by_cases hpair : L.pair t.msg = some (owner, p)
  swap
  · -- another pair, or none: the allowance stays and nothing is taken
    have hsame : L.allowance h owner p t.after = L.allowance h owner p t.before := by
      apply allowance_eq ht
      intro o q hq
      exact hother o q hq fun heq => hpair (heq ▸ hq)
    have hzero := taken_eq_zero ht hp hpair
    constructor
    · intro htop
      rw [hsame]
      exact htop
    · intro _
      rw [hsame, hzero]
      exact Nat.le_refl _
  · rw [Step, hpair] at ht
    have hnone : L.granted t.msg = none := by
      cases hg : L.granted t.msg with
      | none => rfl
      | some v => exact absurd ⟨hpair, hg⟩ (hno v)
    rw [hnone] at ht
    generalize hc : L.caller t.msg = q at ht
    cases ht with
    | @spend _ n rest hB hrest ha =>
      have hafter : L.allowance h owner p t.after = rest := by
        rw [allowance, allowanceOf, ha, Function.update_self]
      have htake : L.taken owner p t ≤ n.toNat := by
        have hle := hB owner
        rw [if_pos rfl] at hle
        rw [taken, if_pos hc]
        omega
      rcases allowanceAfterSpend_eq_ok.mp (hrest hp.symm) with ⟨hmax, hkeep⟩ | ⟨hfin, hsub⟩
      · constructor
        · intro _
          rw [hafter, hkeep, hmax]
        · intro hlt
          rw [allowance, hmax] at hlt
          exact absurd hlt (Nat.lt_irrefl _)
      · constructor
        · intro htop
          exact absurd (BitVec.eq_of_toNat_eq htop) hfin
        · intro _
          rw [hafter]
          change rest.toNat + L.taken owner p t ≤
            (allowanceOf h (L.allowances t.before) owner p).toNat
          omega

/-- **Allowances bound what is taken**, where no two pairs share their hash. -/
theorem safe_of_steps (hl : Leads s ts s') (hs : ∀ key, L.allowances s key = 0#256)
    (hstep : ∀ t ∈ ts, L.Step h t) (hinj : Set.InjOn h.hashOf {x | x ∈ L.pairs ts})
    (hp : p ≠ owner) :
    L.Safe h ts owner p := by
  by_cases hused : ∃ t ∈ ts, L.pair t.msg = some (owner, p)
  swap
  · -- the pair is never hashed: no grant, and nothing taken
    have hpair : ∀ t ∈ ts, L.pair t.msg ≠ some (owner, p) :=
      fun t ht heq => hused ⟨t, ht, heq⟩
    constructor
    · rintro pre post rfl -
      apply spent_eq_zero
      intro t ht
      have hmem := List.mem_append_left post ht
      exact taken_eq_zero (hstep t hmem) hp (hpair t hmem)
    · rintro pre g mid post v rfl hg -
      exact absurd hg.1 (hpair g (by simp))
  · obtain ⟨t₀, ht₀, hpair₀⟩ := hused
    have hpays : ∀ t ∈ ts, (∀ v, ¬ L.Grants owner p v t.msg) →
        Pays (fun s => (L.allowance h owner p s).toNat) maxU256.toNat (L.taken owner p) t := by
      intro t ht hno
      refine pays_of_step (hstep t ht) hp ?_ hno
      intro o q hq hne heq
      have hargs := hinj (mem_pairs ht₀ hpair₀) (mem_pairs ht hq) heq
      cases hargs
      exact hne rfl
    constructor
    · rintro pre post rfl hno
      obtain ⟨s₁, hpre, -⟩ := leads_append.mp hl
      have hzero : (L.allowance h owner p s).toNat = 0 := by
        rw [allowance, allowanceOf, hs]
        rfl
      have hbound := reserve_bounds hpre
        (fun t ht => hpays t (List.mem_append_left post ht) (hno t ht)) (by rw [hzero]; decide)
      omega
    · rintro pre g mid post v rfl hg hno
      obtain ⟨s₁, -, rfl, htail⟩ := leads_append.mp hl
      obtain ⟨s₂, hmid, -⟩ := leads_append.mp htail
      have hset := allowance_of_grant (hstep g (by simp)) hg
      have hpay : ∀ t ∈ mid,
          Pays (fun s => (L.allowance h owner p s).toNat) maxU256.toNat (L.taken owner p) t :=
        fun t ht => hpays t (by simp [ht]) (hno t ht)
      constructor
      · intro hv
        have hlt : v.toNat < maxU256.toNat := by
          have hmax := maxU256_toNat
          have hne : v.toNat ≠ maxU256.toNat := fun heq => hv (BitVec.eq_of_toNat_eq heq)
          have hlt := v.isLt
          omega
        have hbound := reserve_bounds hmid hpay (by rw [hset]; exact hlt)
        rw [hset] at hbound
        omega
      · intro hv t ht
        have htop := reserve_unlimited hmid hpay (by rw [hset, hv]) t ht
        exact BitVec.eq_of_toNat_eq htop

end AllowanceLedger

end CambrianLang.Stdlib
