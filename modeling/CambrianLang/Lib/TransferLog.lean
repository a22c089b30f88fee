/-
  **Ledgers recovered from a log of transfers.**

  A log entry moves a value from one account to another; the zero account stands
  for no account, so that an entry from it issues and an entry to it retires.
  `replay` is what a reader of the log does who has nothing else to go by.  It
  fails where an account would fall below zero.

  A ledger need not be in step with its log at every moment: a retirement may be
  logged long after it was made.  `Accounts ts` therefore speaks of any reader
  that is not behind the ledger, and says that the entries `ts` make up for
  exactly what the ledger did meanwhile.
-/
import CambrianLang.Lib.Ledger

namespace CambrianLang.TransferLog

open Trapping Ledger

/-- An entry of the log. -/
structure Transfer (A : Type) (w : Nat) where
  src : A
  dst : A
  value : BitVec w

variable {A : Type} [DecidableEq A] [Zero A] {w : Nat}

def debitEntry (L : A → Nat) (t : Transfer A w) : Option (A → Nat) :=
  if t.src = 0 then some L
  else if t.value.toNat ≤ L t.src then
    some (Function.update L t.src (L t.src - t.value.toNat))
  else none

def creditEntry (t : Transfer A w) (L : A → Nat) : A → Nat :=
  if t.dst = 0 then L else Function.update L t.dst (L t.dst + t.value.toNat)

/-- The ledger a reader has after the entries, in order. -/
def replay : List (Transfer A w) → (A → Nat) → Option (A → Nat)
  | [], L => some L
  | t :: ts, L => (debitEntry L t).bind fun L' => replay ts (creditEntry t L')

def minted (ts : List (Transfer A w)) : Nat :=
  (ts.map fun t => if t.src = 0 then t.value.toNat else 0).sum

def burnt (ts : List (Transfer A w)) : Nat :=
  (ts.map fun t => if t.dst = 0 then t.value.toNat else 0).sum

theorem replay_append (ts us : List (Transfer A w)) (L : A → Nat) :
    replay (ts ++ us) L = (replay ts L).bind (replay us) := by
  induction ts generalizing L with
  | nil => rfl
  | cons t ts ih =>
    rw [List.cons_append, replay, replay]
    cases debitEntry L t with
    | none => rfl
    | some L' => exact ih _

@[simp] theorem minted_append (ts us : List (Transfer A w)) :
    minted (ts ++ us) = minted ts + minted us := by
  simp [minted]

@[simp] theorem burnt_append (ts us : List (Transfer A w)) :
    burnt (ts ++ us) = burnt ts + burnt us := by
  simp [burnt]

/-! ### Entries that make up for a change -/

/-- The entries `ts` are what a ledger that went from `bal` under the supply `S` to `bal'`
    under `S'` owes to its log. -/
structure Accounts (ts : List (Transfer A w)) (bal : A → BitVec w) (S : BitVec w)
    (bal' : A → BitVec w) (S' : BitVec w) : Prop where
  replays : ∀ L : A → Nat, (∀ x, (bal x).toNat ≤ L x) →
    ∃ L', replay ts L = some L' ∧ ∀ x, L' x + (bal x).toNat = L x + (bal' x).toNat
  supply : minted ts + S.toNat = burnt ts + S'.toNat

namespace Accounts

variable {ts us : List (Transfer A w)} {bal bal₁ bal₂ bal' : A → BitVec w} {S S₁ S' : BitVec w}
variable {src dst : A} {amount : BitVec w}

theorem refl (bal : A → BitVec w) (S : BitVec w) : Accounts [] bal S bal S where
  replays L _ := ⟨L, rfl, fun _ => rfl⟩
  supply := rfl

theorem trans (h : Accounts ts bal S bal₁ S₁) (h' : Accounts us bal₁ S₁ bal' S') :
    Accounts (ts ++ us) bal S bal' S' where
  replays L hL := by
    obtain ⟨L₁, hr₁, hx₁⟩ := h.replays L hL
    have hL₁ : ∀ x, (bal₁ x).toNat ≤ L₁ x := by
      intro x
      have hle := hL x
      have heq := hx₁ x
      omega
    obtain ⟨L₂, hr₂, hx₂⟩ := h'.replays L₁ hL₁
    refine ⟨L₂, ?_, ?_⟩
    · rw [replay_append, hr₁]
      exact hr₂
    · intro x
      have heq₁ := hx₁ x
      have heq₂ := hx₂ x
      omega
  supply := by
    have h₁ := h.supply
    have h₂ := h'.supply
    rw [minted_append, burnt_append]
    omega

/-- An issue, logged at once. -/
theorem of_credit (hdst : dst ≠ 0) (hb : credit bal dst amount = .ok bal')
    (hS : add S amount = .ok S') : Accounts [⟨0, dst, amount⟩] bal S bal' S' where
  replays L _ := by
    obtain ⟨t, ht, rfl⟩ := credit_eq_ok.mp hb
    refine ⟨Function.update L dst (L dst + amount.toNat), ?_, ?_⟩
    · simp [replay, debitEntry, creditEntry, hdst]
    · intro x
      by_cases hx : x = dst
      · subst hx
        rw [Function.update_self, Function.update_self]
        omega
      · rw [Function.update_of_ne hx, Function.update_of_ne hx]
  supply := by
    have hsum := add_eq_ok.mp hS
    simp [minted, burnt, hdst]
    omega

/-- A retirement from which on the ledger owes the log its entry, and the entry after
    whatever was logged in between. -/
theorem of_debit (hsrc : src ≠ 0) (hb : debit bal src amount = .ok bal₁)
    (hS : sub S amount = .ok S₁) (h : Accounts ts bal₁ S₁ bal' S') :
    Accounts (ts ++ [⟨src, 0, amount⟩]) bal S bal' S' where
  replays L hL := by
    obtain ⟨f, hf, rfl⟩ := debit_eq_ok.mp hb
    -- the reader is ahead of the ledger by the retirement, also once the entries `ts` are read
    have hL₁ : ∀ x, (Function.update bal src f x).toNat ≤ L x := by
      intro x
      have hle := hL x
      by_cases hx : x = src
      · subst hx
        rw [Function.update_self]
        omega
      · rw [Function.update_of_ne hx]
        exact hle
    obtain ⟨L₁, hr₁, hx₁⟩ := h.replays L hL₁
    have hsrc₁ := hx₁ src
    rw [Function.update_self] at hsrc₁
    have hge : amount.toNat ≤ L₁ src := by
      have hle := hL src
      omega
    refine ⟨Function.update L₁ src (L₁ src - amount.toNat), ?_, ?_⟩
    · rw [replay_append, hr₁]
      simp [replay, debitEntry, creditEntry, hsrc, hge]
    · intro x
      by_cases hx : x = src
      · subst hx
        rw [Function.update_self]
        omega
      · have hother := hx₁ x
        rw [Function.update_of_ne hx] at hother ⊢
        exact hother
  supply := by
    have hsum := sub_eq_ok.mp hS
    have hts := h.supply
    simp [minted, burnt, hsrc] at hts ⊢
    omega

/-- A move, logged at once; from an account to itself it reads as nothing. -/
theorem of_move (hsrc : src ≠ 0) (hdst : dst ≠ 0) (hcov : amount ≤ bal src)
    (hb : move bal src dst amount = .ok bal') : Accounts [⟨src, dst, amount⟩] bal S bal' S where
  replays L hL := by
    have hge : amount.toNat ≤ L src := (BitVec.le_def.mp hcov).trans (hL src)
    by_cases hne : dst = src
    · subst hne
      rw [move_self] at hb
      cases hb
      refine ⟨L, ?_, fun _ => rfl⟩
      simp [replay, debitEntry, creditEntry, hsrc, hge]
    · obtain ⟨f, t, hf, ht, rfl⟩ := (move_eq_ok hne).mp hb
      refine ⟨Function.update (Function.update L src (L src - amount.toNat)) dst
        (L dst + amount.toNat), ?_, ?_⟩
      · simp [replay, debitEntry, creditEntry, hsrc, hdst, hge, hne]
      · intro x
        by_cases hx : x = dst
        · subst hx
          rw [Function.update_self, Function.update_self]
          omega
        · rw [Function.update_of_ne hx, Function.update_of_ne hx]
          by_cases hs : x = src
          · subst hs
            rw [Function.update_self, Function.update_self]
            omega
          · rw [Function.update_of_ne hs, Function.update_of_ne hs]
  supply := by simp [minted, burnt, hsrc, hdst]

/-- **A reader that starts with nothing, as the ledger did, ends with the ledger.** -/
theorem replay_eq (h : Accounts ts (fun _ => 0#w) 0#w bal' S') :
    replay ts (fun _ => 0) = some (fun x => (bal' x).toNat) ∧
      (minted ts : Int) - burnt ts = S'.toNat := by
  constructor
  · obtain ⟨L', hr, hx⟩ := h.replays (fun _ => 0) (fun x => by simp)
    rw [hr]
    congr 1
    funext x
    simpa using hx x
  · have hS := h.supply
    simp only [BitVec.toNat_ofNat, Nat.zero_mod, Nat.add_zero] at hS
    omega

end Accounts

/-! ### The entries of an effect -/

/-- What an effect is logged as. -/
def entries : Effect A w → List (Transfer A w)
  | .keep => []
  | .move src dst amount => [⟨src, dst, amount⟩]
  | .issue dst amount => [⟨0, dst, amount⟩]
  | .retire src amount => [⟨src, 0, amount⟩]

/-- The effect gives to an account, and takes something. -/
def Proper : Effect A w → Prop
  | .keep => True
  | .move _ dst amount => dst ≠ 0 ∧ 0#w < amount
  | .issue dst _ => dst ≠ 0
  | .retire _ amount => 0#w < amount

variable {e : Effect A w} {bal bal' : A → BitVec w} {S S' : BitVec w}

omit [DecidableEq A] in
/-- Nothing is taken from an account that holds nothing. -/
theorem ne_zero_of_covered {src : A} {amount : BitVec w} (hzero : bal 0 = 0#w)
    (hpos : 0#w < amount) (hcov : amount ≤ bal src) : src ≠ 0 := by
  rintro rfl
  rw [hzero] at hcov
  rw [BitVec.lt_def] at hpos
  rw [BitVec.le_def] at hcov
  omega

/-- **An effect owes the log its entries**, as long as the zero account holds nothing, which
    it goes on to do. -/
theorem accounts_of_effect (hzero : bal 0 = 0#w) (hproper : Proper e) (hcov : e.Covered bal)
    (hS : e.supply S = .ok S') (hb : e.balances bal = .ok bal') :
    Accounts (entries e) bal S bal' S' ∧ bal' 0 = 0#w := by
  cases e with
  | keep =>
    cases hS
    cases hb
    exact ⟨.refl bal S, hzero⟩
  | move src dst amount =>
    cases hS
    obtain ⟨hdst, hpos⟩ := hproper
    have hsrc := ne_zero_of_covered hzero hpos hcov
    refine ⟨.of_move hsrc hdst hcov hb, ?_⟩
    by_cases hne : dst = src
    · subst hne
      rw [Effect.balances, move_self] at hb
      cases hb
      exact hzero
    · obtain ⟨f, t, -, -, rfl⟩ := (move_eq_ok hne).mp hb
      rw [Function.update_of_ne (Ne.symm hdst), Function.update_of_ne (Ne.symm hsrc), hzero]
  | issue dst amount =>
    refine ⟨.of_credit hproper hb hS, ?_⟩
    obtain ⟨t, -, rfl⟩ := credit_eq_ok.mp hb
    rw [Function.update_of_ne (Ne.symm hproper), hzero]
  | retire src amount =>
    have hsrc := ne_zero_of_covered hzero hproper hcov
    refine ⟨.of_debit hsrc hb hS (.refl bal' S'), ?_⟩
    obtain ⟨f, -, rfl⟩ := debit_eq_ok.mp hb
    rw [Function.update_of_ne (Ne.symm hsrc), hzero]

end CambrianLang.TransferLog
