/-
  **What the guards of a route disagree on when they can.**

  A probe is a behaviour in which the work of a function is counted, so that one
  condition can be made to fail at one place.
-/
import CambrianLang.Guards.CheckOrder

namespace CambrianLang.Guards

open Ast Solidity StraightLine
open Validate FirstFailure

/-! ### Probes -/

section Probes

variable {CanTrap : Expr → Prop} {t : Expr → Nat → Bool} {sender : Bool} {trap : Expr → Option Nat}

/-- Conditions hold as `t` says, all senders pass or none, and work is counted. -/
def probe (t : Expr → Nat → Bool) (sender : Bool) (trap : Expr → Option Nat)
    (htrap : ∀ e, trap e ≠ none → CanTrap e) : Behaviour CanTrap Nat where
  truth := t
  admits _ _ := sender
  panics e _ := trap e
  panics_only e _ := htrap e
  perform _ n := some (n + 1)
  proceed _ n := some (n + 1)
  proceed_of_perform _ _ _ h := h
  perform_of_proceed _ _ _ _ h := h

/-- A probe in which nothing traps. -/
def calm (CanTrap : Expr → Prop) (t : Expr → Nat → Bool) (sender : Bool) : Behaviour CanTrap Nat :=
  probe t sender (fun _ => none) fun _ h => absurd rfl h

open Classical in
/-- Everything holds but one condition after `n` pieces of work. -/
noncomputable def truthExcept (e : Expr) (n : Nat) : Expr → Nat → Bool :=
  fun e' n' => decide (¬ (e' = e ∧ n' = n))

theorem truthExcept_self (e : Expr) (n : Nat) : truthExcept e n e n = false := by
  simp [truthExcept]

open Classical in
theorem truthExcept_other {e e' : Expr} {n n' : Nat} (h : ¬ (e' = e ∧ n' = n)) :
    truthExcept e n e' n' = true := by
  unfold truthExcept
  exact decide_eq_true h

open Classical in
/-- One expression panics with the code. -/
noncomputable def trapAt (e : Expr) (code : Nat) : Expr → Option Nat :=
  fun e' => if e' = e then some code else none

theorem trapAt_self (e : Expr) (code : Nat) : trapAt e code e = some code := if_pos rfl

theorem trapAt_eq {e e' : Expr} {code : Nat} (h : trapAt e code e' ≠ none) : e' = e := by
  unfold trapAt at h
  by_contra hne
  exact h (if_neg hne)

theorem trapAt_only {e : Expr} {code : Nat} (he : CanTrap e) :
    ∀ e', trapAt e code e' ≠ none → CanTrap e' := fun _ h => trapAt_eq h ▸ he

theorem trapAt_code {e e' : Expr} {code j : Nat} (h : trapAt e code e' = some j) : j = code := by
  have he := trapAt_eq (by rw [h]; exact Option.some_ne_none j)
  rw [he, trapAt_self] at h
  exact (Option.some.inj h).symm

theorem exists_other (x : Option Nat) : ∃ code, x ≠ some code := by
  cases x with
  | none => exact ⟨0, nofun⟩
  | some c => exact ⟨c + 1, fun h => absurd (Option.some.inj h) (Nat.ne_of_lt (Nat.lt_succ_self c))⟩

/-- The pieces of work in some code. -/
def works (code : List Part) : Nat := code.countP (!isGuard ·)

theorem probe_next (B : Behaviour CanTrap Nat) (h : ∀ p n, B.perform p n = some (n + 1)) (p : Part)
    (n : Nat) : B.evmNext p n = some (n + works [p]) := by
  cases hguard : isGuard p with
  | true => rw [evmNext_guard hguard]; simp [works, hguard]
  | false => rw [evmNext_work hguard, h]; simp [works, hguard]

/-- Guards that pass after the work before them let the code through to its end. -/
theorem exec_counts {E : Type} {fails : Part → Nat → Option E} {next : Part → Nat → Option Nat}
    (hnext : ∀ p n, next p n = some (n + works [p])) (before : List Part) :
    (∀ b p a, before = b ++ p :: a → fails p (works b) = none) →
      exec (passing fails next) before 0 = some (works before) := by
  induction before using List.reverseRecOn with
  | nil => exact fun _ => rfl
  | append_singleton before p ih =>
    intro h
    have hfront := ih fun b q a hsplit => h b q (a ++ [p]) (by rw [hsplit, List.append_assoc]; rfl)
    rw [exec_append, hfront, Option.bind_some, exec_cons,
      passing_eq_some.mpr ⟨h before p [] rfl, hnext p (works before)⟩, Option.bind_some, exec_nil]
    simp [works]

/-- A condition checked after all the work there is, is held. -/
theorem held_of_works {b a : List Part} {phase : Option String} {w : WhereClause}
    (h : works (b ++ .whereCheck phase w :: a) = works b) :
    w.condition ∈ held (b ++ .whereCheck phase w :: a) := by
  have hguards : ∀ p ∈ a, isGuard p = true := by
    intro p hp
    by_contra hwork
    have hpos : 0 < works a := by
      apply List.countP_pos_iff.mpr
      exact ⟨p, hp, by simp [hwork]⟩
    simp only [works, List.countP_append, List.countP_cons] at h hpos
    omega
  have hkeep : ∀ (a : List Part) (known : List Expr), (∀ p ∈ a, isGuard p = true) →
      w.condition ∈ known → w.condition ∈ a.foldl heldAfter known := by
    intro a
    induction a with
    | nil => exact fun _ _ h => h
    | cons p a ih =>
      intro known ha hmem
      apply ih _ fun q hq => ha q (List.mem_cons_of_mem _ hq)
      cases p with
      | fromCheck cs => exact hmem
      | whereCheck phase' w' => exact List.mem_cons_of_mem _ hmem
      | _ => cases ha _ List.mem_cons_self
  rw [held, List.foldl_append]
  exact hkeep a _ hguards List.mem_cons_self

theorem senderAdmitted_false {S : Type} {B : Behaviour CanTrap S} {s : S} {cs : List FromClause}
    (h : B.senderAdmitted cs s = .ok false) : ∀ c ∈ cs, ∀ a ∈ c.args, B.panics a s = none := by
  induction cs with
  | nil => exact fun c hc => absurd hc List.not_mem_nil
  | cons d cs ih =>
    rw [Behaviour.senderAdmitted] at h
    cases hpanic : B.firstPanic d.args s with
    | some code =>
      rw [hpanic] at h
      cases h
    | none =>
      rw [hpanic] at h
      dsimp only at h
      split at h
      · cases h
      · intro c hc
        rcases List.mem_cons.mp hc with rfl | hc
        · exact List.findSome?_eq_none_iff.mp hpanic
        · exact ih h c hc

theorem senderAdmitted_error {S : Type} {B : Behaviour CanTrap S} {s : S} {cs : List FromClause}
    {code : Nat} (h : B.senderAdmitted cs s = .error code) : ∃ e, B.panics e s = some code := by
  induction cs with
  | nil => cases h
  | cons d cs ih =>
    rw [Behaviour.senderAdmitted] at h
    cases hpanic : B.firstPanic d.args s with
    | some code' =>
      rw [hpanic] at h
      cases h
      obtain ⟨_, e, _, -, he, -⟩ := List.findSome?_eq_some_iff.mp hpanic
      exact ⟨e, he⟩
    | none =>
      rw [hpanic] at h
      dsimp only at h
      split at h
      · cases h
      · exact ih h

/-- A sender check that nobody passes and in which an expression traps. -/
theorem from_traps {cs : List FromClause} {a : Expr} {code : Nat} (ha : CanTrap a)
    (hmem : (∃ c ∈ cs, a ∈ c.args) ∨ a ∈ (fromRevert cs).2) (n : Nat) :
    (probe t false (trapAt a code) (trapAt_only ha) : Behaviour CanTrap Nat).evmFails (.fromCheck cs) n =
      some (.panic code) := by
  rw [Behaviour.evmFails]
  cases hsender : (probe t false (trapAt a code)
      (trapAt_only ha) : Behaviour CanTrap Nat).senderAdmitted cs n with
  | error j =>
    obtain ⟨e, he⟩ := senderAdmitted_error hsender
    rw [trapAt_code he]
  | ok passed =>
    cases passed with
    | true =>
      exfalso
      clear hmem
      induction cs with
      | nil => cases hsender
      | cons c cs ih =>
        rw [Behaviour.senderAdmitted] at hsender
        cases hpanic : (probe t false (trapAt a code)
            (trapAt_only ha) : Behaviour CanTrap Nat).firstPanic c.args n with
        | some j =>
          rw [hpanic] at hsender
          cases hsender
        | none =>
          rw [hpanic] at hsender
          exact ih hsender
    | false =>
      have hquiet := senderAdmitted_false hsender
      have harg : a ∈ (fromRevert cs).2 := by
        rcases hmem with ⟨c, hc, hac⟩ | hmem
        · have hnone := hquiet c hc a hac
          cases (trapAt_self a code).symm.trans hnone
        · exact hmem
      dsimp only
      rw [Behaviour.raise]
      cases hpanic : (probe t false (trapAt a code)
          (trapAt_only ha) : Behaviour CanTrap Nat).firstPanic (fromRevert cs).2 n with
      | some j =>
        obtain ⟨_, e, _, -, he, -⟩ := List.findSome?_eq_some_iff.mp hpanic
        rw [trapAt_code he]
      | none =>
        have hnone := List.findSome?_eq_none_iff.mp hpanic a harg
        cases (trapAt_self a code).symm.trans hnone

end Probes

/-! ### What agreement needs -/

section Necessary

variable {CanTrap : Expr → Prop} {entity : Entity} {route : Route} {form : Form}
variable {deterministic : Bool}

theorem next_total (B : Behaviour CanTrap Nat) (h : ∀ p n, B.perform p n = some (n + 1)) (p : Part)
    (n : Nat) (_ : True) : ∃ m, B.evmNext p n = some m ∧ True := ⟨_, probe_next B h p n, trivial⟩

theorem mem_genFromChecks {p : Part} (h : p ∈ genFromChecks route) :
    p = .fromCheck route.fromClauses ∧ route.fromClauses ≠ [] := by
  unfold genFromChecks at h
  split at h
  · exact absurd h List.not_mem_nil
  · next hne => exact ⟨List.mem_singleton.mp h, fun hnil => hne (by rw [hnil]; rfl)⟩

theorem not_from_of_guardless {code : List Part} (h : ∀ g ∈ code, isGuard g = false)
    {cs : List FromClause} : .fromCheck cs ∉ code := fun hmem => nomatch h _ hmem

/-- The sender checks of an emitted function are those of its route. -/
theorem mem_emitted_from (hacc : checkRoutePhases entity route = [])
    (h : (form, route) ∈ contractForms deterministic entity) {cs : List FromClause}
    (hmem : .fromCheck cs ∈ (form.emit entity route).body) :
    form = .function ∧ cs = route.fromClauses ∧ route.fromClauses ≠ [] := by
  obtain ⟨rest, hcode, hregular, hinit⟩ := emitted_shape hacc h
  rw [hcode] at hmem
  rcases List.mem_append.mp hmem with hmem | hmem
  · unfold senderGuards at hmem
    split at hmem
    · next hform =>
      obtain ⟨heq, hne⟩ := mem_genFromChecks hmem
      cases heq
      exact ⟨hform, rfl, hne⟩
    · exact absurd hmem List.not_mem_nil
  · rcases List.mem_append.mp hmem with hmem | hmem
    · obtain ⟨w, -, heq⟩ := List.mem_map.mp hmem
      cases heq
    · by_cases hreg : Form.Regular form
      · rw [hregular hreg, ← emitRouteBody_eq] at hmem
        exact absurd rfl (unsent_emitRouteBody _ hmem cs)
      · exact absurd hmem (not_from_of_guardless (hinit hreg))

theorem mem_leanBody_from (hacc : checkRoutePhases entity route = []) {cs : List FromClause}
    (hmem : .fromCheck cs ∈ leanBody entity route) :
    cs = route.fromClauses ∧ route.fromClauses ≠ [] := by
  have hentry : .fromCheck cs ∈ genFromChecks route → cs = route.fromClauses ∧ route.fromClauses ≠ [] := by
    intro hin
    obtain ⟨heq, hne⟩ := mem_genFromChecks hin
    cases heq
    exact ⟨rfl, hne⟩
  have hwheres : ∀ phase clauses, .fromCheck cs ∉ genWhereChecks phase clauses := by
    intro phase clauses hin
    obtain ⟨w, -, heq⟩ := List.mem_map.mp hin
    cases heq
  cases hbody : route.body with
  | mixed phases actions => exact absurd hbody (body_not_mixed hacc)
  | unphased actions =>
    rw [leanBody_unphased hbody] at hmem
    rcases List.mem_append.mp hmem with hmem | hmem
    · unfold unphasedGuards at hmem
      split at hmem
      · exact hentry ((List.mem_append.mp hmem).resolve_right (hwheres _ _))
      · rcases (List.mem_append.mp hmem).resolve_left (hwheres _ _) with hmem
        exact hentry ((List.mem_append.mp hmem).resolve_right (hwheres _ _))
    · exact absurd hmem (not_from_of_guardless fun g hg => isGuard_unphasedWork hg)
  | phased phases =>
    rw [leanBody_phased hbody] at hmem
    rcases List.mem_append.mp hmem with hmem | hmem
    · exact hentry ((List.mem_append.mp hmem).resolve_right (hwheres _ _))
    · obtain ⟨q, -, hmem⟩ := List.mem_flatMap.mp hmem
      have hmem := (List.mem_append.mp hmem).resolve_left (hwheres _ _)
      rcases List.mem_append.mp hmem with hmem | hmem
      · split at hmem
        · exact absurd hmem List.not_mem_nil
        · exact absurd hmem (hwheres _ _)
      · exact absurd hmem (not_from_of_guardless fun g hg => isGuard_genStage hg)

/-- Where every sender passes, only conditions fail. -/
theorem lean_passes {B : Behaviour CanTrap Nat} {n : Nat} {p : Part}
    (hsender : ∀ cs, p = .fromCheck cs → cs.any (B.admits · n) = true)
    (hwhere : ∀ phase w, p = .whereCheck phase w → B.truth w.condition n = true) :
    B.leanFails p n = none := by
  cases p with
  | fromCheck cs => exact if_pos (hsender cs rfl)
  | whereCheck phase w => exact if_pos (hwhere phase w rfl)
  | _ => rfl

theorem any_true {cs : List FromClause} (h : cs ≠ []) : cs.any (fun _ => true) = true := by
  obtain ⟨c, hc⟩ := List.exists_mem_of_ne_nil _ h
  exact List.any_eq_true.mpr ⟨c, hc, rfl⟩

theorem mem_leanBody_of_sender (h : route.fromClauses ≠ []) (hacc : checkRoutePhases entity route = []) :
    .fromCheck route.fromClauses ∈ leanBody entity route := by
  have hmem : Part.fromCheck route.fromClauses ∈ genFromChecks route := by
    rw [genFromChecks, if_neg (by rwa [List.isEmpty_iff])]
    exact List.mem_singleton.mpr rfl
  cases hbody : route.body with
  | mixed phases actions => exact absurd hbody (body_not_mixed hacc)
  | unphased actions =>
    rw [leanBody_unphased hbody]
    apply List.mem_append_left
    unfold unphasedGuards
    split
    · exact List.mem_append_left _ hmem
    · exact List.mem_append_right _ (List.mem_append_left _ hmem)
  | phased phases =>
    rw [leanBody_phased hbody]
    exact List.mem_append_left _ (List.mem_append_left _ hmem)

/-- A form without the sender check agrees with Lean only where there is nothing to check. -/
theorem sender_needed (hacc : checkRoutePhases entity route = [])
    (hform : (form, route) ∈ contractForms deterministic entity)
    (h : FailAlike CanTrap entity route form) : form = .function ∨ route.fromClauses = [] := by
  by_contra hno
  push Not at hno
  let B := calm CanTrap (fun _ _ => true) false
  have hevm : firstFailure B.evmFails B.evmNext (form.emit entity route).body 0 = none := by
    apply firstFailure_quiet
    intro p hp n
    cases p with
    | fromCheck cs => exact absurd (mem_emitted_from hacc hform hp).1 hno.1
    | _ => rfl
  have hlean : firstFailure B.leanFails B.leanNext (leanBody entity route) 0 ≠ none := by
    apply firstFailure_of_mem (fun p _ n => next_total B (fun _ _ => rfl) p n)
      (mem_leanBody_of_sender hno.2 hacc) _ trivial
    intro n _
    have hany : route.fromClauses.any (B.admits · n) = false := List.any_eq_false.mpr fun _ _ => nofun
    rw [Behaviour.leanFails, hany]
    exact Option.some_ne_none _
  have hsame := h Nat B 0
  rw [hevm, Option.map_none] at hsame
  exact hlean hsame.symm

/-- A condition that traps on the one side only. -/
theorem condition_needed (hacc : checkRoutePhases entity route = [])
    (h : FailAlike CanTrap entity route form) {phase : Option String} {w : WhereClause}
    (hmem : .whereCheck phase w ∈ (form.emit entity route).body) : ¬ CanTrap w.condition := by
  intro htrap
  let B := probe (fun _ _ => true) true (trapAt w.condition 0) (trapAt_only htrap)
  have hlean : firstFailure B.leanFails B.leanNext (leanBody entity route) 0 = none := by
    apply firstFailure_quiet
    intro p hp n
    apply lean_passes
    · rintro cs rfl
      obtain ⟨rfl, hne⟩ := mem_leanBody_from hacc hp
      exact any_true hne
    · exact fun _ _ _ => rfl
  have hevm : firstFailure B.evmFails B.evmNext (form.emit entity route).body 0 ≠ none := by
    apply firstFailure_of_mem (fun p _ n => next_total B (fun _ _ => rfl) p n) hmem _ trivial
    intro n _
    have hpanic : B.panics w.condition n = some 0 := trapAt_self _ _
    rw [Behaviour.evmFails, hpanic]
    exact Option.some_ne_none _
  have hsame := h Nat B 0
  rw [hlean, Option.map_eq_none_iff] at hsame
  exact hevm hsame

/-- A sender check that traps, in a sender's address or an argument of its error. -/
theorem sender_traps_needed (hacc : checkRoutePhases entity route = [])
    (hform : (form, route) ∈ contractForms deterministic entity)
    (h : FailAlike CanTrap entity route form) {cs : List FromClause}
    (hmem : .fromCheck cs ∈ (form.emit entity route).body) {a : Expr}
    (ha : (∃ c ∈ cs, a ∈ c.args) ∨ a ∈ (fromRevert cs).2) : ¬ CanTrap a := by
  intro htrap
  obtain ⟨code, hcode⟩ := exists_other (firstFailure (calm CanTrap (fun _ _ => true) false).leanFails
    (calm CanTrap (fun _ _ => true) false).leanNext (leanBody entity route) 0)
  let B := probe (fun _ _ => true) false (trapAt a code) (trapAt_only htrap)
  obtain ⟨rfl, hcs, hne⟩ := mem_emitted_from hacc hform hmem
  obtain ⟨rest, hbody, -, -⟩ := emitted_shape hacc hform
  have hfront : senderGuards .function route = [.fromCheck cs] := by
    rw [senderGuards, if_pos rfl, genFromChecks, if_neg (by rwa [List.isEmpty_iff]), hcs]
  have hevm : firstFailure B.evmFails B.evmNext (Form.function.emit entity route).body 0 =
      some (.panic code) := by
    rw [hbody, hfront, List.singleton_append, firstFailure_cons, from_traps htrap ha, Option.some_or]
  have hsame := h Nat B 0
  rw [hevm] at hsame
  exact hcode hsame.symm

end Necessary

end CambrianLang.Guards
