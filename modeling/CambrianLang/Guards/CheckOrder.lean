/-
  **When both back ends check the guards of a route alike.**

  A condition that has been checked with no work since then is `held`; a clause that
  repeats it cannot be the first to fail.
-/
import CambrianLang.Guards.RouteFailures

namespace CambrianLang.Guards

open Ast Analysis Solidity
open Validate FirstFailure

/-! ### The condition -/

def heldAfter (known : List Expr) : Part → List Expr
  | .fromCheck _ => known
  | .whereCheck _ w => w.condition :: known
  | _ => []

/-- The conditions checked since the last work. -/
def held (before : List Part) : List Expr := before.foldl heldAfter []

/-- The guard is not a `where` clause whose condition is known to hold. -/
def Fresh (known : List Expr) : Part → Prop
  | .whereCheck _ w => w.condition ∉ known
  | _ => True

/-- Nothing that the guard can come to evaluate traps. -/
def Trapless (CanTrap : Expr → Prop) (known : List Expr) : Part → Prop
  | .fromCheck cs => (∀ c ∈ cs, ∀ a ∈ c.args, ¬ CanTrap a) ∧ ∀ a ∈ (fromRevert cs).2, ¬ CanTrap a
  | .whereCheck _ w =>
      ¬ CanTrap w.condition ∧ (w.condition ∉ known → ∀ a ∈ (whereRevert w).2, ¬ CanTrap a)
  | _ => True

def guardCode : Part → Nat
  | .fromCheck cs => fromThrowCode cs
  | .whereCheck _ w => whereClauseThrowCode w
  | _ => 0

/-- A guard that stands on the wrapper of a Lean route. -/
def readsWorld (entity : Entity) : Part → Bool
  | .whereCheck _ w => exprNeedsWorld entity w.condition
  | _ => false

def entryGuards (route : Route) : List Part :=
  genFromChecks route ++ genWhereChecks none route.whereClauses

/-- A guard that reads the world overtakes no guard with another code on its way to the wrapper. -/
def KeepsOrder (entity : Entity) (route : Route) : Prop :=
  ∀ before a mid b after, entryGuards route = before ++ a :: (mid ++ b :: after) →
    readsWorld entity a = false → readsWorld entity b = true → Fresh (held before) a →
    Fresh (held (before ++ a :: mid)) b → guardCode a = guardCode b

structure ChecksAlike (CanTrap : Expr → Prop) (entity : Entity) (route : Route) (form : Form) :
    Prop where
  sender : form = .function ∨ route.fromClauses = []
  phases : form = .function ∨ form = .receiveOrFallback ∨ ∀ before phase w after,
    leanBody entity route = before ++ .whereCheck (some phase) w :: after → w.condition ∈ held before
  traps : ∀ before p after, (form.emit entity route).body = before ++ p :: after →
    Trapless CanTrap (held before) p
  returns : ∀ before p after, leanBody entity route = before ++ p :: after → CanEnd p →
    ∀ g ∈ after, isGuard g = false
  order : ∀ actions, route.body = .unphased actions → routeHasUnphasedSends route = false →
    KeepsOrder entity route

/-! ### The code of a failed sender check -/

section Codes

theorem fromThrowKey_eq {c d : FromClause} (h : fromThrowKey d = fromThrowKey c) :
    d.errorName = c.errorName ∧ (c.errorName = none → d.errorCode = c.errorCode) := by
  unfold fromThrowKey at h
  cases hc : c.errorName with
  | some name =>
    cases hd : d.errorName with
    | some name' =>
      simp only [hc, hd, FromThrowKey.named.injEq] at h
      exact ⟨by rw [h], fun hnone => nomatch hnone⟩
    | none =>
      cases hk : d.errorCode <;> simp [hc, hd, hk] at h
  | none =>
    cases hd : d.errorName with
    | some name => cases hk : c.errorCode <;> simp [hc, hd, hk] at h
    | none =>
      refine ⟨rfl, fun _ => ?_⟩
      cases hkc : c.errorCode <;> cases hkd : d.errorCode <;> simp_all

theorem isChain_replicate {α : Type} (n : Nat) (x : α) : (List.replicate n x).IsChain (· = ·) :=
  (List.pairwise_replicate.mpr (.inr rfl)).isChain

theorem filterMap_of_some {α β : Type} {f : α → Option β} {x : β} {xs : List α}
    (h : ∀ a ∈ xs, f a = some x) : xs.filterMap f = List.replicate xs.length x := by
  induction xs with
  | nil => rfl
  | cons a xs ih =>
    rw [List.filterMap_cons_some (h a List.mem_cons_self), ih fun b hb => h b (List.mem_cons_of_mem _ hb)]
    rfl

theorem filterMap_of_none {α β : Type} {f : α → Option β} {xs : List α} (h : ∀ a ∈ xs, f a = none) :
    xs.filterMap f = [] := List.filterMap_eq_nil_iff.mpr h

/-- Both back ends report a failed sender check by the annotation that all clauses share. -/
theorem code_fromRevert {cs : List FromClause} (h : uniformThrow cs = true) :
    (fromRevert cs).1.code = fromThrowCode cs := by
  cases cs with
  | nil => rfl
  | cons c rest =>
    have hkeys : ∀ d ∈ c :: rest, fromThrowKey d = fromThrowKey c := by
      intro d hd
      rcases List.mem_cons.mp hd with rfl | hd
      · rfl
      · exact of_decide_eq_true (List.all_eq_true.mp h d hd)
    cases hname : c.errorName with
    | some name =>
      have hnames := filterMap_of_some (f := FromClause.errorName) (x := name) fun d hd =>
        (fromThrowKey_eq (hkeys d hd)).1.trans hname
      have hshared : sharedName (c :: rest) = some (name, c.errorArgs) := by
        simp only [sharedName, hnames, List.length_replicate, isChain_replicate, and_self, if_true,
          List.head?_cons, Option.bind_some, hname, Option.map_some]
      simp [fromRevert, hshared, fromThrowCode, hname, Revert.code]
    | none =>
      have hnames := filterMap_of_none (f := FromClause.errorName) fun d hd =>
        (fromThrowKey_eq (hkeys d hd)).1.trans hname
      have hshared : sharedName (c :: rest) = none := by simp [sharedName, hnames]
      cases hcode : c.errorCode with
      | some code =>
        have hcodes := filterMap_of_some (f := FromClause.errorCode) (x := code) fun d hd =>
          ((fromThrowKey_eq (hkeys d hd)).2 hname).trans hcode
        have hshared' : sharedCode (c :: rest) = some code := by
          rw [sharedCode, hcodes]
          exact if_pos ⟨List.length_replicate, isChain_replicate _ _⟩
        simp [fromRevert, hshared, hshared', fromThrowCode, hname, hcode, Revert.code]
      | none =>
        have hcodes := filterMap_of_none (f := FromClause.errorCode) fun d hd =>
          ((fromThrowKey_eq (hkeys d hd)).2 hname).trans hcode
        have hshared' : sharedCode (c :: rest) = none := by simp [sharedCode, hcodes]
        have hnone : ((c :: rest).findSome? fun d =>
            (d.errorName.map cambrianFunctionId).or d.errorCode) = none := by
          apply List.findSome?_eq_none_iff.mpr
          intro d hd
          obtain ⟨hd1, hd2⟩ := fromThrowKey_eq (hkeys d hd)
          rw [hd1, hname, hd2 hname, hcode]
          rfl
        simp [fromRevert, hshared, hshared', fromThrowCode, hnone, Revert.code]

theorem code_whereRevert (w : WhereClause) : (whereRevert w).1.code = whereClauseThrowCode w := by
  unfold whereRevert whereClauseThrowCode
  cases w.errorName with
  | some name => rfl
  | none => rfl

theorem uniform_of_accepted {entity : Entity} {route : Route}
    (h : checkFromClauseUniformThrow entity = []) (hroute : route ∈ entity.routes) :
    uniformThrow route.fromClauses = true := by
  rw [checkFromClauseUniformThrow, List.map_eq_nil_iff, List.filter_eq_nil_iff] at h
  have hthis := h route hroute
  simpa using hthis

end Codes

/-! ### Guards in order -/

section Runs

variable {CanTrap : Expr → Prop} {S : Type} {B : Behaviour CanTrap S} {entity : Entity}
variable {route : Route} {s : S}

theorem evmNext_guard {p : Part} (h : isGuard p = true) : B.evmNext p s = some s := if_pos h

theorem evmNext_work {p : Part} (h : isGuard p = false) : B.evmNext p s = B.perform p s :=
  if_neg (by rw [h]; exact Bool.false_ne_true)

theorem leanNext_guard {p : Part} (h : isGuard p = true) : B.leanNext p s = some s := if_pos h

theorem leanNext_work {p : Part} (h : isGuard p = false) : B.leanNext p s = B.proceed p s :=
  if_neg (by rw [h]; exact Bool.false_ne_true)

theorem leanFails_work {p : Part} (h : isGuard p = false) : B.leanFails p s = none := by
  cases p with
  | fromCheck cs => cases h
  | whereCheck phase w => cases h
  | _ => rfl

theorem isGuard_wheres {phase : Option String} {clauses : List WhereClause} {p : Part}
    (h : p ∈ genWhereChecks phase clauses) : isGuard p = true := by
  obtain ⟨w, -, rfl⟩ := List.mem_map.mp h
  rfl

theorem isGuard_from {p : Part} (h : p ∈ genFromChecks route) : isGuard p = true := by
  unfold genFromChecks at h
  split at h
  · exact absurd h List.not_mem_nil
  · rw [List.mem_singleton.mp h]
    rfl

theorem isGuard_entry {p : Part} (h : p ∈ entryGuards route) : isGuard p = true :=
  (List.mem_append.mp h).elim isGuard_from isGuard_wheres

theorem isGuard_genStage {phase : Option String} {actions : List RouteAction} {p : Part}
    (h : p ∈ genStage entity route phase actions) : isGuard p = false := by
  rcases mem_genStage.mp h with ⟨-, rfl⟩ | ⟨a, -, rfl⟩
  · rfl
  · rfl

theorem isGuard_defaults {ms : List Member} {p : Part} (h : p ∈ ms.map Part.setDefault) :
    isGuard p = false := by
  obtain ⟨m, -, rfl⟩ := List.mem_map.mp h
  rfl

theorem isGuard_trailing {p : Part} (h : p ∈ trailing entity route) : isGuard p = false := by
  unfold trailing at h
  split at h
  · exact isGuard_genStage h
  · exact isGuard_genStage h
  · exact absurd h List.not_mem_nil

theorem held_append (before : List Part) (p : Part) :
    held (before ++ [p]) = heldAfter (held before) p := by
  rw [held, List.foldl_append]
  rfl

/-- What is known to hold stays so across a guard that passes, and is forgotten by work. -/
theorem held_true {known : List Expr} (h : ∀ e ∈ known, B.truth e s = true) {p : Part} {m : S}
    (hpass : B.leanFails p s = none) (hnext : B.evmNext p s = some m) :
    ∀ e ∈ heldAfter known p, B.truth e m = true := by
  intro e he
  cases p with
  | fromCheck cs =>
    rw [evmNext_guard rfl] at hnext
    cases hnext
    exact h e he
  | whereCheck phase w =>
    rw [evmNext_guard rfl] at hnext
    cases hnext
    rcases List.mem_cons.mp he with rfl | he
    · rw [Behaviour.leanFails] at hpass
      split at hpass
      · assumption
      · cases hpass
    · exact h e he
  | _ => exact absurd he List.not_mem_nil

theorem firstPanic_none {es : List Expr} (h : ∀ a ∈ es, ¬ CanTrap a) : B.firstPanic es s = none := by
  apply List.findSome?_eq_none_iff.mpr
  intro a ha
  by_contra hne
  exact h a ha (B.panics_only a s hne)

theorem raise_eq {r : Revert × List Expr} (h : ∀ a ∈ r.2, ¬ CanTrap a) : B.raise r s = r.1 := by
  rw [Behaviour.raise, firstPanic_none h]

theorem senderAdmitted_eq {cs : List FromClause} (h : ∀ c ∈ cs, ∀ a ∈ c.args, ¬ CanTrap a) :
    B.senderAdmitted cs s = .ok (cs.any (B.admits · s)) := by
  induction cs with
  | nil => rfl
  | cons c cs ih =>
    rw [Behaviour.senderAdmitted, firstPanic_none (h c List.mem_cons_self), List.any_cons]
    cases B.admits c s with
    | true => rfl
    | false => exact ih fun d hd => h d (List.mem_cons_of_mem _ hd)

/-- A guard that traps nowhere fails with the same code on both sides. -/
theorem code_evmFails {p : Part} {known : List Expr} (huniform : ∀ cs, p = .fromCheck cs →
    uniformThrow cs = true) (hp : Trapless CanTrap known p) (h : ∀ e ∈ known, B.truth e s = true) :
    (B.evmFails p s).map Revert.code = B.leanFails p s := by
  cases p with
  | fromCheck cs =>
    rw [Behaviour.evmFails, senderAdmitted_eq hp.1, Behaviour.leanFails]
    cases cs.any (B.admits · s) with
    | true => rfl
    | false =>
      dsimp only
      rw [raise_eq hp.2, Option.map_some, code_fromRevert (huniform cs rfl)]
      rfl
  | whereCheck phase w =>
    have hcond : B.panics w.condition s = none := by
      by_contra hne
      exact hp.1 (B.panics_only _ s hne)
    rw [Behaviour.evmFails, hcond, Behaviour.leanFails]
    dsimp only
    cases htruth : B.truth w.condition s with
    | true => rfl
    | false =>
      have hfresh : w.condition ∉ known := by
        intro hmem
        rw [h _ hmem] at htruth
        cases htruth
      rw [if_neg Bool.false_ne_true, if_neg Bool.false_ne_true, raise_eq (hp.2 hfresh),
        Option.map_some, code_whereRevert]
  | _ => rfl

/-- Without traps the errors of the emitted code are the codes of its guards. -/
theorem evm_failure {code : List Part} (huniform : ∀ cs, .fromCheck cs ∈ code →
    uniformThrow cs = true) : ∀ (before : List Part) {s : S},
      (∀ b p a, code = b ++ p :: a → Trapless CanTrap (held (before ++ b)) p) →
      (∀ e ∈ held before, B.truth e s = true) →
      (firstFailure B.evmFails B.evmNext code s).map Revert.code =
        firstFailure B.leanFails B.evmNext code s := by
  induction code with
  | nil => exact fun _ _ _ _ => rfl
  | cons p code ih =>
    intro before s htraps hknown
    have hp : Trapless CanTrap (held before) p := by
      have hfirst := htraps [] p code rfl
      rwa [List.append_nil] at hfirst
    have hcode := code_evmFails (fun cs h => huniform cs (h ▸ List.mem_cons_self)) hp hknown
    rw [firstFailure_cons, firstFailure_cons, ← hcode]
    cases hfails : B.evmFails p s with
    | some r => rfl
    | none =>
      rw [Option.none_or, Option.map_none, Option.none_or]
      cases hnext : B.evmNext p s with
      | none => rfl
      | some m =>
        rw [Option.bind_some, Option.bind_some]
        apply ih (fun cs h => huniform cs (List.mem_cons_of_mem _ h)) (before ++ [p])
        · intro b q a hsplit
          have hq := htraps (p :: b) q a (by rw [hsplit, List.cons_append])
          rwa [List.append_assoc, List.singleton_append]
        · rw [held_append]
          apply held_true hknown _ hnext
          rw [← hcode, hfails]
          rfl

/-- Nothing that follows a part that can end the function is a guard, so it does not matter
    that Lean goes on there. -/
theorem lean_failure {code : List Part} (h : ∀ b p a, code = b ++ p :: a → CanEnd p →
    ∀ g ∈ a, isGuard g = false) : ∀ s : S,
      firstFailure B.leanFails B.leanNext code s = firstFailure B.leanFails B.evmNext code s := by
  induction code with
  | nil => exact fun _ => rfl
  | cons p code ih =>
    have hrest := ih fun b q a hsplit => h (p :: b) q a (by rw [hsplit, List.cons_append])
    intro s
    rw [firstFailure_cons, firstFailure_cons]
    congr 1
    cases hguard : isGuard p with
    | true =>
      rw [leanNext_guard hguard, evmNext_guard hguard]
      exact hrest s
    | false =>
      rw [leanNext_work hguard, evmNext_work hguard]
      cases hperform : B.perform p s with
      | some m =>
        rw [B.proceed_of_perform p s m hperform]
        exact hrest m
      | none =>
        cases hproceed : B.proceed p s with
        | none => rfl
        | some m =>
          -- only a part that ends the function goes on in Lean alone
          have hend : CanEnd p := by
            by_contra hne
            rw [B.perform_of_proceed p s m hne hproceed] at hperform
            cases hperform
          have hquiet := h [] p code rfl hend
          exact firstFailure_quiet (fun l hl _ => leanFails_work (hquiet l hl)) m

/-- Guards that repeat what is known to hold do not fail. -/
theorem repeated_pass {code : List Part} : ∀ (before : List Part) {s : S},
    (∀ b p a, code = b ++ p :: a → isGuard p = true → ∃ phase w, p = .whereCheck phase w ∧
      w.condition ∈ held (before ++ b)) → (∀ e ∈ held before, B.truth e s = true) →
    firstFailure B.leanFails B.evmNext code s = none := by
  induction code with
  | nil => exact fun _ _ _ _ => rfl
  | cons p code ih =>
    intro before s hrepeat hknown
    have hpass : B.leanFails p s = none := by
      cases hguard : isGuard p with
      | false => exact leanFails_work hguard
      | true =>
        obtain ⟨phase, w, rfl, hmem⟩ := hrepeat [] p code rfl hguard
        rw [List.append_nil] at hmem
        exact if_pos (hknown _ hmem)
    rw [firstFailure_cons, hpass, Option.none_or]
    cases hnext : B.evmNext p s with
    | none => rfl
    | some m =>
      rw [Option.bind_some]
      apply ih (before ++ [p])
      · intro b q a hsplit hguard
        have hq := hrepeat (p :: b) q a (by rw [hsplit, List.cons_append]) hguard
        rwa [List.append_assoc, List.singleton_append]
      · rw [held_append]
        exact held_true hknown hpass hnext

end Runs

/-! ### The shape of the emitted functions -/

section Shapes

variable {entity : Entity} {route : Route} {form : Form} {deterministic : Bool}

/-- A form that checks the conditions of the phases. -/
def Form.Regular (form : Form) : Prop := form = .function ∨ form = .receiveOrFallback

/-- The sender check, which only an ordinary function has. -/
def senderGuards (form : Form) (route : Route) : List Part :=
  if form = .function then genFromChecks route else []

/-- An emitted body: its guards, and what follows them. -/
theorem emitted_shape (hacc : checkRoutePhases entity route = [])
    (h : (form, route) ∈ contractForms deterministic entity) : ∃ rest,
      (form.emit entity route).body =
        senderGuards form route ++ (genWhereChecks none route.whereClauses ++ rest) ∧
      (Form.Regular form → rest = route.body.phaseBlocks.flatMap (emitNamedPhase entity route) ++
        trailing entity route) ∧
      (¬ Form.Regular form → ∀ g ∈ rest, isGuard g = false) := by
  obtain ⟨hconstructor, hdet⟩ := init_form_cases h
  have hinit : ∀ g ∈ route.body.phaseBlocks.flatMap (initStage entity route) ++
      (trailing entity route ++ (defaultedAfter entity route).map .setDefault),
      isGuard g = false := by
    intro g hg
    rcases List.mem_append.mp hg with hg | hg
    · obtain ⟨p, -, hgp⟩ := List.mem_flatMap.mp hg
      exact isGuard_genStage hgp
    · rcases List.mem_append.mp hg with hg | hg
      · exact isGuard_trailing hg
      · exact isGuard_defaults hg
  have hnot : ∀ form : Form, form ≠ .function → form ≠ .receiveOrFallback → ¬ Form.Regular form :=
    fun _ hf hr hreg => hreg.elim hf hr
  cases form with
  | function =>
    refine ⟨_, ?_, fun _ => rfl, fun hno => absurd (.inl rfl) hno⟩
    simp only [Form.emit, genRouteImpl, senderGuards, if_true, emitRouteBody_eq, List.append_assoc]
  | receiveOrFallback =>
    refine ⟨_, ?_, fun _ => rfl, fun hno => absurd (.inr rfl) hno⟩
    simp only [Form.emit, genReceiveOrFallback, senderGuards, reduceCtorEq, if_false,
      emitRouteBody_eq, List.nil_append]
  | constructor =>
    refine ⟨_, ?_, fun hreg => absurd hreg (hnot _ (by simp) (by simp)), fun _ => hinit⟩
    simp only [Form.emit, genConstructorImpl, hconstructor rfl, senderGuards, reduceCtorEq, if_false,
      List.nil_append]
    exact initBody_eq hacc
  | initializeFn =>
    refine ⟨_, ?_, fun hreg => absurd hreg (hnot _ (by simp) (by simp)), fun _ => hinit⟩
    simp only [Form.emit, genInitializeFn, senderGuards, reduceCtorEq, if_false, List.nil_append]
    exact initBody_eq hacc
  | constructorDeterministic =>
    obtain ⟨hfind, hparams⟩ := hdet rfl
    have hbody : (Form.constructorDeterministic.emit entity route).body =
        genWhereChecks none route.whereClauses ++ (initUpdates entity route ++
          (defaultedAfter entity route).map .setDefault) := by
      simp only [Form.emit, genConstructorDeterministic, hfind, hparams, if_true, List.append_assoc]
    refine ⟨_, hbody, fun hreg => absurd hreg (hnot _ (by simp) (by simp)), fun _ g hg => ?_⟩
    rcases List.mem_append.mp hg with hg | hg
    · unfold initUpdates at hg
      split at hg
      · exact isGuard_genStage hg
      · rw [(mem_genUpdates.mp hg).2]
        rfl
    · exact isGuard_defaults hg

theorem leanBody_phased {phases : List PhaseBlock} (hbody : route.body = .phased phases) :
    leanBody entity route = entryGuards route ++ phases.flatMap (leanPhase entity route) := by
  rw [leanBody, hbody, entryGuards, List.append_assoc]

theorem leanBody_unphased {actions : List RouteAction} (hbody : route.body = .unphased actions) :
    leanBody entity route = unphasedGuards entity route ++ unphasedWork entity route actions := by
  rw [leanBody, hbody]

/-- The wrapper takes the guards that read the world to the front. -/
theorem unphasedGuards_eq (h : routeHasUnphasedSends route = false) :
    unphasedGuards entity route = (entryGuards route).filter (readsWorld entity) ++
      (entryGuards route).filter (!readsWorld entity ·) := by
  have hfrom : ∀ p ∈ genFromChecks route, readsWorld entity p = false := by
    intro p hp
    unfold genFromChecks at hp
    split at hp
    · exact absurd hp List.not_mem_nil
    · rw [List.mem_singleton.mp hp]
      rfl
  have hkeep : (genFromChecks route).filter (!readsWorld entity ·) = genFromChecks route :=
    List.filter_eq_self.mpr fun p hp => by rw [hfrom p hp]; rfl
  have hdrop : (genFromChecks route).filter (readsWorld entity) = [] :=
    List.filter_eq_nil_iff.mpr fun p hp => by rw [hfrom p hp]; exact Bool.false_ne_true
  rw [unphasedGuards, if_neg (by rw [h]; exact Bool.false_ne_true), entryGuards, List.filter_append,
    List.filter_append, hkeep, hdrop, List.nil_append]
  simp only [genWhereChecks, List.filter_map]
  rfl

theorem isGuard_unphased {p : Part} (h : p ∈ unphasedGuards entity route) : isGuard p = true := by
  unfold unphasedGuards at h
  split at h
  · exact isGuard_entry h
  · rcases List.mem_append.mp h with h | h
    · exact isGuard_wheres h
    · exact (List.mem_append.mp h).elim isGuard_from isGuard_wheres

theorem isGuard_unphasedWork {actions : List RouteAction} {p : Part}
    (h : p ∈ unphasedWork entity route actions) : isGuard p = false := by
  rcases List.mem_append.mp h with h | h
  · rw [(mem_genUpdates.mp h).2]
    rfl
  · obtain ⟨a, -, rfl⟩ := List.mem_map.mp h
    rfl

end Shapes

/-! ### The condition is enough -/

section Sufficient

variable {CanTrap : Expr → Prop} {S : Type} {B : Behaviour CanTrap S} {entity : Entity}
variable {route : Route} {form : Form} {deterministic : Bool} {s : S}

theorem mem_held {before : List Part} {e : Expr} (h : e ∈ held before) :
    ∃ phase w, .whereCheck phase w ∈ before ∧ w.condition = e := by
  induction before using List.reverseRecOn with
  | nil => exact absurd h List.not_mem_nil
  | append_singleton before p ih =>
    rw [held_append] at h
    cases p with
    | whereCheck phase w =>
      rcases List.mem_cons.mp h with rfl | h
      · exact ⟨phase, w, List.mem_append_right _ List.mem_cons_self, rfl⟩
      · obtain ⟨phase', w', hmem, hw⟩ := ih h
        exact ⟨phase', w', List.mem_append_left _ hmem, hw⟩
    | fromCheck cs =>
      obtain ⟨phase', w', hmem, hw⟩ := ih h
      exact ⟨phase', w', List.mem_append_left _ hmem, hw⟩
    | _ => exact absurd h List.not_mem_nil

theorem truth_of_passes {phase : Option String} {w : WhereClause}
    (h : B.leanFails (.whereCheck phase w) s = none) : B.truth w.condition s = true := by
  rw [Behaviour.leanFails] at h
  split at h
  · assumption
  · cases h

theorem leanFails_eq {p : Part} (h : B.leanFails p s ≠ none) :
    B.leanFails p s = some (guardCode p) := by
  cases p with
  | fromCheck cs =>
    rw [Behaviour.leanFails] at h ⊢
    split at h
    · exact absurd rfl h
    · next hno => rw [if_neg hno]; rfl
  | whereCheck phase w =>
    rw [Behaviour.leanFails] at h ⊢
    split at h
    · exact absurd rfl h
    · next hno => rw [if_neg hno]; rfl
  | _ => exact absurd rfl h

/-- A guard that fails behind guards that pass repeats none of them. -/
theorem fresh_of_fails {before : List Part} {p : Part} (hp : B.leanFails p s ≠ none)
    (h : ∀ phase w phase' w', p = .whereCheck phase w → .whereCheck phase' w' ∈ before →
      w'.condition = w.condition → B.leanFails (.whereCheck phase' w') s = none) :
    Fresh (held before) p := by
  cases p with
  | whereCheck phase w =>
    intro hmem
    obtain ⟨phase', w', hin, hcond⟩ := mem_held hmem
    have htruth := truth_of_passes (h phase w phase' w' rfl hin hcond)
    rw [hcond] at htruth
    exact hp (if_pos htruth)
  | _ => trivial

/-- The moved guards report what the guards report in order. -/
theorem moved_report (h : KeepsOrder entity route) :
    ((entryGuards route).filter (readsWorld entity) ++
      (entryGuards route).filter (!readsWorld entity ·)).findSome? (B.leanFails · s) =
        (entryGuards route).findSome? (B.leanFails · s) := by
  apply findSome?_front
  intro before a mid b after hsplit ha hb hbefore hfa hmid hfb
  rw [leanFails_eq hfa, leanFails_eq hfb]
  congr 1
  apply h before a mid b after hsplit ha hb
  · exact fresh_of_fails hfa fun _ _ phase' w' _ hin _ => hbefore _ hin
  · apply fresh_of_fails hfb
    rintro phase w phase' w' rfl hin hcond
    have hreads : readsWorld entity (.whereCheck phase' w') = true := by
      rw [readsWorld, hcond]
      exact hb
    rcases List.mem_append.mp hin with hin | hin
    · exact hbefore _ hin
    · rcases List.mem_cons.mp hin with rfl | hin
      · rw [hreads] at ha
        cases ha
      · exact hmid _ hin hreads

/-- A phase whose own guards are checked once more reports the same. -/
theorem phases_report (phases : List PhaseBlock) : ∀ s : S,
    firstFailure B.leanFails B.evmNext (phases.flatMap (emitNamedPhase entity route)) s =
      firstFailure B.leanFails B.evmNext (phases.flatMap (leanPhase entity route)) s := by
  induction phases with
  | nil => exact fun _ => rfl
  | cons p phases ih =>
    intro s
    let again := if routePhasedNeedsWorldThread route then []
      else genWhereChecks (some p.name) (localWheres entity p.whereClauses)
    have hagain : ∀ x ∈ again, x ∈ genWhereChecks (some p.name) p.whereClauses := by
      intro x hx
      dsimp only [again] at hx
      split at hx
      · exact absurd hx List.not_mem_nil
      · obtain ⟨w, hw, rfl⟩ := List.mem_map.mp hx
        exact List.mem_map_of_mem (List.mem_of_mem_filter hw)
    have hguards : ∀ x ∈ genWhereChecks (some p.name) p.whereClauses ++ again,
        B.evmNext x s = some s := by
      intro x hx
      rcases List.mem_append.mp hx with hx | hx
      · exact evmNext_guard (isGuard_wheres hx)
      · exact evmNext_guard (isGuard_wheres (hagain x hx))
    have hlean : leanPhase entity route p = (genWhereChecks (some p.name) p.whereClauses ++ again) ++
        genStage entity route (some p.name) p.actions := (List.append_assoc _ _ _).symm
    rw [List.flatMap_cons, List.flatMap_cons, emitNamedPhase, hlean, List.append_assoc,
      List.append_assoc, firstFailure_checks hguards, findSome?_again hagain,
      firstFailure_checks fun x hx => hguards x (List.mem_append_left _ hx), firstFailure_tail ih]

theorem senderGuards_eq (h : form = .function ∨ route.fromClauses = []) :
    senderGuards form route = genFromChecks route := by
  rcases h with rfl | hnone
  · rfl
  · have hnil : genFromChecks route = [] := by rw [genFromChecks, hnone]; rfl
    rw [senderGuards, hnil, ite_self]

/-- The guards of the emitted function and those of the Lean route report the same. -/
theorem same_report (hacc : checkRoutePhases entity route = [])
    (h : (form, route) ∈ contractForms deterministic entity)
    (halike : ChecksAlike CanTrap entity route form) :
    firstFailure B.leanFails B.evmNext (form.emit entity route).body s =
      firstFailure B.leanFails B.evmNext (leanBody entity route) s := by
  obtain ⟨rest, hcode, hregular, hinit⟩ := emitted_shape hacc h
  have hentry : (form.emit entity route).body = entryGuards route ++ rest := by
    rw [hcode, senderGuards_eq halike.sender, ← List.append_assoc]
    rfl
  have hguards : ∀ g ∈ entryGuards route, B.evmNext g s = some s :=
    fun g hg => evmNext_guard (isGuard_entry hg)
  rw [hentry, firstFailure_checks hguards]
  cases hbody : route.body with
  | mixed phases actions => exact absurd hbody (body_not_mixed hacc)
  | unphased actions =>
    have hquiet : ∀ g ∈ rest, isGuard g = false := by
      intro g hg
      by_cases hreg : Form.Regular form
      · rw [hregular hreg, hbody] at hg
        exact isGuard_trailing hg
      · exact hinit hreg g hg
    rw [leanBody_unphased hbody, firstFailure_checks fun g hg => evmNext_guard (isGuard_unphased hg),
      firstFailure_quiet (fun g hg _ => leanFails_work (hquiet g hg)),
      firstFailure_quiet (fun g hg _ => leanFails_work (isGuard_unphasedWork hg))]
    congr 1
    cases hsends : routeHasUnphasedSends route with
    | true =>
      rw [unphasedGuards, if_pos hsends]
      rfl
    | false =>
      rw [unphasedGuards_eq hsends]
      exact (moved_report (halike.order actions hbody hsends)).symm
  | phased phases =>
    rw [leanBody_phased hbody, firstFailure_checks hguards]
    cases hentryFails : (entryGuards route).findSome? (B.leanFails · s) with
    | some e => rfl
    | none =>
      rw [Option.none_or, Option.none_or]
      by_cases hreg : Form.Regular form
      · have htrailing : trailing entity route = [] := by rw [trailing, hbody]
        rw [hregular hreg, hbody, htrailing, List.append_nil]
        exact phases_report phases s
      · have hheld := (halike.phases.resolve_left fun hf => hreg (.inl hf)).resolve_left
          fun hr => hreg (.inr hr)
        rw [firstFailure_quiet (fun g hg _ => leanFails_work (hinit hreg g hg))]
        symm
        apply repeated_pass (entryGuards route)
        · intro b p a hsplit hguard
          have hp : p ∈ phases.flatMap (leanPhase entity route) :=
            hsplit ▸ List.mem_append_right _ List.mem_cons_self
          obtain ⟨q, -, hpq⟩ := List.mem_flatMap.mp hp
          have hwhere : ∃ w, p = .whereCheck (some q.name) w := by
            rcases List.mem_append.mp hpq with hpq | hpq
            · obtain ⟨w, -, rfl⟩ := List.mem_map.mp hpq
              exact ⟨w, rfl⟩
            · rcases List.mem_append.mp hpq with hpq | hpq
              · split at hpq
                · exact absurd hpq List.not_mem_nil
                · obtain ⟨w, -, rfl⟩ := List.mem_map.mp hpq
                  exact ⟨w, rfl⟩
              · rw [isGuard_genStage hpq] at hguard
                cases hguard
          obtain ⟨w, rfl⟩ := hwhere
          refine ⟨_, w, rfl, hheld _ q.name w a ?_⟩
          rw [leanBody_phased hbody, hsplit, List.append_assoc]
        · intro e he
          obtain ⟨phase, w, hmem, rfl⟩ := mem_held he
          exact truth_of_passes (List.findSome?_eq_none_iff.mp hentryFails _ hmem)

theorem failAlike_of_checksAlike (hacc : checkRoutePhases entity route = [])
    (hfrom : uniformThrow route.fromClauses = true)
    (h : (form, route) ∈ contractForms deterministic entity)
    (halike : ChecksAlike CanTrap entity route form) : FailAlike CanTrap entity route form := by
  intro S B s
  have huniform : ∀ cs, .fromCheck cs ∈ (form.emit entity route).body → uniformThrow cs = true := by
    intro cs hmem
    obtain ⟨rest, hcode, hregular, hinit⟩ := emitted_shape hacc h
    rw [hcode] at hmem
    rcases List.mem_append.mp hmem with hmem | hmem
    · unfold senderGuards genFromChecks at hmem
      split at hmem
      · split at hmem
        · exact absurd hmem List.not_mem_nil
        · cases List.mem_singleton.mp hmem
          exact hfrom
      · exact absurd hmem List.not_mem_nil
    · rcases List.mem_append.mp hmem with hmem | hmem
      · obtain ⟨w, -, heq⟩ := List.mem_map.mp hmem
        cases heq
      · by_cases hreg : Form.Regular form
        · rw [hregular hreg, ← emitRouteBody_eq] at hmem
          exact absurd rfl (unsent_emitRouteBody _ hmem cs)
        · cases hinit hreg _ hmem
  rw [evm_failure huniform [] halike.traps fun e he => absurd he List.not_mem_nil,
    lean_failure halike.returns, same_report hacc h halike]

end Sufficient

end CambrianLang.Guards
