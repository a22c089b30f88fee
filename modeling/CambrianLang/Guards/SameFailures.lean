/-
  **Where the guards of a route fail with the same error on both back ends, and where the
  emitted precondition is exact.**
-/
import CambrianLang.Guards.CheckProbes

namespace CambrianLang.Guards

open Ast Analysis Solidity StraightLine
open Validate FirstFailure

section Necessary

variable {CanTrap : Expr → Prop} {entity : Entity} {route : Route} {form : Form}
variable {deterministic : Bool}

/-- With one condition false after all the work before a fresh clause, everything before the
    clause passes. -/
theorem truthExcept_before {before b a : List Part} {phase : Option String} {w w' : WhereClause}
    (hfresh : w.condition ∉ held before) (hsplit : before = b ++ .whereCheck phase w' :: a) :
    truthExcept w.condition (works before) w'.condition (works b) = true := by
  apply truthExcept_other
  rintro ⟨hcond, hworks⟩
  have hheld : w'.condition ∈ held (b ++ .whereCheck phase w' :: a) :=
    held_of_works (by rw [← hsplit, hworks])
  rw [← hsplit, hcond] at hheld
  exact hfresh hheld

/-- An argument of the error of a clause that can be the first to fail. -/
theorem argument_needed (hacc : checkRoutePhases entity route = [])
    (hform : (form, route) ∈ contractForms deterministic entity)
    (h : FailAlike CanTrap entity route form) {before after : List Part} {phase : Option String}
    {w : WhereClause} (hcode : (form.emit entity route).body = before ++ .whereCheck phase w :: after)
    (hfresh : w.condition ∉ held before) {a : Expr} (ha : a ∈ (whereRevert w).2) : ¬ CanTrap a := by
  intro htrap
  let t := truthExcept w.condition (works before)
  obtain ⟨code, hother⟩ := exists_other (firstFailure (calm CanTrap t true).leanFails
    (calm CanTrap t true).leanNext (leanBody entity route) 0)
  let B := probe t true (trapAt a code) (trapAt_only htrap)
  have hquiet : ∀ e, ¬ CanTrap e → B.panics e 0 = none := by
    intro e he
    by_contra hne
    exact he (B.panics_only e 0 hne)
  have hmem : ∀ p ∈ before, p ∈ (form.emit entity route).body :=
    fun p hp => hcode ▸ List.mem_append_left _ hp
  have hpass : exec (passing B.evmFails B.evmNext) before 0 = some (works before) := by
    apply exec_counts (fun p n => probe_next B (fun _ _ => rfl) p n)
    intro b p rest hsplit
    have hp : p ∈ before := hsplit ▸ List.mem_append_right _ List.mem_cons_self
    cases p with
    | fromCheck cs =>
      obtain ⟨-, hcs, hne⟩ := mem_emitted_from hacc hform (hmem _ hp)
      have hargs : ∀ c ∈ cs, ∀ x ∈ c.args, ¬ CanTrap x := fun c hc x hx =>
        sender_traps_needed hacc hform h (hmem _ hp) (.inl ⟨c, hc, hx⟩)
      have hany : cs.any (B.admits · (works b)) = true := any_true (hcs ▸ hne)
      rw [Behaviour.evmFails, senderAdmitted_eq hargs, hany]
    | whereCheck phase' w' =>
      have htrue : B.truth w'.condition (works b) = true := truthExcept_before hfresh hsplit
      have hnone : B.panics w'.condition (works b) = none :=
        hquiet _ (condition_needed hacc h (hmem _ hp))
      rw [Behaviour.evmFails, hnone, htrue]
      rfl
    | _ => rfl
  have hfails : B.evmFails (.whereCheck phase w) (works before) = some (.panic code) := by
    have hin : .whereCheck phase w ∈ (form.emit entity route).body :=
      hcode ▸ List.mem_append_right _ List.mem_cons_self
    have hnone : B.panics w.condition (works before) = none :=
      hquiet _ (condition_needed hacc h hin)
    have hfalse : B.truth w.condition (works before) = false := truthExcept_self _ _
    rw [Behaviour.evmFails, hnone, hfalse]
    dsimp only
    rw [if_neg Bool.false_ne_true, Behaviour.raise]
    cases hpanic : B.firstPanic (whereRevert w).2 (works before) with
    | some j =>
      obtain ⟨_, e, _, -, he, -⟩ := List.findSome?_eq_some_iff.mp hpanic
      rw [trapAt_code he]
    | none =>
      have hno := List.findSome?_eq_none_iff.mp hpanic a ha
      cases (trapAt_self a code).symm.trans hno
  have hsame := h Nat B 0
  rw [hcode, firstFailure_reached hpass hfails] at hsame
  exact hother hsame.symm

theorem traps_needed (hacc : checkRoutePhases entity route = [])
    (hform : (form, route) ∈ contractForms deterministic entity)
    (h : FailAlike CanTrap entity route form) (before : List Part) (p : Part) (after : List Part)
    (hcode : (form.emit entity route).body = before ++ p :: after) :
    Trapless CanTrap (held before) p := by
  have hmem : p ∈ (form.emit entity route).body :=
    hcode ▸ List.mem_append_right _ List.mem_cons_self
  cases p with
  | fromCheck cs =>
    constructor
    · exact fun c hc a ha => sender_traps_needed hacc hform h hmem (.inl ⟨c, hc, ha⟩)
    · exact fun a ha => sender_traps_needed hacc hform h hmem (.inr ha)
  | whereCheck phase w =>
    constructor
    · exact condition_needed hacc h hmem
    · exact fun hfresh a ha => argument_needed hacc hform h hcode hfresh ha
  | _ => trivial

theorem not_phased_entry {phase : String} {w : WhereClause} :
    .whereCheck (some phase) w ∉ entryGuards route := by
  intro hmem
  rcases List.mem_append.mp hmem with hmem | hmem
  · cases (mem_genFromChecks hmem).1
  · obtain ⟨w', -, heq⟩ := List.mem_map.mp hmem
    cases heq

/-- A phase condition that a form leaves out has been checked before. -/
theorem phases_needed (hacc : checkRoutePhases entity route = [])
    (hform : (form, route) ∈ contractForms deterministic entity)
    (h : FailAlike CanTrap entity route form) (hirregular : ¬ Form.Regular form)
    (before : List Part) (phase : String) (w : WhereClause) (after : List Part)
    (hcode : leanBody entity route = before ++ .whereCheck (some phase) w :: after) :
    w.condition ∈ held before := by
  by_contra hfresh
  have hmem : .whereCheck (some phase) w ∈ leanBody entity route :=
    hcode ▸ List.mem_append_right _ List.mem_cons_self
  let B := calm CanTrap (truthExcept w.condition (works before)) true
  -- the clause fails in Lean
  have hpass : exec (passing B.leanFails B.leanNext) before 0 = some (works before) := by
    apply exec_counts (fun p n => probe_next B (fun _ _ => rfl) p n)
    intro b p rest hsplit
    have hp : p ∈ leanBody entity route := by
      rw [hcode, hsplit]
      exact List.mem_append_left _ (List.mem_append_right _ List.mem_cons_self)
    apply lean_passes
    · rintro cs rfl
      obtain ⟨rfl, hne⟩ := mem_leanBody_from hacc hp
      exact any_true hne
    · rintro phase' w' rfl
      exact truthExcept_before hfresh hsplit
  have hfails : B.leanFails (.whereCheck (some phase) w) (works before) =
      some (whereClauseThrowCode w) := by
    have hfalse : B.truth w.condition (works before) = false := truthExcept_self _ _
    rw [Behaviour.leanFails, hfalse, if_neg Bool.false_ne_true]
  have hlean : firstFailure B.leanFails B.leanNext (before ++ .whereCheck (some phase) w :: after) 0 =
      some (whereClauseThrowCode w) := firstFailure_reached hpass hfails
  rw [← hcode] at hlean
  -- the route's own conditions are checked before any work
  obtain ⟨phases, hbody⟩ : ∃ phases, route.body = .phased phases := by
    cases hbody : route.body with
    | phased phases => exact ⟨phases, rfl⟩
    | mixed phases actions => exact absurd hbody (body_not_mixed hacc)
    | unphased actions =>
      rw [leanBody_unphased hbody] at hmem
      rcases List.mem_append.mp hmem with hmem | hmem
      · have hentry : .whereCheck (some phase) w ∈ entryGuards route := by
          unfold unphasedGuards at hmem
          split at hmem
          · exact hmem
          · rcases List.mem_append.mp hmem with hmem | hmem
            · obtain ⟨w', -, heq⟩ := List.mem_map.mp hmem
              cases heq
            · rcases List.mem_append.mp hmem with hmem | hmem
              · exact List.mem_append_left _ hmem
              · obtain ⟨w', -, heq⟩ := List.mem_map.mp hmem
                cases heq
        exact absurd hentry not_phased_entry
      · cases isGuard_unphasedWork hmem
  rw [leanBody_phased hbody] at hcode
  obtain ⟨mid, hmid, -⟩ := split_behind hcode not_phased_entry
  have hown : ∀ w' ∈ route.whereClauses, B.truth w'.condition 0 = true := by
    intro w' hw'
    have hin : .whereCheck none w' ∈ entryGuards route :=
      List.mem_append_right _ (List.mem_map_of_mem hw')
    obtain ⟨b, a, hsplit⟩ := List.append_of_mem hin
    have hzero : works b = 0 := by
      apply List.countP_eq_zero.mpr
      intro p hp
      rw [isGuard_entry (hsplit ▸ List.mem_append_left _ hp)]
      exact Bool.false_ne_true
    have hin : before = b ++ .whereCheck none w' :: (a ++ mid) := by
      rw [hmid, hsplit, List.append_assoc, List.cons_append]
    have htrue := truthExcept_before hfresh hin
    rwa [hzero] at htrue
  obtain ⟨rest, hemit, -, hinit⟩ := emitted_shape hacc hform
  have hnofrom : senderGuards form route = [] := if_neg fun hf => hirregular (.inl hf)
  have hevm : firstFailure B.evmFails B.evmNext (form.emit entity route).body 0 = none := by
    rw [hemit, hnofrom, List.nil_append,
      firstFailure_checks fun g hg => evmNext_guard (isGuard_wheres hg),
      firstFailure_quiet fun g hg _ => ?_, Option.or_none, List.findSome?_eq_none_iff]
    · intro g hg
      obtain ⟨w', hw', rfl⟩ := List.mem_map.mp hg
      have hnone : B.panics w'.condition 0 = none := rfl
      rw [Behaviour.evmFails, hnone, hown w' hw']
      rfl
    · have hwork := hinit hirregular g hg
      cases g with
      | fromCheck cs => cases hwork
      | whereCheck phase' w' => cases hwork
      | _ => rfl
  have hsame := h Nat B 0
  rw [hevm, hlean] at hsame
  cases hsame

open Classical in
/-- A behaviour in which one part ends the function, and after which nothing holds. -/
noncomputable def ending (CanTrap : Expr → Prop) (p : Part) (hp : CanEnd p) : Behaviour CanTrap Bool where
  truth _ ended := !ended
  admits _ ended := !ended
  panics _ _ := none
  panics_only _ _ h := absurd rfl h
  perform q ended := if q = p then none else some ended
  proceed q ended := if q = p then some true else some ended
  proceed_of_perform q ended m h := by
    split at h
    · cases h
    · next hne => rwa [if_neg hne]
  perform_of_proceed q ended m hq h := by
    have hne : q ≠ p := fun heq => hq (heq ▸ hp)
    rw [if_neg hne] at h
    rwa [if_neg hne]

/-- No guard stands behind a part that can end the function. -/
theorem returns_needed (hacc : checkRoutePhases entity route = [])
    (hform : (form, route) ∈ contractForms deterministic entity)
    (h : FailAlike CanTrap entity route form) (before : List Part) (p : Part) (after : List Part)
    (hcode : leanBody entity route = before ++ p :: after) (hp : CanEnd p) :
    ∀ g ∈ after, isGuard g = false := by
  intro g hg
  by_contra hguard
  rw [Bool.not_eq_false] at hguard
  let B := ending CanTrap p hp
  have hwork : isGuard p = false := by
    cases p with
    | stmt phase a => rfl
    | _ => exact absurd hp id
  have hnext : ∀ q ended, ∃ m, B.leanNext q ended = some m ∧ (ended = true → m = true) := by
    intro q ended
    cases hq : isGuard q with
    | true => exact ⟨ended, leanNext_guard hq, id⟩
    | false =>
      rw [leanNext_work hq]
      by_cases heq : q = p
      · exact ⟨true, if_pos heq, fun _ => rfl⟩
      · exact ⟨ended, if_neg heq, id⟩
  have hlean : firstFailure B.leanFails B.leanNext (leanBody entity route) false ≠ none := by
    rw [hcode]
    apply firstFailure_behind fun q _ ended => (hnext q ended).imp fun _ hm => hm.1
    intro ended
    have hquiet : B.leanFails p ended = none := leanFails_work hwork
    have hgo : B.leanNext p ended = some true := by
      rw [leanNext_work hwork]
      exact if_pos rfl
    rw [firstFailure_cons, hquiet, Option.none_or, hgo, Option.bind_some]
    apply firstFailure_of_mem (P := fun ended => ended = true) _ hg _ rfl
    · rintro q - ended rfl
      obtain ⟨m, hm, hkeep⟩ := hnext q true
      exact ⟨m, hm, hkeep rfl⟩
    · rintro ended rfl
      cases g with
      | fromCheck cs =>
        have hany : cs.any (B.admits · true) = false := List.any_eq_false.mpr fun _ _ => nofun
        rw [Behaviour.leanFails, hany]
        exact Option.some_ne_none _
      | whereCheck phase w => exact Option.some_ne_none _
      | _ => cases hguard
  have hevm : firstFailure B.evmFails B.evmNext (form.emit entity route).body false = none := by
    apply firstFailure_keeps (P := fun ended => ended = false) _ _ rfl
    · rintro q hq ended rfl
      cases q with
      | fromCheck cs =>
        obtain ⟨-, rfl, hne⟩ := mem_emitted_from hacc hform hq
        have hargs : B.senderAdmitted route.fromClauses false = .ok true := by
          cases hcs : route.fromClauses with
          | nil => exact absurd hcs hne
          | cons c cs =>
            have hnone : B.firstPanic c.args false = none :=
              List.findSome?_eq_none_iff.mpr fun _ _ => rfl
            have hadmit : B.admits c false = true := rfl
            rw [Behaviour.senderAdmitted, hnone, hadmit]
            rfl
        rw [Behaviour.evmFails, hargs]
      | whereCheck phase w => rfl
      | _ => rfl
    · rintro q - ended m rfl hm
      cases hq : isGuard q with
      | true =>
        rw [evmNext_guard hq] at hm
        exact (Option.some.inj hm).symm
      | false =>
        rw [evmNext_work hq] at hm
        by_cases heq : q = p
        · rw [show B.perform q false = none from if_pos heq] at hm
          cases hm
        · rw [show B.perform q false = some false from if_neg heq] at hm
          exact (Option.some.inj hm).symm
  have hsame := h Bool B false
  rw [hevm, Option.map_none] at hsame
  exact hlean hsame.symm

theorem mem_held_of_guards {before : List Part} (hguards : ∀ p ∈ before, isGuard p = true)
    {phase : Option String} {w : WhereClause} (h : .whereCheck phase w ∈ before) :
    w.condition ∈ held before := by
  obtain ⟨b, a, rfl⟩ := List.append_of_mem h
  apply held_of_works
  have hnone : ∀ xs : List Part, (∀ p ∈ xs, isGuard p = true) → works xs = 0 := by
    intro xs hxs
    apply List.countP_eq_zero.mpr
    intro p hp
    rw [hxs p hp]
    exact Bool.false_ne_true
  rw [hnone _ hguards, hnone _ fun p hp => hguards p (List.mem_append_left _ hp)]

/-- The sender check is the first of the guards. -/
theorem entry_from {before after : List Part} {cs : List FromClause}
    (h : entryGuards route = before ++ .fromCheck cs :: after) : before = [] := by
  cases before with
  | nil => rfl
  | cons x before =>
    exfalso
    have hwhere : .fromCheck cs ∉ genWhereChecks none route.whereClauses := by
      intro hmem
      obtain ⟨w, -, heq⟩ := List.mem_map.mp hmem
      cases heq
    unfold entryGuards genFromChecks at h
    split at h
    · rw [List.nil_append] at h
      exact hwhere (h ▸ List.mem_append_right _ List.mem_cons_self)
    · rw [List.singleton_append, List.cons_append, List.cons.injEq] at h
      exact hwhere (h.2 ▸ List.mem_append_right _ List.mem_cons_self)

open Classical in
/-- Everything holds but the conditions of two guards. -/
noncomputable def truthBut (a b : Part) : Expr → Nat → Bool :=
  fun e _ => decide (∀ phase w, .whereCheck phase w ∈ [a, b] → w.condition ≠ e)

open Classical in
theorem truthBut_other {a b : Part} {e : Expr} (n : Nat)
    (h : ∀ phase w, .whereCheck phase w ∈ [a, b] → w.condition ≠ e) : truthBut a b e n = true :=
  decide_eq_true h

open Classical in
theorem truthBut_self {a b : Part} {phase : Option String} {w : WhereClause} (n : Nat)
    (h : .whereCheck phase w ∈ [a, b]) : truthBut a b w.condition n = false :=
  decide_eq_false fun hall => hall phase w h rfl

/-- Is not the sender check. -/
def isWhere : Part → Bool
  | .whereCheck .. => true
  | _ => false

/-- No guard that reads the world overtakes one with another code. -/
theorem order_needed (hacc : checkRoutePhases entity route = [])
    (hfrom : uniformThrow route.fromClauses = true)
    (hform : (form, route) ∈ contractForms deterministic entity)
    (h : FailAlike CanTrap entity route form) {actions : List RouteAction}
    (hbody : route.body = .unphased actions) (hsends : routeHasUnphasedSends route = false) :
    KeepsOrder entity route := by
  intro before a mid b after hsplit ha hb hfa hfb
  by_contra hcodes
  have hguards : ∀ p ∈ before ++ a :: (mid ++ b :: after), isGuard p = true :=
    fun p hp => isGuard_entry (hsplit ▸ hp)
  have hin : ∀ p ∈ before ++ a :: mid, p ∈ before ++ a :: (mid ++ b :: after) := by
    intro p hp
    rcases List.mem_append.mp hp with hp | hp
    · exact List.mem_append_left _ hp
    · rcases List.mem_cons.mp hp with rfl | hp
      · exact List.mem_append_right _ List.mem_cons_self
      · exact List.mem_append_right _ (List.mem_cons_of_mem _ (List.mem_append_left _ hp))
  have hkept : ∀ p ∈ before ++ a :: mid, isGuard p = true := fun p hp => hguards p (hin p hp)
  obtain ⟨phaseB, wb, rfl⟩ : ∃ phase w, b = .whereCheck phase w := by
    cases b with
    | whereCheck phase w => exact ⟨phase, w, rfl⟩
    | _ => cases hb
  let B := calm CanTrap (truthBut a (.whereCheck phaseB wb)) (isWhere a)
  have hfailsB : B.leanFails (.whereCheck phaseB wb) 0 = some (whereClauseThrowCode wb) := by
    have hfalse : B.truth wb.condition 0 = false :=
      truthBut_self 0 (List.mem_cons_of_mem _ List.mem_cons_self)
    rw [Behaviour.leanFails, hfalse, if_neg Bool.false_ne_true]
  have hfailsA : B.leanFails a 0 = some (guardCode a) := by
    apply leanFails_eq
    cases a with
    | fromCheck cs =>
      have hany : cs.any (B.admits · 0) = false := by
        refine List.any_eq_false.mpr fun _ _ h => ?_
        cases h
      rw [Behaviour.leanFails, hany]
      exact Option.some_ne_none _
    | whereCheck phase w =>
      have hfalse : B.truth w.condition 0 = false := truthBut_self 0 List.mem_cons_self
      rw [Behaviour.leanFails, hfalse]
      exact Option.some_ne_none _
    | _ => cases hguards _ (List.mem_append_right _ List.mem_cons_self)
  -- a clause between or before the two fails only with one of their conditions
  have hpassWhere : ∀ phase w, .whereCheck phase w ∈ before ++ a :: mid →
      (∀ phaseA wa, a = .whereCheck phaseA wa → wa.condition ≠ w.condition) →
      B.leanFails (.whereCheck phase w) 0 = none := by
    intro phase w hmem hne
    refine if_pos (truthBut_other 0 ?_)
    intro phase' w' hw'
    rcases List.mem_cons.mp hw' with heq | hw'
    · exact hne phase' w' heq.symm
    · cases List.mem_singleton.mp hw'
      intro hcond
      exact hfb (hcond ▸ mem_held_of_guards hkept hmem)
  have hpassBefore : ∀ x ∈ before, B.leanFails x 0 = none := by
    intro x hx
    cases x with
    | fromCheck cs =>
      obtain ⟨c, d, hbefore⟩ := List.append_of_mem hx
      have hnil : c = [] := by
        have hentry : entryGuards route =
            c ++ .fromCheck cs :: (d ++ a :: (mid ++ .whereCheck phaseB wb :: after)) := by
          rw [hsplit, hbefore, List.append_assoc, List.cons_append]
        exact entry_from hentry
      have hawhere : isWhere a = true := by
        cases a with
        | whereCheck phase w => rfl
        | fromCheck cs' =>
          rw [entry_from hsplit] at hx
          exact absurd hx List.not_mem_nil
        | _ => cases hguards _ (List.mem_append_right _ List.mem_cons_self)
      have hne : cs ≠ [] := by
        have hmem : .fromCheck cs ∈ entryGuards route := hsplit ▸ List.mem_append_left _ hx
        rcases List.mem_append.mp hmem with hmem | hmem
        · obtain ⟨heq, hne⟩ := mem_genFromChecks hmem
          cases heq
          exact hne
        · obtain ⟨w, -, heq⟩ := List.mem_map.mp hmem
          cases heq
      have hany : cs.any (B.admits · 0) = true := by
        obtain ⟨c', hc'⟩ := List.exists_mem_of_ne_nil _ hne
        exact List.any_eq_true.mpr ⟨c', hc', hawhere⟩
      exact if_pos hany
    | whereCheck phase w =>
      apply hpassWhere phase w (List.mem_append_left _ hx)
      rintro phaseA wa rfl hcond
      apply hfa
      rw [hcond]
      exact mem_held_of_guards (fun p hp => hkept p (List.mem_append_left _ hp)) hx
    | _ => cases hkept _ (List.mem_append_left _ hx)
  have hpassWorld : ∀ x ∈ before ++ a :: mid, readsWorld entity x = true →
      B.leanFails x 0 = none := by
    intro x hx hreads
    cases x with
    | whereCheck phase w =>
      apply hpassWhere phase w hx
      rintro phaseA wa rfl hcond
      rw [readsWorld] at ha hreads
      rw [hcond, hreads] at ha
      cases ha
    | _ => cases hreads
  obtain ⟨rest, hemit, -, -⟩ := emitted_shape hacc hform
  have hevm : (firstFailure B.evmFails B.evmNext (form.emit entity route).body 0).map Revert.code =
      some (guardCode a) := by
    rw [evm_failure _ [] (traps_needed hacc hform h) fun e he => absurd he List.not_mem_nil]
    · have hentry : (form.emit entity route).body = entryGuards route ++ rest := by
        rw [hemit, senderGuards_eq (sender_needed hacc hform h), ← List.append_assoc]
        rfl
      rw [hentry, firstFailure_checks fun g hg => evmNext_guard (isGuard_entry hg), hsplit,
        List.findSome?_append, List.findSome?_eq_none_iff.mpr hpassBefore, List.findSome?_cons,
        hfailsA]
      rfl
    · intro cs hmem
      obtain ⟨-, rfl, -⟩ := mem_emitted_from hacc hform hmem
      exact hfrom
  have hlean : firstFailure B.leanFails B.leanNext (leanBody entity route) 0 =
      some (whereClauseThrowCode wb) := by
    rw [leanBody_unphased hbody, firstFailure_checks fun g hg => leanNext_guard (isGuard_unphased hg),
      unphasedGuards_eq hsends, hsplit, findSome?_front_of_split hb hfailsB hpassWorld]
    rfl
  have hsame := h Nat B 0
  rw [hevm, hlean] at hsame
  exact hcodes (Option.some.inj hsame)

/-- **What agreement on the guards of a route needs**, which is also enough. -/
theorem failAlike_iff (hacc : checkRoutePhases entity route = [])
    (hfrom : uniformThrow route.fromClauses = true)
    (hform : (form, route) ∈ contractForms deterministic entity) :
    FailAlike CanTrap entity route form ↔ ChecksAlike CanTrap entity route form := by
  constructor
  · intro h
    refine ⟨sender_needed hacc hform h, ?_, traps_needed hacc hform h, returns_needed hacc hform h,
      fun actions hbody hsends => order_needed hacc hfrom hform h hbody hsends⟩
    by_cases hreg : Form.Regular form
    · exact hreg.imp_right .inl
    · exact .inr (.inr (phases_needed hacc hform h hreg))
  · exact failAlike_of_checksAlike hacc hfrom hform

end Necessary

/-! ### The emitted precondition -/

section Precondition

variable {profile : LeanProfile} {pureFns : List PureFn} {entity : Entity} {route : Route}
variable {CanFail : Expr → Prop}

/-- No value that the local route binds can fail. -/
def ValuesTotal (profile : LeanProfile) (pureFns : List PureFn) (CanFail : Expr → Prop)
    (entity : Entity) (route : Route) : Prop :=
  usesFlatPre profile pureFns entity route = true → ∀ actions, route.body = .unphased actions →
    ∀ a ∈ uptoReturn actions, ¬ PartCanFail profile pureFns entity route CanFail (.stmt none a)

theorem flat_shape (h : routePreIsFlat route = true) :
    routeHasUnphasedSends route = false ∧ ∃ actions, route.body = .unphased actions := by
  rw [routePreIsFlat, Bool.and_eq_true, Bool.not_eq_true'] at h
  refine ⟨h.1, ?_⟩
  have hbody := h.2
  split at hbody
  · next actions heq => exact ⟨actions, heq⟩
  · cases hbody

/-- A flat precondition is used only where no transform is bound. -/
theorem transforms_total (h : usesFlatPre profile pureFns entity route = true) :
    transformsUseCheckedArith profile pureFns entity route none = false := by
  rw [usesFlatPre, Bool.and_eq_true, Bool.and_eq_true, Bool.not_eq_true', membersCanFail,
    Bool.or_eq_false_iff] at h
  obtain ⟨⟨-, hdiv, hchecked⟩, -⟩ := h
  rw [routeHasDiv0OrNarrow, Bool.or_eq_false_iff, List.any_eq_false] at hdiv
  rw [transformsUseCheckedArith, List.any_eq_false]
  intro t ht hbound
  obtain ⟨hm, htransform, hname⟩ := mem_collectTransforms ht
  have hmem : t.2.body ∈ transformBodies entity route := by
    apply List.mem_flatMap.mpr
    refine ⟨t.1, hm, List.mem_map_of_mem (List.mem_filter.mpr ⟨htransform, ?_⟩)⟩
    rw [hname, beq_self_eq_true]
  rw [transformBodyChecked, Bool.or_eq_true, Bool.and_eq_true] at hbound
  rcases hbound with hbound | ⟨hmode, hbound⟩
  · exact hdiv.1 _ hmem hbound
  · rw [hmode, Bool.true_and, routeHasCheckedArith, Bool.or_eq_false_iff, List.any_eq_false] at hchecked
    exact hchecked.1 _ hmem hbound

section

variable {CanTrap : Expr → Prop} {S : Type} {B : Behaviour CanTrap S} {s : S}

/-- The conjuncts of a flat precondition are the guards of the route. -/
theorem flatPre_iff (h : routeHasUnphasedSends route = false) :
    FlatPre entity route B s ↔ ∀ g ∈ unphasedGuards entity route, B.leanFails g s = none := by
  have hwheres : ∀ clauses : List WhereClause, (∀ w ∈ clauses, B.truth w.condition s = true) ↔
      ∀ g ∈ genWhereChecks none clauses, B.leanFails g s = none := by
    intro clauses
    constructor
    · rintro hall g hg
      obtain ⟨w, hw, rfl⟩ := List.mem_map.mp hg
      exact if_pos (hall w hw)
    · intro hall w hw
      exact truth_of_passes (hall _ (List.mem_map_of_mem hw))
  have hsender : (route.fromClauses ≠ [] → ∃ c ∈ route.fromClauses, B.admits c s = true) ↔
      ∀ g ∈ genFromChecks route, B.leanFails g s = none := by
    constructor
    · rintro hsome g hg
      obtain ⟨rfl, hne⟩ := mem_genFromChecks hg
      exact if_pos (List.any_eq_true.mpr (hsome hne))
    · intro hall hne
      have hmem : Part.fromCheck route.fromClauses ∈ genFromChecks route := by
        rw [genFromChecks, if_neg (by rwa [List.isEmpty_iff])]
        exact List.mem_singleton.mpr rfl
      have hpass := hall _ hmem
      rw [Behaviour.leanFails] at hpass
      split at hpass
      · next hany => exact List.any_eq_true.mp hany
      · cases hpass
  rw [FlatPre, hwheres, hsender, hwheres, unphasedGuards,
    if_neg (by rw [h]; exact Bool.false_ne_true)]
  simp only [List.mem_append, or_imp, forall_and]

theorem passing_guard {g : Part} (hguard : isGuard g = true) {m : S} :
    passing B.leanFails B.leanNext g s = some m ↔ B.leanFails g s = none ∧ m = s := by
  rw [passing_eq_some, leanNext_guard hguard, Option.some.injEq, eq_comm (a := s)]

/-- A route without phases succeeds if its guards pass and its work runs through. -/
theorem succeeds_iff {actions : List RouteAction} (hbody : route.body = .unphased actions)
    (hwork : ∀ p ∈ unphasedWork entity route actions, ∀ m : S, B.proceed p m ≠ none) :
    Succeeds entity route B s ↔ ∀ g ∈ unphasedGuards entity route, B.leanFails g s = none := by
  have hrun : exec (passing B.leanFails B.leanNext) (unphasedWork entity route actions) s ≠ none := by
    have hstep : ∀ p ∈ unphasedWork entity route actions, ∀ m : S, True →
        ∃ k, passing B.leanFails B.leanNext p m = some k ∧ True := by
      intro p hp m _
      obtain ⟨k, hk⟩ := Option.ne_none_iff_exists'.mp (hwork p hp m)
      have hguard := isGuard_unphasedWork hp
      refine ⟨k, passing_eq_some.mpr ⟨leanFails_work hguard, ?_⟩, trivial⟩
      rw [leanNext_work hguard, hk]
    obtain ⟨m, hm, -⟩ := exec_total hstep (s := s) trivial
    rw [hm]
    exact Option.some_ne_none m
  have hcheck : ∀ g ∈ unphasedGuards entity route,
      IsCheck (passing B.leanFails B.leanNext) g := fun g hg s m hm =>
    ((passing_guard (isGuard_unphased hg)).mp hm).2
  rw [Succeeds, leanBody_unphased hbody, exec_append]
  constructor
  · intro hne g hg
    obtain ⟨m, hm⟩ := Option.ne_none_iff_exists'.mp hne
    obtain ⟨k, hk, -⟩ := Option.bind_eq_some_iff.mp hm
    obtain ⟨-, hall⟩ := exec_checks hcheck hk
    exact (passing_eq_some.mp (hall g hg)).1
  · intro hall
    rw [exec_of_steps fun g hg => (passing_guard (isGuard_unphased hg)).mpr ⟨hall g hg, rfl⟩,
      Option.bind_some]
    exact hrun

end

open Classical in
/-- A behaviour in which everything holds and one part fails. -/
noncomputable def refusing (p : Part) : Behaviour (fun _ => False) Unit where
  truth _ _ := true
  admits _ _ := true
  panics _ _ := none
  panics_only _ _ h := absurd rfl h
  perform q _ := if q = p then none else some ()
  proceed q _ := if q = p then none else some ()
  proceed_of_perform _ _ _ h := h
  perform_of_proceed _ _ _ _ h := h

/-- **The emitted precondition is exact** if and only if no value of the route can fail behind
    the guards. -/
theorem preExact_iff :
    PreExact profile pureFns entity route CanFail ↔ ValuesTotal profile pureFns CanFail entity route := by
  constructor
  · intro h hflat actions hbody a ha hfail
    have hshape : routePreIsFlat route = true := by
      rw [usesFlatPre, Bool.and_eq_true, Bool.and_eq_true] at hflat
      exact hflat.1.1
    obtain ⟨hsends, -⟩ := flat_shape hshape
    let B := refusing (.stmt none a)
    have hworks : ∀ p s, B.proceed p s = none → PartCanFail profile pureFns entity route CanFail p := by
      intro p s hp
      by_cases heq : p = .stmt none a
      · exact heq ▸ hfail
      · rw [show B.proceed p s = some () from if_neg heq] at hp
        cases hp
    have hpre := (h (fun _ => False) Unit B hworks () hshape).mp (by
      rw [Pre, if_pos hflat]
      refine ⟨fun _ _ => rfl, fun hne => ?_, fun _ _ => rfl⟩
      obtain ⟨c, hc⟩ := List.exists_mem_of_ne_nil _ hne
      exact ⟨c, hc, rfl⟩)
    have hmem : Part.stmt none a ∈ leanBody entity route := by
      rw [leanBody_unphased hbody]
      apply List.mem_append_right
      apply List.mem_append_right
      rw [if_neg (by rw [hsends]; exact Bool.false_ne_true)]
      exact List.mem_map_of_mem ha
    obtain ⟨front, back, hsplit⟩ := List.append_of_mem hmem
    apply hpre
    rw [hsplit]
    apply exec_fails (P := fun _ => True) (fun _ _ _ _ _ _ => trivial) _ trivial
    intro s _
    have hstop : B.leanNext (.stmt none a) s = none := by
      rw [leanNext_work rfl]
      exact if_pos rfl
    cases hpass : passing B.leanFails B.leanNext (.stmt none a) s with
    | none => rfl
    | some m =>
      rw [passing_eq_some, hstop] at hpass
      cases hpass.2
  · intro hvalues CanTrap S B hworks s hshape
    rw [Pre]
    split
    · next hflat =>
      obtain ⟨hsends, actions, hbody⟩ := flat_shape hshape
      rw [flatPre_iff hsends, succeeds_iff hbody]
      intro p hp m hnone
      have hfail := hworks p m hnone
      rcases List.mem_append.mp hp with hp | hp
      · rw [(mem_genUpdates.mp hp).2] at hfail
        rw [PartCanFail, transforms_total hflat] at hfail
        cases hfail
      · rw [if_neg (by rw [hsends]; exact Bool.false_ne_true)] at hp
        obtain ⟨a, ha, rfl⟩ := List.mem_map.mp hp
        exact hvalues hflat actions hbody a ha hfail
    · exact Iff.rfl

end Precondition

/-! ### The property and its condition -/

/-- The guards of every route of an accepted entity fail alike, and its flat precondition is
    exact, if and only if the checks are alike and no value can fail behind the guards. -/
theorem same_failures_iff (entity : Entity) (hacc : checkPhaseConsistency entity = [])
    (hfrom : checkFromClauseUniformThrow entity = []) (deterministic : Bool) (form : Form)
    (route : Route) (h : (form, route) ∈ contractForms deterministic entity) (profile : LeanProfile)
    (pureFns : List PureFn) (CanTrap CanFail : Expr → Prop) :
    (FailAlike CanTrap entity route form ∧ PreExact profile pureFns entity route CanFail) ↔
      (ChecksAlike CanTrap entity route form ∧ ValuesTotal profile pureFns CanFail entity route) := by
  have hroute := mem_routes_of_mem_contractForms h
  exact and_congr (failAlike_iff (accepted_route hacc hroute) (uniform_of_accepted hfrom hroute) h)
    preExact_iff

section Example

def ownerClause : FromClause := ⟨"m_owner", [], none, .member, some 1, none, []⟩

def gateRoute (name : String) (wheres : List WhereClause) (actions : List RouteAction) : Route :=
  ⟨name, [], [ownerClause], wheres, none, .unphased actions, false, false, false, false, false, none,
    false⟩

/-- `permit() from m_owner : throw 1 where sys::chainid == 1 : throw 2 => []` -/
def permitRoute : Route :=
  gateRoute "permit" [⟨.binOp (.sysField "chainid") .eq (.intLiteral ⟨0, 1⟩), 2, none, []⟩] []

/-- `close() from m_owner : throw 1 where m_open : throw 2 => []` -/
def closeRoute : Route := gateRoute "close" [⟨.ident "m_open", 2, none, []⟩] []

def gateEntity : Entity where
  name := "Gate"
  records := []
  enums := []
  typeAliases := []
  constants := []
  macros := []
  routes := [permitRoute, closeRoute]
  members := [⟨"m_owner", .simple "address", false, none, []⟩, ⟨"m_open", .simple "bool", false, none, []⟩]

def checkedNumbers : LeanProfile := ⟨true, false⟩

theorem gate_accepted : checkPhaseConsistency gateEntity = [] := by decide

theorem gate_uniform : checkFromClauseUniformThrow gateEntity = [] := by decide

/-- A call by a stranger on another chain. -/
def strange : Behaviour (fun _ => False) Unit where
  truth _ _ := false
  admits _ _ := false
  panics _ _ := none
  panics_only _ _ h := absurd rfl h
  perform _ s := some s
  proceed _ s := some s
  proceed_of_perform _ _ _ h := h
  perform_of_proceed _ _ _ _ h := h

/-- Solidity reverts with `throw(1)`, Lean throws 2. -/
theorem permit_fails_differently :
    checkPhaseConsistency gateEntity = [] ∧ checkFromClauseUniformThrow gateEntity = [] ∧
    (Form.function, permitRoute) ∈ contractForms true gateEntity ∧
    firstFailure strange.evmFails strange.evmNext (Form.function.emit gateEntity permitRoute).body () =
      some (.thrown 1) ∧
    firstFailure strange.leanFails strange.leanNext (leanBody gateEntity permitRoute) () = some 2 ∧
    ¬ FailAlike (fun _ => False) gateEntity permitRoute .function := by
  have hevm : firstFailure strange.evmFails strange.evmNext
      (Form.function.emit gateEntity permitRoute).body () = some (.thrown 1) := by decide
  have hlean : firstFailure strange.leanFails strange.leanNext (leanBody gateEntity permitRoute) () =
      some 2 := by decide +kernel
  refine ⟨gate_accepted, gate_uniform, List.mem_append_right _ (.head _), hevm, hlean, ?_⟩
  intro h
  have hsame := h Unit strange ()
  rw [hevm, hlean] at hsame
  cases hsame

theorem close_leanBody : leanBody gateEntity closeRoute =
    [.fromCheck [ownerClause], .whereCheck none ⟨.ident "m_open", 2, none, []⟩] := rfl

theorem close_reads {p : Part} (h : p ∈ entryGuards closeRoute) : readsWorld gateEntity p = false := by
  rcases List.mem_cons.mp h with rfl | h
  · rfl
  · rw [List.mem_singleton.mp h]
    decide +kernel

theorem close_alike : ChecksAlike (fun _ => False) gateEntity closeRoute .function where
  sender := .inl rfl
  phases := .inl rfl
  traps before p after _ := by
    cases p with
    | fromCheck cs => exact ⟨fun _ _ _ _ => id, fun _ _ => id⟩
    | whereCheck phase w => exact ⟨id, fun _ _ _ => id⟩
    | _ => trivial
  returns before p after hcode hend := by
    have hmem : p ∈ leanBody gateEntity closeRoute :=
      hcode ▸ List.mem_append_right _ List.mem_cons_self
    rw [close_leanBody] at hmem
    rcases List.mem_cons.mp hmem with rfl | hmem
    · exact absurd hend id
    · rw [List.mem_singleton.mp hmem] at hend
      exact absurd hend id
  order actions hbody hsends before a mid b after hsplit ha hb := by
    have hmem : b ∈ entryGuards closeRoute := by
      rw [hsplit]
      exact List.mem_append_right _ (List.mem_cons_of_mem _ (List.mem_append_right _ List.mem_cons_self))
    rw [close_reads hmem] at hb
    cases hb

theorem close_values : ValuesTotal checkedNumbers [] (fun _ => False) gateEntity closeRoute := by
  intro _ actions hbody a ha
  cases hbody
  exact absurd ha List.not_mem_nil

/-- `close` fails alike on both sides, and its precondition is exact. -/
theorem close_same_failures :
    FailAlike (fun _ => False) gateEntity closeRoute .function ∧
      PreExact checkedNumbers [] gateEntity closeRoute fun _ => False :=
  (same_failures_iff gateEntity gate_accepted gate_uniform true .function closeRoute
    (List.mem_append_right _ (.tail _ (.head _))) checkedNumbers [] (fun _ => False)
    fun _ => False).mpr ⟨close_alike, close_values⟩

end Example

end CambrianLang.Guards
