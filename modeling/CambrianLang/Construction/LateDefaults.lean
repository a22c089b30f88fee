/-
  **Defaults that are assigned too late.**

  A constructor assigns the members without an init transform when the init route is done.
  Whatever the route has made of such a member is lost, and a default that looks at
  other members finds them as the route left them.
-/
import CambrianLang.Construction.Probes

namespace CambrianLang.Construction

open Ast Solidity StraightLine
open Validate
open Guards (initBody)

section Late

variable {program : Program} {entity : Entity} {route : Route} {d : Member}

/-- The part can write members of that name. -/
def CanWrite (entity : Entity) (route : Route) (n : String) : Part → Prop
  | .updates phase => n ∈ stageWrites entity route phase
  | .stmt _ a => Reenters route a ∨ n ∈ (actionCode entity a).writes
  | _ => False

theorem stage_of_bodyStages {x : Option String × List RouteAction}
    (h : x ∈ bodyStages route.body) : ∃ st ∈ stagesOf route.body, (st.phase, st.actions) = x := by
  unfold bodyStages at h
  unfold stagesOf
  cases hbody : route.body with
  | unphased as =>
    rw [hbody] at h
    exact ⟨_, List.mem_cons_self, (List.mem_singleton.mp h).symm⟩
  | phased ps =>
    rw [hbody] at h
    obtain ⟨p, hp, rfl⟩ := List.mem_map.mp h
    exact ⟨_, List.mem_map_of_mem hp, rfl⟩
  | mixed ps as =>
    rw [hbody] at h
    rcases List.mem_append.mp h with h | h
    · obtain ⟨p, hp, rfl⟩ := List.mem_map.mp h
      exact ⟨_, List.mem_append_left _ (List.mem_map_of_mem hp), rfl⟩
    · exact ⟨_, List.mem_append_right _ List.mem_cons_self, (List.mem_singleton.mp h).symm⟩

/-- A write of the route's function is made by a part of one of its stages. -/
theorem canWrite_of_functionWrites {w : Write} (h : w ∈ functionWrites entity route) :
    ∃ st ∈ stagesOf route.body, ∃ x ∈ plainStage entity route st,
      CanWrite entity route w.target x := by
  obtain ⟨stage, hstage, hw⟩ := List.mem_flatMap.mp h
  obtain ⟨st, hst, rfl⟩ := stage_of_bodyStages hstage
  rcases List.mem_append.mp hw with hw | hw
  · obtain ⟨rt, hrt, hw⟩ := List.mem_flatMap.mp hw
    obtain ⟨target, htarget, rfl⟩ := List.mem_map.mp hw
    refine ⟨st, hst, .updates st.phase, mem_plainStage.mpr (.inl ⟨?_, rfl⟩), ?_⟩
    · exact fun hnil => absurd (hnil ▸ hrt) List.not_mem_nil
    · exact List.mem_flatMap.mpr ⟨rt, hrt, htarget⟩
  · obtain ⟨target, htarget, rfl⟩ := List.mem_map.mp hw
    rw [writes_actionsCode] at htarget
    obtain ⟨a, ha, htarget⟩ := List.mem_flatMap.mp htarget
    exact ⟨st, hst, .stmt st.phase a, mem_plainStage.mpr (.inr ⟨a, ha, rfl⟩), .inr htarget⟩

theorem canWrite_of_reenters {a : RouteAction} (ha : a ∈ route.body.allActions)
    (h : Reenters route a) (n : String) :
    ∃ st ∈ stagesOf route.body, ∃ x ∈ plainStage entity route st, CanWrite entity route n x := by
  obtain ⟨stage, hstage, ha⟩ := mem_stage_actions.mp ha
  obtain ⟨st, hst, rfl⟩ := stage_of_bodyStages hstage
  exact ⟨st, hst, .stmt st.phase a, mem_plainStage.mpr (.inr ⟨a, ha, rfl⟩), .inl h⟩

section Writes

variable {D : Deployment entity route Bool Unit} {v : Bool} {own : Bool} {s k : Site Bool Unit}

/-- The deployment writes one value only and nothing returns. -/
structure WritesOnly (D : Deployment entity route Bool Unit) (v : Bool) : Prop where
  computed : ∀ phase σ w, D.computed phase σ w =
    some fun d => if d.name ∈ stageWrites entity route phase then some v else none
  acted : ∀ own phase a σ σ' w, ∃ δ, D.act own phase a σ σ' w = some (δ, w, false) ∧
    (∀ d : Member, Reenters route a ∨ d.name ∈ (actionCode entity a).writes → δ d = some v) ∧
    ∀ d : Member, ¬ (Reenters route a ∨ d.name ∈ (actionCode entity a).writes) → δ d = none
  holds : ∀ cs c σ w, D.fromHolds cs σ w = true ∧ D.whereHolds c σ w = true

theorem WritesOnly.goes (h : WritesOnly D v) (part : Part) : Goes D own part := by
  cases part with
  | fromCheck cs => exact fun σ w => (h.holds cs ⟨.noneE, 0, none, []⟩ σ w).1
  | whereCheck phase c => exact fun σ w => (h.holds [] c σ w).2
  | updates phase =>
    intro σ w
    rw [h.computed]
    exact Option.some_ne_none _
  | stmt phase a =>
    intro σ σ' w
    obtain ⟨δ, hδ, -⟩ := h.acted own phase a σ σ' w
    rw [hδ]
    exact Option.some_ne_none _
  | _ => trivial

theorem WritesOnly.stays (h : WritesOnly D v) : NeverLeaves D := by
  intro own phase a σ σ' w r hr
  obtain ⟨δ, hδ, -⟩ := h.acted own phase a σ σ' w
  rw [hδ] at hr
  cases hr
  rfl

/-- A part that can write the member does. -/
theorem WritesOnly.sets (h : WritesOnly D v) {part : Part} (hpart : CanWrite entity route d.name part)
    (hleft : s.left = false) (hk : D.step program own part s = some k) : k.mem d = v := by
  cases part with
  | updates phase =>
    rw [step_updates hleft, h.computed] at hk
    cases hk
    have hwrite : d.name ∈ stageWrites entity route phase := hpart
    simp only [update, hwrite, if_true, Option.getD_some]
  | stmt phase a =>
    obtain ⟨δ, hδ, hsome, -⟩ := h.acted own phase a s.mem s.before s.world
    rw [step_stmt hleft, hδ] at hk
    cases hk
    change (δ d).getD _ = v
    rw [hsome d hpart]
    rfl
  | _ => exact absurd hpart id

/-- Parts of stages keep a member that is written or is of the value already. -/
theorem WritesOnly.keeps (h : WritesOnly D v) {u : Bool} {part : Part} (hstage : StagePart part)
    (hu : u = v ∨ ¬ CanWrite entity route d.name part) (hleft : s.left = false) (hs : s.mem d = u)
    (hk : D.step program own part s = some k) : k.mem d = u := by
  by_cases hpart : CanWrite entity route d.name part
  · rw [hu.resolve_right (not_not_intro hpart)]
    exact h.sets hpart hleft hk
  · rcases (step_cases h.stays hleft hk).2 with ⟨hm, -⟩ | ⟨_, _, rfl | rfl, -⟩ |
      ⟨phase, δ, rfl, hδ, hm, -⟩ | ⟨phase, a, r, rfl, hact, hm, -⟩
    · rw [hm, hs]
    · exact absurd hstage id
    · exact absurd hstage id
    · rw [h.computed] at hδ
      cases hδ
      rw [hm, update_of_eq_none (if_neg hpart), hs]
    · obtain ⟨δ, hδ, -, hnone⟩ := h.acted own phase a s.mem s.before s.world
      rw [hδ] at hact
      cases hact
      rw [hm, update_of_eq_none (hnone d hpart), hs]

/-- The stages of a route leave a member that is written at the value. -/
theorem WritesOnly.stages_set (h : WritesOnly D v) {emit : Stage → List Part}
    (hemit : ∀ st, ∀ x ∈ emit st, StagePart x)
    (hplain : ∀ st, ∀ x ∈ plainStage entity route st, x ∈ emit st) {st : Stage}
    (hst : st ∈ stagesOf route.body) {x : Part} (hx : x ∈ plainStage entity route st)
    (hwrite : CanWrite entity route d.name x) (hleft : s.left = false) : ∃ k,
      exec (D.step program own) ((stagesOf route.body).flatMap emit) s = some k ∧ k.left = false ∧
        k.mem d = v := by
  obtain ⟨before, after, hcode⟩ := List.append_of_mem
    (List.mem_flatMap.mpr ⟨st, hst, hplain st x hx⟩ : x ∈ (stagesOf route.body).flatMap emit)
  have hparts : ∀ y ∈ before ++ x :: after, StagePart y := by
    intro y hy
    rw [← hcode] at hy
    obtain ⟨q, -, hq⟩ := List.mem_flatMap.mp hy
    exact hemit q y hq
  obtain ⟨k, hk⟩ : ∃ k, exec (D.step program own) ((stagesOf route.body).flatMap emit) s = some k :=
    exec_goes (fun part _ => h.goes part) s
  refine ⟨k, hk, ?_⟩
  rw [hcode, exec_append] at hk
  obtain ⟨m, hm, hk⟩ := Option.bind_eq_some_iff.mp hk
  have hm := exec_keeps (P := fun s => s.left = false)
    (fun y _ s k hs hk => step_stays h.stays hs hk) hleft hm
  rw [exec_cons] at hk
  obtain ⟨m', hm', hk⟩ := Option.bind_eq_some_iff.mp hk
  refine exec_keeps (P := fun s => s.left = false ∧ s.mem d = v) ?_
    ⟨step_stays h.stays hm hm', h.sets hwrite hm hm'⟩ hk
  rintro y hy s k ⟨hs, hmem⟩ hk
  have hy := hparts y (List.mem_append_right _ (List.mem_cons_of_mem _ hy))
  exact ⟨step_stays h.stays hs hk, h.keeps hy (.inl rfl) hs hmem hk⟩

end Writes

/-! ### Runs in deployments that write one value -/

section Runs

variable {D : Deployment entity route Bool Unit} {v : Bool} {s : Site Bool Unit}

/-- What a route of its own runs before its stages leaves the members alone. -/
theorem WritesOnly.exec_entry (h : WritesOnly D v) (hleft : s.left = false) :
    exec (D.step program true) ((defaulted entity).map .setDefault ++
      (genRouteImpl entity route).body) s = exec (D.step program true)
        ((stagesOf route.body).flatMap (ownStage entity route)) (withDefaults program D s) := by
  have hfroms : exec (D.step program true) (genFromChecks route) (withDefaults program D s) =
      some (withDefaults program D s) := by
    apply exec_of_steps
    intro part hpart
    unfold genFromChecks at hpart
    split at hpart
    · exact absurd hpart List.not_mem_nil
    · have hstart : (withDefaults program D s).left = false := hleft
      rw [List.mem_singleton.mp hpart, step_fromCheck hstart, if_pos]
      exact (h.holds _ ⟨.noneE, 0, none, []⟩ _ _).1
  rw [exec_append, exec_defaulted hleft, Option.bind_some, genRouteImpl_body, exec_append, hfroms,
    Option.bind_some, exec_append, exec_wheres fun c _ => (h.holds [] c _ _).2, Option.bind_some]

/-- What a constructor runs before its stages leaves the members alone. -/
theorem WritesOnly.exec_init (h : WritesOnly D v) (hacc : checkRoutePhases entity route = [])
    {k : Site Bool Unit} (hk : exec (D.step program false)
      ((stagesOf route.body).flatMap (plainStage entity route)) s = some k) (hleft : k.left = false) :
    exec (D.step program false) (initBody entity route) s =
      some { k with mem := assignAll program D true (defaultedAfter entity route) k.mem } := by
  rw [initBody_stages hacc, exec_append, exec_wheres fun c _ => (h.holds [] c _ _).2,
    Option.bind_some, exec_append, hk, Option.bind_some]
  exact exec_defaults _ hleft

/-- The stages of a route keep a member that nothing can write, or that only changes to what
    it is. -/
theorem WritesOnly.stages_keep (h : WritesOnly D v) {own : Bool} {emit : Stage → List Part}
    (hemit : ∀ st, ∀ x ∈ emit st, StagePart x) {u : Bool}
    (hu : u = v ∨ ∀ st ∈ stagesOf route.body, ∀ x ∈ emit st, ¬ CanWrite entity route d.name x)
    (hleft : s.left = false) (hs : s.mem d = u) : ∃ k,
      exec (D.step program own) ((stagesOf route.body).flatMap emit) s = some k ∧ k.left = false ∧
        k.mem d = u := by
  refine exec_flatMap_total (P := fun s : Site Bool Unit => s.left = false ∧ s.mem d = u) ?_ ⟨hleft, hs⟩
  intro st hst s hs
  refine exec_total (P := fun s : Site Bool Unit => s.left = false ∧ s.mem d = u) ?_ hs
  rintro x hx s ⟨hleft, hmem⟩
  obtain ⟨k, hk⟩ : ∃ k, D.step program own x s = some k := step_goes (h.goes x) s
  exact ⟨k, hk, step_stays h.stays hleft hk,
    h.keeps (hemit st x hx) (hu.imp_right fun hno => hno st hst x hx) hleft hmem hk⟩

theorem stagePart_of_plain {st : Stage} {x : Part} (h : x ∈ plainStage entity route st) :
    StagePart x :=
  stagePart_of_mem (mem_ownStage.mpr (.inr h))

end Runs

open Classical in
theorem writing_only (v initial : Bool) (zero : Member → Bool) :
    WritesOnly (writing entity route v zero initial id : Deployment entity route Bool Unit) v where
  computed phase σ w := by simp only [writing]
  acted own phase a σ σ' w := ⟨_, rfl, fun d hd => if_pos hd, fun d hd => if_neg hd⟩
  holds _ _ _ _ := ⟨rfl, rfl⟩

/-! ### Members that are lost -/

/-- A member assigned at the end that a stage can write ends differently. -/
theorem not_canWrite (h : PlainAsDeclared program entity route)
    (hacc : checkRoutePhases entity route = []) (hd : d ∈ assignedAfter program entity route)
    {st : Stage} (hst : st ∈ stagesOf route.body) {x : Part} (hx : x ∈ plainStage entity route st) :
    ¬ CanWrite entity route d.name x := by
  intro hwrite
  let D : Deployment entity route Bool Unit := writing entity route false (fun _ => true) true id
  have hD : WritesOnly D false := writing_only false true fun _ => true
  obtain ⟨s, hs, hrun⟩ := h.start D ()
  obtain ⟨k, hk, -, hmem⟩ : ∃ k, exec (D.step program true) ((stagesOf route.body).flatMap
      (ownStage entity route)) (withDefaults program D s) = some k ∧ k.left = false ∧
        k.mem d = false :=
    hD.stages_set (fun st x hx => stagePart_of_mem hx) (fun st x hx => mem_ownStage.mpr (.inr hx))
      hst hx hwrite hs.left
  obtain ⟨m, hm, hleft, -⟩ : ∃ m, exec (D.step program false) ((stagesOf route.body).flatMap
      (plainStage entity route)) s = some m ∧ m.left = false ∧ m.mem d = false :=
    hD.stages_set (fun st x hx => stagePart_of_plain hx) (fun st x hx => hx) hst hx hwrite hs.left
  rw [hD.exec_entry hs.left, hk, hD.exec_init hacc hm hleft, Option.map_some, Option.map_some,
    Option.some.injEq, Prod.mk.injEq] at hrun
  have hassigned : assignAll program D true (defaultedAfter entity route) m.mem d = true := by
    refine assignAll_of_mem (P := fun _ => True) (fun σ _ => ?_) (fun _ _ _ _ _ => trivial) trivial hd
    unfold Deployment.value
    split
    · rfl
    · rfl
  rw [← hrun.1] at hmem
  exact Bool.false_ne_true (hmem.symm.trans hassigned)

theorem unwritten (h : PlainAsDeclared program entity route)
    (hacc : checkRoutePhases entity route = []) (hd : d ∈ assignedAfter program entity route) :
    (∀ w ∈ functionWrites entity route, w.target ≠ d.name) ∧
      ∀ a ∈ route.body.allActions, ¬ Reenters route a := by
  constructor
  · intro w hw htarget
    obtain ⟨st, hst, x, hx, hwrite⟩ := canWrite_of_functionWrites hw
    exact not_canWrite h hacc hd hst hx (htarget ▸ hwrite)
  · intro a ha hre
    obtain ⟨st, hst, x, hx, hwrite⟩ : ∃ st ∈ stagesOf route.body,
        ∃ x ∈ plainStage entity route st, CanWrite entity route d.name x :=
      canWrite_of_reenters ha hre d.name
    exact not_canWrite h hacc hd hst hx hwrite

/-! ### Defaults that have changed -/

/-- An untouched member is not written by any part of a stage. -/
theorem unwritten_stages (h : (∀ w ∈ functionWrites entity route, w.target ≠ d.name) ∧
    ∀ a ∈ route.body.allActions, ¬ Reenters route a) {st : Stage} (hst : st ∈ stagesOf route.body)
    {x : Part} (hx : x ∈ plainStage entity route st) : ¬ CanWrite entity route d.name x := by
  have huntouched : Untouched entity route d.name := h.1
  intro hwrite
  rcases mem_plainStage.mp hx with ⟨-, rfl⟩ | ⟨a, ha, rfl⟩
  · exact huntouched.not_stageWrites hst hwrite
  · rcases hwrite with hre | hwrite
    · exact h.2 a (mem_allActions hst ha) hre
    · exact huntouched.not_actionWrites hst ha hwrite

theorem not_canWrite_own {st : Stage} (h : ∀ x ∈ plainStage entity route st,
    ¬ CanWrite entity route d.name x) {x : Part} (hx : x ∈ ownStage entity route st) :
    ¬ CanWrite entity route d.name x := by
  rcases mem_ownStage.mp hx with ⟨c, -, rfl⟩ | hx
  · exact id
  · exact h x hx

open Classical in
/-- The default of one member is what another one is, and the route writes `true`. -/
noncomputable def copying (entity : Entity) (route : Route) (d x : Member)
    (hx : NamedByDefault entity d x.name) : Deployment entity route Bool Unit :=
  { writing entity route true (fun _ => false) false id with
    declared := fun _ m σ => decide (m = d) && σ x
    declared_scope := fun _ _ _ => rfl
    declared_congr := by
      intro inConstructor m σ τ hστ
      by_cases hm : m = d
      · subst hm
        rw [hστ x hx]
      · simp [hm] }

theorem copying_only {x : Member} (hx : NamedByDefault entity d x.name) :
    WritesOnly (copying entity route d x hx) true where
  computed := (writing_only true false fun _ => false).computed
  acted := (writing_only true false fun _ => false).acted
  holds _ _ _ _ := ⟨rfl, rfl⟩

theorem copying_value {x : Member} {hx : NamedByDefault entity d x.name} {inConstructor : Bool}
    {m : Member} {σ : Member → Bool} (hσ : σ x = false) :
    (copying entity route d x hx).value inConstructor m σ = false := by
  unfold Deployment.value
  split
  · simp [copying, hσ]
  · rfl

/-- A default that names a member which the route writes is another one at the end. -/
theorem unchanged_default (h : PlainAsDeclared program entity route)
    (hacc : checkRoutePhases entity route = []) (hd : d ∈ assignedAfter program entity route)
    (hown : hasOwnDefault d = true) {n : String} (hn : NamedByDefault entity d n) :
    ∀ w ∈ functionWrites entity route, w.target ≠ n := by
  rintro w hw rfl
  let x : Member := ⟨w.target, .simple "", false, none, []⟩
  have hD : WritesOnly (copying entity route d x hn) true := copying_only hn
  obtain ⟨st, hst, y, hy, hwrite⟩ := canWrite_of_functionWrites hw
  obtain ⟨s, hs, hrun⟩ := h.start (copying entity route d x hn) ()
  have hfalse : ∀ e, s.mem e = false := fun e => (hs.mem e).elim id id
  -- the declared run finds the other member at zero
  have hstart : (withDefaults program (copying entity route d x hn) s).mem d = false := by
    have hboth : assignAll program (copying entity route d x hn) false (defaulted entity) s.mem x =
        false ∧ assignAll program (copying entity route d x hn) false (defaulted entity) s.mem d =
          false := by
      refine assignAll_keeps (P := fun σ => σ x = false ∧ σ d = false) ?_ ⟨hfalse x, hfalse d⟩
      rintro m - - σ ⟨hx, hd⟩
      rw [copying_value hx]
      constructor
      · rw [assign, hx, ite_self]
      · rw [assign, hd, ite_self]
    exact hboth.2
  have hkept := unwritten h hacc hd
  obtain ⟨k, hk, -, hmem⟩ : ∃ k, exec ((copying entity route d x hn).step program true)
      ((stagesOf route.body).flatMap (ownStage entity route))
      (withDefaults program (copying entity route d x hn) s) = some k ∧ k.left = false ∧
        k.mem d = false :=
    hD.stages_keep (fun st x hx => stagePart_of_mem hx)
      (.inr fun st hst x hx => not_canWrite_own (fun x hx => unwritten_stages hkept hst hx) hx)
      hs.left hstart
  -- the constructor finds it as the route has written it
  obtain ⟨m, hm, hleft, hset⟩ : ∃ m, exec ((copying entity route d x hn).step program false)
      ((stagesOf route.body).flatMap (plainStage entity route)) s = some m ∧ m.left = false ∧
        m.mem x = true :=
    hD.stages_set (fun st x hx => stagePart_of_plain hx) (fun st x hx => hx) hst hy hwrite hs.left
  have hassigned : assignAll program (copying entity route d x hn) true
      (defaultedAfter entity route) m.mem d = true := by
    refine assignAll_of_mem (P := fun σ => σ x = true) ?_ ?_ hset hd
    · intro σ hσ
      rw [Deployment.value, if_pos hown]
      simp [copying, hσ]
    · intro e he hprints σ hσ
      have hne : x ≠ e := by
        rintro rfl
        exact (unwritten h hacc (List.mem_filter.mpr ⟨he, hprints⟩)).1 w hw rfl
      rw [assign, if_neg hne, hσ]
  rw [hD.exec_entry hs.left, hk, hD.exec_init hacc hm hleft, Option.map_some, Option.map_some,
    Option.some.injEq, Prod.mk.injEq] at hrun
  rw [← hrun.1] at hmem
  exact Bool.false_ne_true (hmem.symm.trans hassigned)

open Classical in
/-- The default of one member is another one in the constructor, and the route writes `false`. -/
noncomputable def shadowing (entity : Entity) (route : Route) (d : Member)
    (hd : Captured entity route d) : Deployment entity route Bool Unit :=
  { writing entity route false (fun _ => false) false id with
    declared := fun inConstructor m _ => inConstructor && decide (m = d)
    declared_scope := by
      intro m σ hm
      have hne : m ≠ d := fun heq => hm (heq ▸ hd)
      simp [hne]
    declared_congr := fun _ _ _ _ _ => rfl }

theorem shadowing_only (hd : Captured entity route d) :
    WritesOnly (shadowing entity route d hd) false where
  computed := (writing_only false false fun _ => false).computed
  acted := (writing_only false false fun _ => false).acted
  holds _ _ _ _ := ⟨rfl, rfl⟩

/-- A default in which a parameter or local takes the place of a declaration is another one. -/
theorem not_captured (h : PlainAsDeclared program entity route)
    (hacc : checkRoutePhases entity route = []) (hd : d ∈ assignedAfter program entity route)
    (hown : hasOwnDefault d = true) : ¬ Captured entity route d := by
  intro hcaptured
  have hD : WritesOnly (shadowing entity route d hcaptured) false := shadowing_only hcaptured
  obtain ⟨s, hs, hrun⟩ := h.start (shadowing entity route d hcaptured) ()
  have hstart : (withDefaults program (shadowing entity route d hcaptured) s).mem d = false := by
    refine assignAll_keeps (P := fun σ => σ d = false) ?_ ((hs.mem d).elim id id)
    intro m _ _ σ hσ
    have hvalue : (shadowing entity route d hcaptured).value false m σ = false := by
      unfold Deployment.value
      split
      · rfl
      · rfl
    rw [hvalue, assign, hσ, ite_self]
  obtain ⟨k, hk, -, hmem⟩ : ∃ k, exec ((shadowing entity route d hcaptured).step program true)
      ((stagesOf route.body).flatMap (ownStage entity route))
      (withDefaults program (shadowing entity route d hcaptured) s) = some k ∧ k.left = false ∧
        k.mem d = false :=
    hD.stages_keep (fun st x hx => stagePart_of_mem hx) (.inl rfl) hs.left hstart
  obtain ⟨m, hm, hleft, -⟩ : ∃ m, exec ((shadowing entity route d hcaptured).step program false)
      ((stagesOf route.body).flatMap (plainStage entity route)) s = some m ∧ m.left = false ∧
        m.mem d = false :=
    hD.stages_keep (fun st x hx => stagePart_of_plain hx) (.inl rfl) hs.left ((hs.mem d).elim id id)
  have hassigned : assignAll program (shadowing entity route d hcaptured) true
      (defaultedAfter entity route) m.mem d = true := by
    refine assignAll_of_mem (P := fun _ => True) (fun σ _ => ?_) (fun _ _ _ _ _ => trivial) trivial hd
    rw [Deployment.value, if_pos hown]
    simp [shadowing]
  rw [hD.exec_entry hs.left, hk, hD.exec_init hacc hm hleft, Option.map_some, Option.map_some,
    Option.some.injEq, Prod.mk.injEq] at hrun
  rw [← hrun.1] at hmem
  exact Bool.false_ne_true (hmem.symm.trans hassigned)

end Late

end CambrianLang.Construction
