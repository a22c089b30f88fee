/-
  **Constructors of settled init routes construct what is declared.**

  The constructor and the declarations are run side by side.  In between the two differ
  at the members whose defaults are still to come: those that are to start at a value of
  their own and have had no transform yet.  As nothing looks at them the runs stay
  together, and the defaults at the end close the gap.
-/
import CambrianLang.Construction.Deployment

namespace CambrianLang.Construction

open Ast Analysis Solidity StraightLine
open Validate
open Guards (initBody initBody_eq trailing initStage)
open Layout (isMappingType)

/-! ### Stages -/

section Stages

variable {entity : Entity} {route : Route} {st : Stage} {d : Member}

def plainStage (entity : Entity) (route : Route) (st : Stage) : List Part :=
  genStage entity route st.phase st.actions

def ownStage (entity : Entity) (route : Route) (st : Stage) : List Part :=
  genWhereChecks st.phase st.wheres ++ plainStage entity route st

theorem emitRouteBody_stages :
    emitRouteBody entity route = (stagesOf route.body).flatMap (ownStage entity route) := by
  unfold emitRouteBody stagesOf
  cases route.body with
  | unphased as =>
    rw [List.flatMap_singleton]
    rfl
  | phased ps =>
    rw [List.flatMap_map]
    rfl
  | mixed ps as =>
    rw [List.flatMap_append, List.flatMap_map, List.flatMap_singleton]
    rfl

theorem initBody_stages (hacc : checkRoutePhases entity route = []) :
    initBody entity route = genWhereChecks none route.whereClauses ++
      ((stagesOf route.body).flatMap (plainStage entity route) ++
        (defaultedAfter entity route).map .setDefault) := by
  rw [initBody_eq hacc]
  unfold stagesOf trailing
  cases hbody : route.body with
  | unphased as => simp only [RouteBody.phaseBlocks, List.flatMap_nil, List.nil_append,
      List.flatMap_singleton, plainStage]
  | phased ps =>
    rw [List.flatMap_map]
    rfl
  | mixed ps as => exact absurd hbody (body_not_mixed hacc)

theorem mem_bodyStages (h : st ∈ stagesOf route.body) :
    (st.phase, st.actions) ∈ bodyStages route.body := by
  unfold stagesOf at h
  unfold bodyStages
  cases hbody : route.body with
  | unphased as =>
    rw [hbody] at h
    rw [List.mem_singleton.mp h]
    exact List.mem_cons_self
  | phased ps =>
    rw [hbody] at h
    obtain ⟨p, hp, rfl⟩ := List.mem_map.mp h
    exact List.mem_map_of_mem hp
  | mixed ps as =>
    rw [hbody] at h
    rcases List.mem_append.mp h with h | h
    · obtain ⟨p, hp, rfl⟩ := List.mem_map.mp h
      exact List.mem_append_left _ (List.mem_map_of_mem hp)
    · rw [List.mem_singleton.mp h]
      exact List.mem_append_right _ List.mem_cons_self

theorem mem_allActions (h : st ∈ stagesOf route.body) {a : RouteAction} (ha : a ∈ st.actions) :
    a ∈ route.body.allActions :=
  mem_stage_actions.mpr ⟨_, mem_bodyStages h, ha⟩

/-- No write of the route's function is to a member of that name. -/
def Untouched (entity : Entity) (route : Route) (n : String) : Prop :=
  ∀ w ∈ functionWrites entity route, w.target ≠ n

theorem Untouched.not_stageWrites (h : Untouched entity route d.name)
    (hst : st ∈ stagesOf route.body) : d.name ∉ stageWrites entity route st.phase := by
  intro hmem
  obtain ⟨rt, hrt, hwrite⟩ := List.mem_flatMap.mp hmem
  apply h ⟨some rt.1, d.name⟩ _ rfl
  refine List.mem_flatMap.mpr ⟨_, mem_bodyStages hst, List.mem_append_left _ ?_⟩
  exact List.mem_flatMap.mpr ⟨rt, hrt, List.mem_map_of_mem hwrite⟩

theorem Untouched.not_actionWrites (h : Untouched entity route d.name)
    (hst : st ∈ stagesOf route.body) {a : RouteAction} (ha : a ∈ st.actions) :
    d.name ∉ (actionCode entity a).writes := by
  intro hmem
  apply h ⟨none, d.name⟩ _ rfl
  refine List.mem_flatMap.mpr ⟨_, mem_bodyStages hst, List.mem_append_right _ ?_⟩
  apply List.mem_map_of_mem
  rw [writes_actionsCode]
  exact List.mem_flatMap.mpr ⟨a, ha, hmem⟩

theorem mem_collectTransforms {m : Member} {t : MemberTransform} {phase : Option String} :
    (m, t) ∈ collectTransforms entity route.name phase ↔ m ∈ entity.members ∧
      m.isIdentity = false ∧ t ∈ m.transforms ∧ t.routeName = route.name ∧ t.phase = phase := by
  rw [collectTransforms, List.mem_flatMap]
  constructor
  · rintro ⟨m', hm', ht⟩
    obtain ⟨t', ht', heq⟩ := List.mem_map.mp ht
    cases heq
    obtain ⟨hmem, hid⟩ := List.mem_filter.mp hm'
    obtain ⟨hroute, hphase⟩ := List.mem_filter.mp ht'
    obtain ⟨htm, hname⟩ := List.mem_filter.mp hroute
    exact ⟨hmem, by simpa using hid, htm, beq_iff_eq.mp hname, beq_iff_eq.mp hphase⟩
  · rintro ⟨hm, hid, ht, hname, hphase⟩
    refine ⟨m, List.mem_filter.mpr ⟨hm, by simp [hid]⟩, List.mem_map.mpr ⟨t, ?_, rfl⟩⟩
    exact List.mem_filter.mpr ⟨List.mem_filter.mpr ⟨ht, beq_iff_eq.mpr hname⟩, beq_iff_eq.mpr hphase⟩

/-- A member that is no map is written by its own transform. -/
theorem mem_stageWrites_of_commits {phase : Option String} (h : Commits entity route phase d)
    (hmap : isMappingType d.ty = false) : d.name ∈ stageWrites entity route phase := by
  obtain ⟨t, ht⟩ := h
  have hnot : isHashMap d.ty = false := by
    unfold isHashMap
    split
    · next name params hty =>
      rw [hty] at hmap
      simp only [isMappingType, beq_eq_false_iff_ne] at hmap
      simp [hmap]
    · rfl
  refine List.mem_flatMap.mpr ⟨_, ht, ?_⟩
  unfold transformWrites
  apply List.mem_append_left
  split
  · exact List.mem_cons_of_mem _ List.mem_cons_self
  · rw [hnot]
    exact List.mem_cons_self

theorem mem_defaulted : d ∈ defaulted entity ↔
    d ∈ entity.members ∧ d.isIdentity = false ∧ isMappingType d.ty = false := by
  rw [defaulted, List.mem_filter, Bool.and_eq_true, Bool.not_eq_true', Bool.not_eq_true']

/-- Every transform of an accepted route belongs to one of its stages. -/
theorem commits_of_transform (hacc : checkRoutePhases entity route = []) (hd : d ∈ defaulted entity)
    (h : d.transforms.any (·.routeName == route.name) = true) :
    ∃ st ∈ stagesOf route.body, Commits entity route st.phase d := by
  obtain ⟨hmem, hid, -⟩ := mem_defaulted.mp hd
  obtain ⟨t, ht, hname⟩ := List.any_eq_true.mp h
  have hname := beq_iff_eq.mp hname
  have hcollect : ∀ phase, t.phase = phase → Commits entity route phase d :=
    fun phase hphase => ⟨t, mem_collectTransforms.mpr ⟨hmem, hid, ht, hname, hphase⟩⟩
  have hfilter : t ∈ d.transforms.filter (·.routeName == route.name) :=
    List.mem_filter.mpr ⟨ht, beq_iff_eq.mpr hname⟩
  unfold checkRoutePhases at hacc
  cases hbody : route.body with
  | unphased as =>
    rw [hbody] at hacc
    have hcheck := List.flatMap_eq_nil_iff.mp (List.flatMap_eq_nil_iff.mp hacc d hmem) t hfilter
    unfold checkUnphasedTransform at hcheck
    split at hcheck
    · cases hcheck
    · next hphase =>
      exact ⟨_, List.mem_cons_self, hcollect none (Option.not_isSome_iff_eq_none.mp hphase)⟩
  | phased ps =>
    rw [hbody, List.append_eq_nil_iff] at hacc
    have hcheck := List.flatMap_eq_nil_iff.mp (List.flatMap_eq_nil_iff.mp hacc.2 d hmem) t hfilter
    unfold checkPhasedTransform at hcheck
    split at hcheck
    · cases hcheck
    · next tag htag =>
      split at hcheck
      · next hany =>
        obtain ⟨p, hp, hpname⟩ := List.any_eq_true.mp hany
        refine ⟨⟨some p.name, p.whereClauses, p.actions⟩, List.mem_map_of_mem hp, ?_⟩
        exact hcollect _ (by rw [htag, beq_iff_eq.mp hpname])
      · cases hcheck
  | mixed ps as =>
    rw [hbody] at hacc
    cases hacc

end Stages

/-! ### Steps -/

section Steps

variable {entity : Entity} {route : Route} {V W : Type} {program : Program}
  {D : Deployment entity route V W} {own : Bool} {s : Site V W}

theorem step_of_left {part : Part} (h : s.left = true) : D.step program own part s = some s := by
  unfold Deployment.step
  rw [if_pos h]

theorem step_setFactory : D.step program own .setFactory s = some s := by
  simp [Deployment.step]

theorem step_factoryOnce : D.step program own .factoryOnce s = some s := by
  simp [Deployment.step]

section Here

variable (h : s.left = false)

include h

theorem step_setIdentity (m : Member) : D.step program own (.setIdentity m) s =
    some { s with mem := assign m (D.identity m) s.mem } := by
  simp [Deployment.step, h]

theorem step_fromCheck (cs : List FromClause) : D.step program own (.fromCheck cs) s =
    if D.fromHolds cs s.mem s.world then some s else none := by
  simp [Deployment.step, h]

theorem step_whereCheck (phase : Option String) (c : WhereClause) :
    D.step program own (.whereCheck phase c) s =
      if D.whereHolds c s.mem s.world then some s else none := by
  simp [Deployment.step, h]

theorem step_updates (phase : Option String) : D.step program own (.updates phase) s =
    (D.computed phase s.mem s.world).map fun δ =>
      { s with mem := update δ s.mem, before := s.mem } := by
  simp [Deployment.step, h]

theorem step_stmt (phase : Option String) (a : RouteAction) :
    D.step program own (.stmt phase a) s =
      (D.act own phase a s.mem s.before s.world).map fun r =>
        ⟨update r.1 s.mem, s.before, r.2.1, r.2.2⟩ := by
  simp [Deployment.step, h]

theorem step_setDefault (m : Member) : D.step program own (.setDefault m) s = some { s with
    mem := if printsDefault program entity m then assign m (D.value (!own) m s.mem) s.mem
      else s.mem } := by
  obtain ⟨mem, before, world, left⟩ := s
  subst h
  by_cases hprints : printsDefault program entity m = true
  · simp [Deployment.step, hprints]
  · simp [Deployment.step, hprints]

end Here

theorem exec_of_left {code : List Part} (h : s.left = true) :
    exec (D.step program own) code s = some s :=
  exec_of_steps fun _ _ => step_of_left h

/-- The defaults of some members, assigned in order. -/
noncomputable def assignAll (program : Program) (D : Deployment entity route V W)
    (inConstructor : Bool) : List Member → (Member → V) → Member → V
  | [], σ => σ
  | m :: ms, σ => assignAll program D inConstructor ms
      (if printsDefault program entity m then assign m (D.value inConstructor m σ) σ else σ)

theorem exec_defaults (ms : List Member) : ∀ {s : Site V W}, s.left = false →
    exec (D.step program own) (ms.map .setDefault) s =
      some { s with mem := assignAll program D (!own) ms s.mem } := by
  induction ms with
  | nil => exact fun _ => rfl
  | cons m ms ih =>
    intro s hs
    rw [List.map_cons, exec_cons, step_setDefault hs, Option.bind_some]
    exact ih hs

theorem assignAll_of_not_mem {inConstructor : Bool} {d : Member} {ms : List Member} :
    ∀ {σ : Member → V}, d ∉ ms.filter (printsDefault program entity) →
      assignAll program D inConstructor ms σ d = σ d := by
  induction ms with
  | nil => exact fun _ => rfl
  | cons m ms ih =>
    intro σ hd
    rw [assignAll, ih fun hmem => hd (List.mem_filter.mpr
      ⟨List.mem_cons_of_mem _ (List.mem_filter.mp hmem).1, (List.mem_filter.mp hmem).2⟩)]
    split
    · next hprints =>
      have hne : d ≠ m := fun heq => hd (List.mem_filter.mpr ⟨heq ▸ List.mem_cons_self, heq ▸ hprints⟩)
      rw [assign, if_neg hne]
    · rfl

/-- A zero default keeps a slot that is zero. -/
theorem assignAll_zero {inConstructor : Bool} {d : Member} (hown : hasOwnDefault d = false)
    {ms : List Member} : ∀ {σ : Member → V}, σ d = D.zero d →
      assignAll program D inConstructor ms σ d = σ d := by
  induction ms with
  | nil => exact fun _ => rfl
  | cons m ms ih =>
    intro σ hzero
    have hσ : (if printsDefault program entity m then assign m (D.value inConstructor m σ) σ
        else σ) d = σ d := by
      split
      · rw [assign]
        split
        · next heq =>
          rw [← heq, Deployment.value, hown, if_neg Bool.false_ne_true, hzero]
        · rfl
      · rfl
    rw [assignAll, ih (by rw [hσ, hzero]), hσ]

/-- The defaults of untouched members come out the same at the end as at the start. -/
theorem assignAll_untouched (hset : SettledInit program entity route)
    (hacc : checkRoutePhases entity route = []) {ms : List Member} :
    (∀ m ∈ ms, m ∈ defaulted entity) → ∀ {σ τ : Member → V},
      (∀ d : Member, Untouched entity route d.name → σ d = τ d) →
      ∀ d : Member, Untouched entity route d.name →
        assignAll program D false ms σ d = assignAll program D true
          (ms.filter fun m => !m.transforms.any (·.routeName == route.name)) τ d := by
  induction ms with
  | nil => exact fun _ σ τ h => h
  | cons m ms ih =>
    intro hms σ τ hστ
    have hm := hms m List.mem_cons_self
    have hrest := fun x hx => hms x (List.mem_cons_of_mem _ hx)
    cases hany : m.transforms.any (·.routeName == route.name) with
    | true =>
      have hskip : (m :: ms).filter (fun m => !m.transforms.any (·.routeName == route.name)) =
          ms.filter fun m => !m.transforms.any (·.routeName == route.name) := by
        rw [List.filter_cons_of_neg (by simp [hany])]
      rw [hskip]
      apply ih hrest
      intro d hd
      rw [← hστ d hd]
      split
      · rw [assign, if_neg]
        rintro rfl
        obtain ⟨st, hst, hcommit⟩ := commits_of_transform hacc hm hany
        exact hd.not_stageWrites hst (mem_stageWrites_of_commits hcommit (mem_defaulted.mp hm).2.2)
      · rfl
    | false =>
      have hkeep : (m :: ms).filter (fun m => !m.transforms.any (·.routeName == route.name)) =
          m :: ms.filter fun m => !m.transforms.any (·.routeName == route.name) := by
        rw [List.filter_cons_of_pos (by simp [hany])]
      rw [hkeep]
      apply ih hrest
      intro d hd
      split
      · next hprints =>
        have hassigned : m ∈ assignedAfter program entity route :=
          List.mem_filter.mpr ⟨List.mem_filter.mpr ⟨hm, by simp [hany]⟩, hprints⟩
        have hvalue : D.value false m σ = D.value true m τ := by
          unfold Deployment.value
          split
          · next hown =>
            obtain ⟨hscope, hnames⟩ := hset.defaults m hassigned hown
            rw [D.declared_scope m τ hscope]
            exact D.declared_congr false m σ τ fun x hx => hστ x (hnames x.name hx)
          · rfl
        simp only [assign, hvalue, hστ d hd]
      · exact hστ d hd

end Steps

/-! ### Runs side by side -/

section Runs

variable {entity : Entity} {route : Route} {V W : Type} {program : Program}
  {D : Deployment entity route V W} {σ₀ τ₀ : Member → V} {s t : Site V W}

/-- The member starts at zero, or one of the stages has given it a value. -/
def SettledBy (entity : Entity) (route : Route) (done : List Stage) (d : Member) : Prop :=
  d ∈ pending entity → ∃ q ∈ done, Commits entity route q.phase d

/-- The declared run and that of the constructor, once the stages in `done` have run. -/
structure Agree (entity : Entity) (route : Route) (σ₀ τ₀ : Member → V) (done : List Stage)
    (s t : Site V W) : Prop where
  world : s.world = t.world
  left : s.left = t.left
  mem : ∀ d, SettledBy entity route done d → s.mem d = t.mem d
  returned : s.left = true → s.mem = t.mem
  kept : (∀ a ∈ route.body.allActions, ¬ Reenters route a) →
    ∀ d : Member, Untouched entity route d.name → s.mem d = σ₀ d ∧ t.mem d = τ₀ d

/-- Within a stage, after its commit. -/
structure AgreeIn (entity : Entity) (route : Route) (σ₀ τ₀ : Member → V) (done : List Stage)
    (st : Stage) (s t : Site V W) : Prop extends
    Agree entity route σ₀ τ₀ (done ++ [st]) s t where
  before : ∀ d, SettledBy entity route done d → Commits entity route st.phase d →
    s.left = false → s.before d = t.before d

theorem update_of_eq_none {δ : Member → Option V} {d : Member} {σ : Member → V} (h : δ d = none) :
    update δ σ d = σ d := by
  rw [update, h, Option.getD_none]

theorem update_congr {δ : Member → Option V} {σ τ : Member → V} {d : Member}
    (h : δ d = none → σ d = τ d) : update δ σ d = update δ τ d := by
  unfold update
  cases hδ : δ d with
  | none => exact h hδ
  | some v => rfl

theorem SettledBy.append {done : List Stage} {st : Stage} {d : Member}
    (h : SettledBy entity route (done ++ [st]) d) :
    SettledBy entity route done d ∨ (d ∈ pending entity ∧ Commits entity route st.phase d) := by
  by_cases hd : d ∈ pending entity
  · obtain ⟨q, hq, hcommit⟩ := h hd
    rcases List.mem_append.mp hq with hq | hq
    · exact .inl fun _ => ⟨q, hq, hcommit⟩
    · exact .inr ⟨hd, List.mem_singleton.mp hq ▸ hcommit⟩
  · exact .inl fun h => absurd h hd

theorem not_mapping_of_pending {d : Member} (h : d ∈ pending entity) : isMappingType d.ty = false :=
  (mem_defaulted.mp (List.mem_filter.mp h).1).2.2

variable {done later : List Stage} {st : Stage}

theorem mem_of_split (hsplit : stagesOf route.body = done ++ st :: later) :
    st ∈ stagesOf route.body := hsplit ▸ List.mem_append_right _ List.mem_cons_self

/-- The transforms of a stage look at settled members and settle their own. -/
theorem rel_updates (hset : SettledInit program entity route)
    (hsplit : stagesOf route.body = done ++ st :: later) (h : Agree entity route σ₀ τ₀ done s t) :
    Option.Rel (AgreeIn entity route σ₀ τ₀ done st)
      (exec (D.step program true) (genUpdates entity route st.phase) s)
      (exec (D.step program false) (genUpdates entity route st.phase) t) := by
  have hst := mem_of_split hsplit
  cases hleft : s.left with
  | true =>
    have hmem := h.returned hleft
    rw [exec_of_left hleft, exec_of_left (h.left ▸ hleft)]
    refine .some ⟨⟨h.world, h.left, fun d _ => by rw [hmem], h.returned, h.kept⟩, ?_⟩
    intro d _ _ hnot
    rw [hleft] at hnot
    cases hnot
  | false =>
    unfold genUpdates
    split
    · next hnone =>
      have hcommits : ∀ d, ¬ Commits entity route st.phase d := by
        rintro d ⟨t, ht⟩
        rw [List.isEmpty_iff.mp hnone] at ht
        exact absurd ht List.not_mem_nil
      refine .some ⟨⟨h.world, h.left, ?_, h.returned, h.kept⟩, fun d _ hd => absurd hd (hcommits d)⟩
      intro d hd
      rcases hd.append with hd | ⟨-, hd⟩
      · exact h.mem d hd
      · exact absurd hd (hcommits d)
    · rw [exec_cons, exec_cons, step_updates hleft, step_updates (h.left ▸ hleft)]
      have hcomputed : D.computed st.phase s.mem s.world = D.computed st.phase t.mem t.world := by
        rw [h.world]
        apply D.computed_congr
        intro d hread
        apply h.mem d
        intro hd
        by_contra hnone
        push Not at hnone
        exact (hset.stages done st later hsplit d hd hnone).1 hread
      rw [← hcomputed]
      cases hδ : D.computed st.phase s.mem s.world with
      | none => exact .none
      | some δ =>
        refine .some ⟨⟨h.world, h.left, ?_, ?_, ?_⟩, fun d hd _ _ => h.mem d hd⟩
        · intro d hd
          apply update_congr
          intro hδd
          rcases hd.append with hd | ⟨hd, hcommit⟩
          · exact h.mem d hd
          · exact absurd hδd (D.computed_commits st.phase s.mem s.world δ hδ d hcommit
              (not_mapping_of_pending hd))
        · intro hnot
          exact absurd (hleft.symm.trans hnot) Bool.false_ne_true
        · intro hquiet d hd
          have hδd : δ d = none := by
            by_contra hne
            exact hd.not_stageWrites hst (D.computed_frame st.phase s.mem s.world δ hδ d hne)
          obtain ⟨hs, ht⟩ := h.kept hquiet d hd
          exact ⟨(update_of_eq_none hδd).trans hs, (update_of_eq_none hδd).trans ht⟩

/-- An action of a stage looks at settled members. -/
theorem rel_stmt (hset : SettledInit program entity route)
    (hsplit : stagesOf route.body = done ++ st :: later) {a : RouteAction} (ha : a ∈ st.actions)
    (h : AgreeIn entity route σ₀ τ₀ done st s t) :
    Option.Rel (AgreeIn entity route σ₀ τ₀ done st) (D.step program true (.stmt st.phase a) s)
      (D.step program false (.stmt st.phase a) t) := by
  have hst := mem_of_split hsplit
  cases hleft : s.left with
  | true =>
    rw [step_of_left hleft, step_of_left (h.left ▸ hleft)]
    exact .some h
  | false =>
    rw [step_stmt hleft, step_stmt (h.left ▸ hleft)]
    -- a member that nothing has settled yet is one that the action is not to look at
    have hwatch : ∀ d, ¬ SettledBy entity route (done ++ [st]) d →
        ¬ SeesAfter entity route st.phase a d ∧ ¬ MayReturn a := by
      intro d hd
      simp only [SettledBy, Classical.not_imp, not_exists, not_and] at hd
      obtain ⟨hpending, hnone⟩ := hd
      have hstage := hset.stages done st later hsplit d hpending
        (fun q hq => hnone q (List.mem_append_left _ hq))
      exact (hstage.2 a ha).2 (hnone st (List.mem_append_right _ List.mem_cons_self))
    have hact : D.act true st.phase a s.mem s.before s.world =
        D.act false st.phase a t.mem t.before t.world := by
      rw [D.act_scope hset.locals, h.world]
      apply D.act_congr
      · intro d hsees
        apply h.mem d
        by_contra hd
        exact (hwatch d hd).1 hsees
      · intro d hsees
        apply h.before d _ hsees.2.1 hleft
        intro hd
        by_contra hnone
        push Not at hnone
        exact ((hset.stages done st later hsplit d hd hnone).2 a ha).1 hsees
    rw [← hact]
    cases hr : D.act true st.phase a s.mem s.before s.world with
    | none => exact .none
    | some r =>
      obtain ⟨δ, w', left⟩ := r
      refine .some ⟨⟨rfl, rfl, ?_, ?_, ?_⟩, fun d hd hcommit _ => h.before d hd hcommit hleft⟩
      · intro d hd
        exact update_congr fun _ => h.mem d hd
      · intro hreturned
        cases hreturned
        have hmay := D.act_stays true st.phase a s.mem s.before s.world δ w' hr
        funext d
        apply update_congr
        intro _
        apply h.mem d
        by_contra hd
        exact (hwatch d hd).2 hmay
      · intro hquiet d hd
        have hδd : δ d = none := by
          by_contra hne
          rcases D.act_frame true st.phase a s.mem s.before s.world δ w' left hr d hne with hre | hw
          · exact hquiet a (mem_allActions hst ha) hre
          · exact hd.not_actionWrites hst ha hw
        obtain ⟨hs, ht⟩ := h.kept hquiet d hd
        exact ⟨(update_of_eq_none hδd).trans hs, (update_of_eq_none hδd).trans ht⟩

theorem rel_stage (hset : SettledInit program entity route)
    (hsplit : stagesOf route.body = done ++ st :: later) (h : Agree entity route σ₀ τ₀ done s t) :
    Option.Rel (Agree entity route σ₀ τ₀ (done ++ [st]))
      (exec (D.step program true) (plainStage entity route st) s)
      (exec (D.step program false) (plainStage entity route st) t) := by
  rw [plainStage, genStage, exec_append, exec_append]
  apply rel_bind (rel_updates hset hsplit h)
  intro s' t' _ _ hin
  apply rel_mono fun x y hxy => AgreeIn.toAgree hxy
  refine exec_rel ?_ hin
  intro part hpart x y hxy
  obtain ⟨a, ha, rfl⟩ := List.mem_map.mp hpart
  exact rel_stmt hset hsplit ha hxy

/-! ### Conditions of phases -/

/-- The conditions of the stages still to come hold. -/
def Checked (D : Deployment entity route V W) (later : List Stage) (s : Site V W) : Prop :=
  ∀ st ∈ later, ∀ c ∈ st.wheres, D.whereHolds c s.mem s.world = true

theorem exec_wheres {own : Bool} {phase : Option String} {cs : List WhereClause}
    (h : ∀ c ∈ cs, D.whereHolds c s.mem s.world = true) :
    exec (D.step program own) (genWhereChecks phase cs) s = some s := by
  apply exec_of_steps
  intro part hpart
  obtain ⟨c, hc, rfl⟩ := List.mem_map.mp hpart
  cases hleft : s.left with
  | true => exact step_of_left hleft
  | false => rw [step_whereCheck hleft, if_pos (h c hc)]

/-- The conditions of a later phase are unaffected by a stage before it. -/
theorem checked_after (hset : SettledInit program entity route)
    (hsplit : stagesOf route.body = done ++ st :: later) (h : Checked D (st :: later) s)
    {s' : Site V W} (hrun : exec (D.step program true) (plainStage entity route st) s = some s') :
    Checked D later s' := by
  intro q hq c hc
  obtain ⟨mid, rest, hlater⟩ := List.append_of_mem hq
  have hsplit' : stagesOf route.body = (done ++ st :: mid) ++ q :: rest := by
    rw [hsplit, hlater, List.append_assoc, List.cons_append]
  obtain ⟨hactions, hnames⟩ := (hset.phases _ q rest hsplit' c hc).2 st
    (List.mem_append_right _ List.mem_cons_self)
  have hheld := h q (List.mem_cons_of_mem _ hq) c hc
  rw [plainStage, genStage, hactions, List.map_nil, List.append_nil] at hrun
  cases hleft : s.left with
  | true =>
    rw [exec_of_left hleft] at hrun
    cases hrun
    exact hheld
  | false =>
    unfold genUpdates at hrun
    split at hrun
    · cases hrun
      exact hheld
    · rw [exec_cons, step_updates hleft] at hrun
      cases hδ : D.computed st.phase s.mem s.world with
      | none =>
        rw [hδ] at hrun
        cases hrun
      | some δ =>
        rw [hδ] at hrun
        cases hrun
        rw [← hheld]
        apply D.where_congr
        intro d hd
        apply update_of_eq_none
        by_contra hne
        exact hnames d.name (D.computed_frame st.phase s.mem s.world δ hδ d hne) hd

theorem rel_stages (hset : SettledInit program entity route) (later : List Stage) :
    ∀ (done : List Stage), stagesOf route.body = done ++ later → ∀ {s t : Site V W},
      Agree entity route σ₀ τ₀ done s t → Checked D later s →
      Option.Rel (Agree entity route σ₀ τ₀ (done ++ later))
        (exec (D.step program true) (later.flatMap (ownStage entity route)) s)
        (exec (D.step program false) (later.flatMap (plainStage entity route)) t) := by
  induction later with
  | nil =>
    intro done _ s t h _
    rw [List.append_nil]
    exact .some h
  | cons st later ih =>
    intro done hsplit s t h hchecked
    rw [List.flatMap_cons, List.flatMap_cons, ownStage, List.append_assoc, exec_append,
      exec_wheres (hchecked st List.mem_cons_self), Option.bind_some, exec_append, exec_append]
    apply rel_bind (rel_stage hset hsplit h)
    intro s' t' hs' _ hst
    have hnext := ih (done ++ [st]) (by rw [hsplit, List.append_assoc]; rfl) hst
      (checked_after hset hsplit hchecked hs')
    rwa [List.append_assoc, List.singleton_append] at hnext

/-! ### Whole constructions -/

theorem printsDefault_of_own {d : Member} (h : hasOwnDefault d = true) :
    printsDefault program entity d = true := by
  unfold hasOwnDefault at h
  unfold printsDefault
  cases hd : d.defaultValue with
  | none =>
    rw [hd] at h
    cases h
  | some e =>
    rw [hd] at h
    cases e with
    | noneE => cases h
    | emptyCollection => cases h
    | _ => rfl

/-- The defaults leave alone what does not start at a value of its own. -/
theorem assignAll_defaulted {inConstructor : Bool} {d : Member} (hd : d ∉ pending entity)
    (hzero : ∀ d : Member, d.isIdentity = false → τ₀ d = D.zero d) :
    assignAll program D inConstructor (defaulted entity) τ₀ d = τ₀ d := by
  by_cases hmem : d ∈ defaulted entity
  · have hown : hasOwnDefault d = false := by
      by_contra hown
      exact hd (List.mem_filter.mpr ⟨hmem, Bool.eq_true_of_not_eq_false hown⟩)
    exact assignAll_zero hown (hzero d (mem_defaulted.mp hmem).2.1)
  · exact assignAll_of_not_mem fun h => hmem (List.mem_filter.mp h).1

/-- The defaults that a constructor assigns at the end are those it was to start with. -/
theorem close_gap (hset : SettledInit program entity route) (hacc : checkRoutePhases entity route = [])
    (h : Agree entity route (assignAll program D false (defaulted entity) τ₀) τ₀
      (stagesOf route.body) s t) :
    ∃ t', exec (D.step program false) ((defaultedAfter entity route).map .setDefault) t = some t' ∧
      t'.mem = s.mem ∧ t'.world = s.world := by
  cases hleft : t.left with
  | true => exact ⟨t, exec_of_left hleft, (h.returned (h.left.trans hleft)).symm, h.world.symm⟩
  | false =>
    refine ⟨_, exec_defaults _ hleft, ?_, h.world.symm⟩
    funext d
    by_cases hd : d ∈ assignedAfter program entity route
    · obtain ⟨huntouched, hquiet⟩ := hset.kept d hd
      have hkept := h.kept hquiet
      rw [(hkept d huntouched).1]
      exact (assignAll_untouched hset hacc (fun _ hm => hm)
        (fun x hx => (hkept x hx).2.symm) d huntouched).symm
    · change assignAll program D true (defaultedAfter entity route) t.mem d = s.mem d
      rw [assignAll_of_not_mem hd]
      refine (h.mem d fun hpending => ?_).symm
      obtain ⟨hdefaulted, hown⟩ := List.mem_filter.mp hpending
      apply commits_of_transform hacc hdefaulted
      by_contra hany
      exact hd (List.mem_filter.mpr ⟨List.mem_filter.mpr ⟨hdefaulted, by simp [hany]⟩,
        printsDefault_of_own hown⟩)

theorem wheres_of_exec {own : Bool} {phase : Option String} {cs : List WhereClause} {s' : Site V W}
    (hleft : s.left = false) (h : exec (D.step program own) (genWhereChecks phase cs) s = some s') :
    s' = s ∧ ∀ c ∈ cs, D.whereHolds c s.mem s.world = true := by
  induction cs with
  | nil =>
    cases h
    exact ⟨rfl, fun c hc => absurd hc List.not_mem_nil⟩
  | cons c cs ih =>
    rw [genWhereChecks, List.map_cons, exec_cons, step_whereCheck hleft] at h
    split at h
    · next hc =>
      obtain ⟨hs', hall⟩ := ih h
      refine ⟨hs', ?_⟩
      intro x hx
      rcases List.mem_cons.mp hx with rfl | hx
      · exact hc
      · exact hall x hx
    · cases h

/-- What the constructor runs for a settled init route, and what the declarations ask for. -/
theorem run_settled (hset : SettledInit program entity route)
    (hacc : checkRoutePhases entity route = []) (hleft : s.left = false)
    (hzero : ∀ d : Member, d.isIdentity = false → s.mem d = D.zero d) :
    (exec (D.step program false) (initBody entity route) s).map (fun x => (x.mem, x.world)) =
      (exec (D.step program true) ((defaulted entity).map .setDefault ++
        (genRouteImpl entity route).body) s).map fun x => (x.mem, x.world) := by
  let start : Site V W := { s with mem := assignAll program D false (defaulted entity) s.mem }
  have hbody : (genRouteImpl entity route).body = genWhereChecks none route.whereClauses ++
      (stagesOf route.body).flatMap (ownStage entity route) := by
    simp only [genRouteImpl, genFromChecks, hset.sender, List.isEmpty_nil, if_true,
      List.nil_append, emitRouteBody_stages]
  rw [hbody, initBody_stages hacc, exec_append, exec_append, exec_defaults _ hleft, Option.bind_some,
    exec_append]
  change _ = ((exec (D.step program true) (genWhereChecks none route.whereClauses) start).bind
    (exec (D.step program true) _)).map _
  have hsame : ∀ c ∈ route.whereClauses,
      D.whereHolds c start.mem start.world = D.whereHolds c s.mem s.world := by
    intro c hc
    apply D.where_congr
    intro d hd
    exact assignAll_defaulted (fun hpending => hset.entry c hc d hpending hd) hzero
  by_cases hall : ∀ c ∈ route.whereClauses, D.whereHolds c s.mem s.world = true
  · have hstart : ∀ c ∈ route.whereClauses, D.whereHolds c start.mem start.world = true :=
      fun c hc => (hsame c hc).trans (hall c hc)
    rw [exec_wheres hall, exec_wheres hstart, Option.bind_some, Option.bind_some, exec_append]
    have hagree : Agree entity route start.mem s.mem [] start s := by
      refine ⟨rfl, rfl, ?_, fun h => ?_, fun _ _ _ => ⟨rfl, rfl⟩⟩
      · intro d hd
        exact assignAll_defaulted (fun hpending => by
          obtain ⟨q, hq, -⟩ := hd hpending
          exact absurd hq List.not_mem_nil) hzero
      · exact absurd (hleft.symm.trans h) Bool.false_ne_true
    have hchecked : Checked D (stagesOf route.body) start := by
      intro st hst c hc
      obtain ⟨earlier, later, hsplit⟩ := List.append_of_mem hst
      exact hstart c (hset.phases earlier st later hsplit c hc).1
    have hrel := rel_stages hset (stagesOf route.body) [] rfl hagree hchecked
    revert hrel
    generalize exec (D.step program true) ((stagesOf route.body).flatMap (ownStage entity route))
      start = x
    generalize exec (D.step program false) ((stagesOf route.body).flatMap (plainStage entity route))
      s = y
    rintro (hst | _)
    rotate_left
    · rfl
    · obtain ⟨t', ht', hmem, hworld⟩ := close_gap hset hacc hst
      rw [Option.bind_some, ht', Option.map_some, Option.map_some, hmem, hworld]
  · have hfails : ∀ own : Bool, ∀ x : Site V W, x.left = false →
        (∃ c ∈ route.whereClauses, D.whereHolds c x.mem x.world ≠ true) →
        exec (D.step program own) (genWhereChecks none route.whereClauses) x = none := by
      rintro own x hx ⟨c, hc, hne⟩
      by_contra hsome
      obtain ⟨x', hx'⟩ := Option.ne_none_iff_exists'.mp hsome
      exact hne ((wheres_of_exec hx hx').2 c hc)
    push Not at hall
    obtain ⟨c, hc, hne⟩ := hall
    rw [hfails false s hleft ⟨c, hc, hne⟩, hfails true start hleft ⟨c, hc, (hsame c hc).trans_ne hne⟩]
    rfl

/-- The identity members are assigned in the same way by both. -/
theorem exec_identity (program : Program) (D : Deployment entity route V W) (w : W) :
    ∃ s : Site V W, (∀ own, exec (D.step program own) (assignIdentity entity) (D.fresh w) = some s) ∧
      s.left = false ∧ s.world = w ∧ (∀ d : Member, d.isIdentity = false → s.mem d = D.zero d) ∧
      ∀ d, s.mem d = D.zero d ∨ s.mem d = D.identity d := by
  have hrun : ∀ ms : List Member, (∀ m ∈ ms, m.isIdentity = true) → ∀ x : Site V W,
      x.left = false → x.world = w → (∀ d : Member, d.isIdentity = false → x.mem d = D.zero d) →
      (∀ d, x.mem d = D.zero d ∨ x.mem d = D.identity d) → ∃ s : Site V W,
        (∀ own, exec (D.step program own) (ms.map .setIdentity) x = some s) ∧ s.left = false ∧
          s.world = w ∧ (∀ d : Member, d.isIdentity = false → s.mem d = D.zero d) ∧
          ∀ d, s.mem d = D.zero d ∨ s.mem d = D.identity d := by
    intro ms
    induction ms with
    | nil => exact fun _ x hx hw hzero hmem => ⟨x, fun _ => rfl, hx, hw, hzero, hmem⟩
    | cons m ms ih =>
      intro hms x hx hw hzero hmem
      obtain ⟨s, hs, hrest⟩ := ih (fun y hy => hms y (List.mem_cons_of_mem _ hy))
        { x with mem := assign m (D.identity m) x.mem } hx hw
        (by
          intro d hd
          change assign m (D.identity m) x.mem d = D.zero d
          rw [assign, if_neg, hzero d hd]
          rintro rfl
          exact absurd ((hms d List.mem_cons_self).symm.trans hd) Bool.noConfusion)
        (by
          intro d
          change assign m (D.identity m) x.mem d = D.zero d ∨ assign m (D.identity m) x.mem d = _
          rw [assign]
          split
          · next heq => exact .inr (heq ▸ rfl)
          · exact hmem d)
      refine ⟨s, fun own => ?_, hrest⟩
      rw [List.map_cons, exec_cons, step_setIdentity hx, Option.bind_some, hs]
  exact hrun _ (fun m hm => (List.mem_filter.mp hm).2) (D.fresh w) rfl rfl (fun _ _ => rfl)
    fun _ => .inl rfl

/-- A property of the members that every default keeps. -/
theorem assignAll_keeps {inConstructor : Bool} {P : (Member → V) → Prop} {ms : List Member}
    (h : ∀ m ∈ ms, printsDefault program entity m = true → ∀ σ, P σ →
      P (assign m (D.value inConstructor m σ) σ)) :
    ∀ {σ : Member → V}, P σ → P (assignAll program D inConstructor ms σ) := by
  induction ms with
  | nil => exact fun hσ => hσ
  | cons m ms ih =>
    intro σ hσ
    rw [assignAll]
    apply ih fun x hx => h x (List.mem_cons_of_mem _ hx)
    split
    · next hprints => exact h m List.mem_cons_self hprints σ hσ
    · exact hσ

/-- A member ends with the value of its default where that stays the same. -/
theorem assignAll_of_mem {inConstructor : Bool} {P : (Member → V) → Prop} {v : V} {d : Member}
    (hv : ∀ σ, P σ → D.value inConstructor d σ = v) {ms : List Member}
    (h : ∀ m ∈ ms, printsDefault program entity m = true → ∀ σ, P σ →
      P (assign m (D.value inConstructor m σ) σ)) :
    ∀ {σ : Member → V}, P σ → d ∈ ms.filter (printsDefault program entity) →
      assignAll program D inConstructor ms σ d = v := by
  induction ms with
  | nil => exact fun _ hd => absurd hd List.not_mem_nil
  | cons m ms ih =>
    intro σ hσ hd
    have hrest := fun x hx => h x (List.mem_cons_of_mem m hx)
    have hnext : P (if printsDefault program entity m then
        assign m (D.value inConstructor m σ) σ else σ) := by
      split
      · next hprints => exact h m List.mem_cons_self hprints σ hσ
      · exact hσ
    rw [assignAll]
    by_cases htail : d ∈ ms.filter (printsDefault program entity)
    · exact ih hrest hnext htail
    · obtain ⟨hmem, hprints⟩ := List.mem_filter.mp hd
      have heq : d = m := (List.mem_cons.mp hmem).resolve_right fun hms =>
        htail (List.mem_filter.mpr ⟨hms, hprints⟩)
      rw [assignAll_of_not_mem htail, ← heq, if_pos hprints, assign, if_pos rfl, hv σ hσ]

end Runs

end CambrianLang.Construction
