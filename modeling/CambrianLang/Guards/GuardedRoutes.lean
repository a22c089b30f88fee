/-
  **Which emitted functions check all the guards of their route.**

  A `Host` says what the conditions and the other parts of a function do, so a
  function is straight-line code over the host's states.  `Guarded` asks of every part
  that changes the state or leaves the contract that it is reached only if the `from`
  clauses and the route's conditions held where the code of the route starts, and the
  conditions of its phase where that phase starts.
-/
import CambrianLang.Lib.StraightLine
import CambrianLang.Solidity.RouteEmission

namespace CambrianLang.Guards

open Ast Analysis Solidity StraightLine
open Validate

/-! ### Runs of an emitted function -/

/-- What conditions and parts mean.  A state is that of storage, chain, call and locals. -/
structure Host (S : Type) where
  fromHolds : List FromClause → S → Bool
  whereHolds : WhereClause → S → Bool
  perform : Part → S → Option S

variable {S : Type}

def Host.step (H : Host S) : Part → S → Option S
  | .fromCheck cs, s => if H.fromHolds cs s then some s else none
  | .whereCheck _ w, s => if H.whereHolds w s then some s else none
  | p, s => H.perform p s

/-- An event, a return, a call of another route or something outside the contract. -/
def isOutcome : RouteAction → Bool
  | .send .. | .ret _ | .effect .. | .deploy .. | .emit .. | .callRoute .. | .varCall ..
  | .updateCode .. => true
  | .conditional .. | .letA .. | .rescue .. | .throw _ | .throwCustom .. | .forA .. => false

/-- The action can have an outcome, itself or nested in it. -/
def Outcome (a : RouteAction) : Prop := ∃ b, Subaction a b ∧ isOutcome b = true

/-- A part that the guards of the route stand before. -/
def Works : Part → Prop
  | .updates _ => True
  | .stmt _ a => Outcome a
  | _ => False

/-- What must have held for a part after `before` to be reached. -/
structure Admitted (H : Host S) (route : Route) (s : S) (before : List Part) (l : Part) : Prop where
  sender : route.fromClauses ≠ [] → H.fromHolds route.fromClauses s = true
  entry : ∀ w ∈ route.whereClauses, H.whereHolds w s = true
  phase : ∀ p ∈ route.body.phaseBlocks, l.phase = some p.name → ∃ start rest sp,
    before = start ++ rest ∧ (∀ x ∈ start, x.phase ≠ some p.name) ∧
      (∀ x ∈ rest, x.phase = some p.name) ∧ exec H.step start s = some sp ∧
      ∀ w ∈ p.whereClauses, H.whereHolds w sp = true

/-- No part that works is reached unless its guards have admitted it. -/
def Guarded (H : Host S) (route : Route) (body : List Part) (s : S) : Prop :=
  ∀ before l after m, body = before ++ l :: after → Works l → exec H.step before s = some m →
    Admitted H route s before l

/-! ### Which functions are guarded -/

section Conditions

variable (entity : Entity) (route : Route)

/-- No transform, and no action with an outcome. -/
def StageIdle (phase : Option String) (actions : List RouteAction) : Prop :=
  collectTransforms entity route.name phase = [] ∧ ∀ a ∈ actions, ¬ Outcome a

def BodyIdle : Prop :=
  match route.body with
  | .unphased actions => StageIdle entity route none actions
  | .phased phases => ∀ p ∈ phases, StageIdle entity route (some p.name) p.actions
  | .mixed phases actions =>
      (∀ p ∈ phases, StageIdle entity route (some p.name) p.actions) ∧
        StageIdle entity route none actions

/-- The phase has nothing at all to do. -/
def StageEmpty (phase : Option String) (actions : List RouteAction) : Prop :=
  collectTransforms entity route.name phase = [] ∧ actions = []

/-- The route's own conditions stand in for those of every phase. -/
def PhasesCovered : Prop :=
  ∀ earlier p later, route.body.phaseBlocks = earlier ++ p :: later →
    StageIdle entity route (some p.name) p.actions ∨
    ∀ w ∈ p.whereClauses, w ∈ route.whereClauses ∧
      ∀ q ∈ earlier, StageEmpty entity route (some q.name) q.actions

def GuardsKept : Form → Prop
  | .function => True
  | .receiveOrFallback => route.fromClauses = [] ∨ BodyIdle entity route
  | .constructor | .initializeFn =>
      (route.fromClauses = [] ∨ BodyIdle entity route) ∧ PhasesCovered entity route
  | .constructorDeterministic =>
      match route.body with
      | .unphased _ => route.fromClauses = [] ∨ BodyIdle entity route
      | _ => True

end Conditions

/-! ### Parts -/

section Parts

variable {entity : Entity} {route : Route} {phase : Option String} {actions : List RouteAction}
variable {clauses : List WhereClause} {x l : Part}

theorem mem_genUpdates : x ∈ genUpdates entity route phase ↔
    collectTransforms entity route.name phase ≠ [] ∧ x = .updates phase := by
  unfold genUpdates
  split
  · next h => simp [List.isEmpty_iff.mp h]
  · next h =>
    rw [List.isEmpty_iff] at h
    simp [h]

theorem mem_genStage : x ∈ genStage entity route phase actions ↔
    (collectTransforms entity route.name phase ≠ [] ∧ x = .updates phase) ∨
      ∃ a ∈ actions, x = .stmt phase a := by
  rw [genStage, List.mem_append, mem_genUpdates, List.mem_map]
  simp only [eq_comm]

theorem phase_of_mem_genStage (h : x ∈ genStage entity route phase actions) : x.phase = phase := by
  rcases mem_genStage.mp h with ⟨-, rfl⟩ | ⟨a, -, rfl⟩
  · rfl
  · rfl

theorem phase_of_mem_wheres (h : x ∈ genWhereChecks phase clauses) : x.phase = phase := by
  obtain ⟨w, -, rfl⟩ := List.mem_map.mp h
  rfl

theorem not_works_where (h : x ∈ genWhereChecks phase clauses) : ¬ Works x := by
  obtain ⟨w, -, rfl⟩ := List.mem_map.mp h
  exact id

theorem not_works_from (h : x ∈ genFromChecks route) : ¬ Works x := by
  unfold genFromChecks at h
  split at h
  · exact absurd h List.not_mem_nil
  · rw [List.mem_singleton.mp h]
    exact id

theorem not_works_default {ms : List Member} (h : x ∈ ms.map Part.setDefault) : ¬ Works x := by
  obtain ⟨m, -, rfl⟩ := List.mem_map.mp h
  exact id

theorem stageIdle_iff : StageIdle entity route phase actions ↔
    ∀ l ∈ genStage entity route phase actions, ¬ Works l := by
  constructor
  · rintro ⟨htransforms, hactions⟩ l hl
    rcases mem_genStage.mp hl with ⟨hne, -⟩ | ⟨a, ha, rfl⟩
    · exact absurd htransforms hne
    · exact hactions a ha
  · intro h
    constructor
    · by_contra hne
      exact h _ (mem_genStage.mpr (.inl ⟨hne, rfl⟩)) trivial
    · intro a ha
      exact h _ (mem_genStage.mpr (.inr ⟨a, ha, rfl⟩))

theorem genStage_eq_nil_iff :
    genStage entity route phase actions = [] ↔ StageEmpty entity route phase actions := by
  rw [genStage, List.append_eq_nil_iff, List.map_eq_nil_iff, StageEmpty]
  unfold genUpdates
  split
  · next h => simp [List.isEmpty_iff.mp h]
  · next h =>
    rw [List.isEmpty_iff] at h
    simp [h]

theorem bodyIdle_iff : BodyIdle entity route ↔ ∀ l ∈ emitRouteBody entity route, ¬ Works l := by
  have hphase : ∀ p : PhaseBlock, StageIdle entity route (some p.name) p.actions ↔
      ∀ l ∈ emitNamedPhase entity route p, ¬ Works l := by
    intro p
    rw [stageIdle_iff]
    constructor
    · intro h l hl
      rcases List.mem_append.mp hl with hl | hl
      · exact not_works_where hl
      · exact h l hl
    · intro h l hl
      exact h l (List.mem_append_right _ hl)
  unfold BodyIdle emitRouteBody
  cases route.body with
  | unphased as => exact stageIdle_iff
  | phased ps =>
    simp only [hphase, List.mem_flatMap, forall_exists_index, and_imp]
    exact ⟨fun h l p hp hl => h p hp l hl, fun h p hp l hl => h l p hp hl⟩
  | mixed ps as =>
    simp only [hphase, stageIdle_iff, List.mem_append, List.mem_flatMap, or_imp, forall_and,
      forall_exists_index, and_imp]
    exact and_congr_left fun _ => ⟨fun h l p hp hl => h p hp l hl, fun h p hp l hl => h l p hp hl⟩

/-! ### Checks in front of the code -/

theorem isCheck_where (H : Host S) (h : x ∈ genWhereChecks phase clauses) : IsCheck H.step x := by
  obtain ⟨w, -, rfl⟩ := List.mem_map.mp h
  intro s m hstep
  rw [Host.step] at hstep
  split at hstep
  · exact (Option.some.inj hstep).symm
  · cases hstep

theorem isCheck_from (H : Host S) (h : x ∈ genFromChecks route) : IsCheck H.step x := by
  unfold genFromChecks at h
  split at h
  · exact absurd h List.not_mem_nil
  · rw [List.mem_singleton.mp h]
    intro s m hstep
    rw [Host.step] at hstep
    split at hstep
    · exact (Option.some.inj hstep).symm
    · cases hstep

theorem where_of_step {H : Host S} {w : WhereClause} {s : S}
    (h : H.step (.whereCheck phase w) s = some s) : H.whereHolds w s = true := by
  rw [Host.step] at h
  split at h
  · assumption
  · cases h

theorem wheres_of_exec {H : Host S} {s m : S}
    (h : exec H.step (genWhereChecks phase clauses) s = some m) :
    m = s ∧ ∀ w ∈ clauses, H.whereHolds w s = true := by
  obtain ⟨hm, hall⟩ := exec_checks (fun l hl => isCheck_where H hl) h
  exact ⟨hm, fun w hw => where_of_step (hall _ (List.mem_map_of_mem hw))⟩

theorem from_of_exec {H : Host S} {s m : S} (h : exec H.step (genFromChecks route) s = some m) :
    m = s ∧ (route.fromClauses ≠ [] → H.fromHolds route.fromClauses s = true) := by
  obtain ⟨hm, hall⟩ := exec_checks (fun l hl => isCheck_from H hl) h
  refine ⟨hm, ?_⟩
  intro hne
  have hmem : Part.fromCheck route.fromClauses ∈ genFromChecks route := by
    rw [genFromChecks, if_neg (by rwa [List.isEmpty_iff])]
    exact List.mem_singleton.mpr rfl
  have hstep := hall _ hmem
  rw [Host.step] at hstep
  split at hstep
  · assumption
  · cases hstep

end Parts

/-! ### Where a phase starts -/

section Phases

variable {emit : PhaseBlock → List Part} {p : PhaseBlock}

/-- What earlier phases emit does not belong to a later one. -/
theorem phase_ne_of_earlier (hemit : ∀ q, ∀ x ∈ emit q, x.phase = some q.name)
    {earlier later : List PhaseBlock} (hnodup : ((earlier ++ p :: later).map (·.name)).Nodup)
    {x : Part} (hx : x ∈ earlier.flatMap emit) : x.phase ≠ some p.name := by
  obtain ⟨q, hq, hxq⟩ := List.mem_flatMap.mp hx
  rw [hemit q x hxq]
  intro hname
  rw [List.map_append, List.map_cons, List.nodup_append] at hnodup
  exact hnodup.2.2 q.name (List.mem_map_of_mem hq) p.name List.mem_cons_self (Option.some.inj hname)

/-- A part of a phase lies in what that phase emits. -/
theorem locate_phase (hemit : ∀ q, ∀ x ∈ emit q, x.phase = some q.name) {tail : List Part}
    (htail : ∀ x ∈ tail, x.phase = none) {l : Part} (hl : l.phase = some p.name)
    {after : List Part} (phases : List PhaseBlock) : ∀ mid : List Part,
      (phases.map (·.name)).Nodup → p ∈ phases →
      phases.flatMap emit ++ tail = mid ++ l :: after →
      ∃ earlier later rest rest', phases = earlier ++ p :: later ∧
        mid = earlier.flatMap emit ++ rest ∧ emit p = rest ++ l :: rest' := by
  induction phases with
  | nil => exact fun mid _ hp => absurd hp List.not_mem_nil
  | cons q qs ih =>
    intro mid hnodup hp hcode
    rw [List.map_cons, List.nodup_cons] at hnodup
    rw [List.flatMap_cons, List.append_assoc] at hcode
    by_cases hname : q.name = p.name
    · have hqp : p = q := by
        rcases List.mem_cons.mp hp with hp | hp
        · exact hp
        · exact absurd (hname ▸ List.mem_map_of_mem hp) hnodup.1
      subst hqp
      have hbehind : l ∉ qs.flatMap emit ++ tail := by
        intro hmem
        rcases List.mem_append.mp hmem with hmem | hmem
        · obtain ⟨r, hr, hlr⟩ := List.mem_flatMap.mp hmem
          have hrp : r.name = p.name := Option.some.inj ((hemit r l hlr).symm.trans hl)
          exact hnodup.1 (hrp ▸ List.mem_map_of_mem hr)
        · rw [htail l hmem] at hl
          cases hl
      obtain ⟨rest', hemitp, -⟩ := split_before hcode hbehind
      exact ⟨[], qs, mid, rest', rfl, rfl, hemitp⟩
    · have hfront : l ∉ emit q := by
        intro hmem
        exact hname (Option.some.inj ((hemit q l hmem).symm.trans hl))
      have hpqs : p ∈ qs := by
        rcases List.mem_cons.mp hp with rfl | hp
        · exact absurd rfl hname
        · exact hp
      obtain ⟨mid', hmid, hrest⟩ := split_behind hcode hfront
      obtain ⟨earlier, later, rest, rest', hqs, hmid', hemitp⟩ := ih mid' hnodup.2 hpqs hrest
      exact ⟨q :: earlier, later, rest, rest', by rw [hqs, List.cons_append],
        by rw [hmid, hmid', List.flatMap_cons, List.append_assoc], hemitp⟩

variable {entity : Entity} {route : Route}

theorem phase_of_mem_emitNamedPhase {x : Part} (h : x ∈ emitNamedPhase entity route p) :
    x.phase = some p.name := by
  rcases List.mem_append.mp h with h | h
  · exact phase_of_mem_wheres h
  · exact phase_of_mem_genStage h

/-- What follows the phases of a regular body. -/
def trailing (entity : Entity) (route : Route) : List Part :=
  match route.body with
  | .unphased actions | .mixed _ actions => genStage entity route none actions
  | .phased _ => []

theorem emitRouteBody_eq : emitRouteBody entity route =
    route.body.phaseBlocks.flatMap (emitNamedPhase entity route) ++ trailing entity route := by
  unfold emitRouteBody trailing
  cases route.body with
  | unphased as => rfl
  | phased ps => exact (List.append_nil _).symm
  | mixed ps as => rfl

theorem phase_of_mem_trailing {x : Part} (h : x ∈ trailing entity route) : x.phase = none := by
  unfold trailing at h
  split at h
  · exact phase_of_mem_genStage h
  · exact phase_of_mem_genStage h
  · exact absurd h List.not_mem_nil

end Phases

/-! ### Regular functions -/

section Functions

variable {entity : Entity} {route : Route} {H : Host S} {s : S}

/-- A regular body checks the conditions of a phase where the phase starts. -/
theorem phase_admitted (hacc : checkRoutePhases entity route = []) {gs : List Part}
    (hgs : ∀ x ∈ gs, x.phase = none) (hpass : exec H.step gs s = some s) {mid after : List Part}
    {l : Part} {m : S} (hcode : emitRouteBody entity route = mid ++ l :: after) (hl : Works l)
    (hexec : exec H.step mid s = some m) :
    ∀ p ∈ route.body.phaseBlocks, l.phase = some p.name → ∃ start rest sp,
      gs ++ mid = start ++ rest ∧ (∀ x ∈ start, x.phase ≠ some p.name) ∧
        (∀ x ∈ rest, x.phase = some p.name) ∧ exec H.step start s = some sp ∧
        ∀ w ∈ p.whereClauses, H.whereHolds w sp = true := by
  intro p hp htag
  rw [emitRouteBody_eq] at hcode
  have hnodup := phases_nodup hacc
  have hemit : ∀ q, ∀ x ∈ emitNamedPhase entity route q, x.phase = some q.name :=
    fun q x hx => phase_of_mem_emitNamedPhase hx
  obtain ⟨earlier, later, rest, rest', hphases, hmid, hphase⟩ := locate_phase hemit
    (fun x hx => phase_of_mem_trailing hx) htag _ mid hnodup hp hcode
  rw [hphases] at hnodup
  rw [emitNamedPhase] at hphase
  obtain ⟨done, hrest, -⟩ := split_behind hphase (fun hmem => not_works_where hmem hl)
  subst hmid
  obtain ⟨sp, hsp, htail⟩ := (exec_append_eq_some _).mp hexec
  rw [hrest] at htail
  obtain ⟨sq, hsq, -⟩ := (exec_append_eq_some _).mp htail
  refine ⟨gs ++ earlier.flatMap (emitNamedPhase entity route), rest, sp,
    (List.append_assoc _ _ _).symm, ?_, ?_, ?_, (wheres_of_exec hsq).2⟩
  · intro x hx
    rcases List.mem_append.mp hx with hx | hx
    · rw [hgs x hx]
      exact fun h => nomatch h
    · exact phase_ne_of_earlier hemit hnodup hx
  · intro x hx
    apply hemit p x
    rw [emitNamedPhase, hphase]
    exact List.mem_append_left _ hx
  · exact (exec_append_eq_some _).mpr ⟨s, hpass, hsp⟩

theorem phase_of_mem_genFromChecks {x : Part} (h : x ∈ genFromChecks route) : x.phase = none := by
  unfold genFromChecks at h
  split at h
  · exact absurd h List.not_mem_nil
  · rw [List.mem_singleton.mp h]
    rfl

theorem function_guarded (hacc : checkRoutePhases entity route = []) :
    Guarded H route (genRouteImpl entity route).body s := by
  intro before l after m hbody hl hexec
  let gs := genFromChecks route ++ genWhereChecks none route.whereClauses
  have hfront : l ∉ gs := by
    intro hmem
    rcases List.mem_append.mp hmem with hmem | hmem
    · exact not_works_from hmem hl
    · exact not_works_where hmem hl
  obtain ⟨mid, hbefore, hmid⟩ := split_behind hbody hfront
  subst hbefore
  obtain ⟨s', hgs, hrun⟩ := (exec_append_eq_some _).mp hexec
  obtain ⟨s'', hfrom, hwhere⟩ := (exec_append_eq_some _).mp hgs
  obtain ⟨hs'', hsender⟩ := from_of_exec hfrom
  subst hs''
  obtain ⟨hs', hentry⟩ := wheres_of_exec hwhere
  subst hs'
  refine ⟨hsender, hentry, phase_admitted hacc ?_ hgs hmid hl hrun⟩
  intro x hx
  rcases List.mem_append.mp hx with hx | hx
  · exact phase_of_mem_genFromChecks hx
  · exact phase_of_mem_wheres hx

theorem receive_guarded (hacc : checkRoutePhases entity route = [])
    (hkept : route.fromClauses = [] ∨ BodyIdle entity route) :
    Guarded H route (genReceiveOrFallback entity route).body s := by
  intro before l after m hbody hl hexec
  obtain ⟨mid, hbefore, hmid⟩ := split_behind hbody fun hmem => not_works_where hmem hl
  subst hbefore
  obtain ⟨s', hwhere, hrun⟩ := (exec_append_eq_some _).mp hexec
  obtain ⟨hs', hentry⟩ := wheres_of_exec hwhere
  subst hs'
  refine ⟨?_, hentry, phase_admitted hacc (fun x hx => phase_of_mem_wheres hx) hwhere hmid hl hrun⟩
  intro hne
  have hidle := hkept.resolve_left hne
  exact absurd hl (bodyIdle_iff.mp hidle l (hmid ▸ List.mem_append_right _ List.mem_cons_self))

end Functions

/-! ### Construction -/

section Construction

variable {entity : Entity} {route : Route}

/-- A phase of an init route, as every constructor emits it. -/
def initStage (entity : Entity) (route : Route) (p : PhaseBlock) : List Part :=
  genStage entity route (some p.name) p.actions

/-- What a constructor or `initialize` emits for its init route. -/
def initBody (entity : Entity) (route : Route) : List Part :=
  genWhereChecks none route.whereClauses ++ initUpdates entity route ++ initPhases entity route ++
    (defaultedAfter entity route).map .setDefault

theorem initStages_eq (hacc : checkRoutePhases entity route = []) :
    initUpdates entity route ++ initPhases entity route =
      route.body.phaseBlocks.flatMap (initStage entity route) ++ trailing entity route := by
  unfold initUpdates initPhases trailing
  cases hbody : route.body with
  | unphased as => exact List.append_nil _
  | phased ps =>
    have hnone := no_unphased_transforms hacc hbody
    simp only [genUpdates, hnone, List.isEmpty_nil, if_true, List.nil_append, List.append_nil]
    rfl
  | mixed ps as => exact absurd hbody (body_not_mixed hacc)

theorem initBody_eq (hacc : checkRoutePhases entity route = []) :
    initBody entity route = genWhereChecks none route.whereClauses ++
      (route.body.phaseBlocks.flatMap (initStage entity route) ++
        (trailing entity route ++ (defaultedAfter entity route).map .setDefault)) := by
  rw [initBody, List.append_assoc (genWhereChecks _ _), initStages_eq hacc, List.append_assoc,
    List.append_assoc]

theorem works_stages_iff {l : Part} (hl : Works l) :
    l ∈ route.body.phaseBlocks.flatMap (initStage entity route) ++ trailing entity route ↔
      l ∈ emitRouteBody entity route := by
  rw [emitRouteBody_eq, List.mem_append, List.mem_append, List.mem_flatMap, List.mem_flatMap]
  apply or_congr_left
  constructor
  · rintro ⟨p, hp, hmem⟩
    exact ⟨p, hp, List.mem_append_right _ hmem⟩
  · rintro ⟨p, hp, hmem⟩
    rcases List.mem_append.mp hmem with hmem | hmem
    · exact absurd hl (not_works_where hmem)
    · exact ⟨p, hp, hmem⟩

theorem phase_of_mem_initStage (q : PhaseBlock) (x : Part) (h : x ∈ initStage entity route q) :
    x.phase = some q.name := phase_of_mem_genStage h

theorem phase_of_mem_initTail {x : Part}
    (h : x ∈ trailing entity route ++ (defaultedAfter entity route).map .setDefault) :
    x.phase = none := by
  rcases List.mem_append.mp h with h | h
  · exact phase_of_mem_trailing h
  · obtain ⟨m, -, rfl⟩ := List.mem_map.mp h
    rfl

theorem works_initBody {l : Part} (hacc : checkRoutePhases entity route = []) (hl : Works l)
    (h : l ∈ initBody entity route) : l ∈ emitRouteBody entity route := by
  rw [initBody_eq hacc] at h
  rcases List.mem_append.mp h with h | h
  · exact absurd hl (not_works_where h)
  · rw [← List.append_assoc] at h
    rcases List.mem_append.mp h with h | h
    · exact (works_stages_iff hl).mp h
    · exact absurd hl (not_works_default h)

theorem init_guarded {H : Host S} {s : S} (hacc : checkRoutePhases entity route = [])
    (hkept : route.fromClauses = [] ∨ BodyIdle entity route) (hcovered : PhasesCovered entity route) :
    Guarded H route (initBody entity route) s := by
  intro before l after m hbody hl hexec
  have hmem := works_initBody hacc hl (hbody ▸ List.mem_append_right _ List.mem_cons_self)
  rw [initBody_eq hacc] at hbody
  obtain ⟨mid, hbefore, hmid⟩ := split_behind hbody fun hmem => not_works_where hmem hl
  subst hbefore
  obtain ⟨s', hwhere, hrun⟩ := (exec_append_eq_some _).mp hexec
  obtain ⟨hs', hentry⟩ := wheres_of_exec hwhere
  subst hs'
  refine ⟨?_, hentry, ?_⟩
  · intro hne
    exact absurd hl (bodyIdle_iff.mp (hkept.resolve_left hne) l hmem)
  · intro p hp htag
    obtain ⟨earlier, later, rest, rest', hphases, hmid', hstage⟩ := locate_phase
      phase_of_mem_initStage (fun x hx => phase_of_mem_initTail hx) htag _ mid (phases_nodup hacc)
      hp hmid
    have hbusy : ¬ StageIdle entity route (some p.name) p.actions := by
      intro hidle
      exact stageIdle_iff.mp hidle l
        (by rw [← initStage, hstage]; exact List.mem_append_right _ List.mem_cons_self) hl
    have hcover := (hcovered earlier p later hphases).resolve_left hbusy
    -- either there is nothing to show, or nothing has run before the phase
    by_cases hnone : p.whereClauses = []
    · obtain ⟨sp, hsp, -⟩ := (exec_append_eq_some _).mp (hmid' ▸ hrun)
      refine ⟨_, rest, sp, ?_, ?_, ?_, (exec_append_eq_some _).mpr ⟨s', hwhere, hsp⟩, ?_⟩
      · rw [hmid', List.append_assoc]
      · intro x hx
        rcases List.mem_append.mp hx with hx | hx
        · rw [phase_of_mem_wheres hx]
          exact fun h => nomatch h
        · exact phase_ne_of_earlier phase_of_mem_initStage (hphases ▸ phases_nodup hacc) hx
      · intro x hx
        exact phase_of_mem_initStage p x (hstage ▸ List.mem_append_left _ hx)
      · rw [hnone]
        exact fun w hw => absurd hw List.not_mem_nil
    · obtain ⟨w₀, hw₀⟩ := List.exists_mem_of_ne_nil _ hnone
      have hempty : earlier.flatMap (initStage entity route) = [] :=
        List.flatMap_eq_nil_iff.mpr fun q hq => genStage_eq_nil_iff.mpr ((hcover w₀ hw₀).2 q hq)
      rw [hempty, List.nil_append] at hmid'
      subst hmid'
      refine ⟨_, mid, s', rfl, ?_, ?_, hwhere, fun w hw => hentry w (hcover w hw).1⟩
      · intro x hx
        rw [phase_of_mem_wheres hx]
        exact fun h => nomatch h
      · intro x hx
        exact phase_of_mem_initStage p x (hstage ▸ List.mem_append_left _ hx)

end Construction

/-! ### What a dropped guard lets through -/

section Dropped

variable {entity : Entity} {route : Route}

/-- The guards of every part hold in every run from every state, whatever they mean. -/
def AlwaysGuarded (route : Route) (body : List Part) : Prop :=
  ∀ (S : Type) (H : Host S) (s : S), Guarded H route body s

def Unsent (body : List Part) : Prop := ∀ x ∈ body, ∀ cs, x ≠ .fromCheck cs

theorem unsent_wheres {phase : Option String} {clauses : List WhereClause} :
    Unsent (genWhereChecks phase clauses) := by
  intro x hx cs
  obtain ⟨w, -, rfl⟩ := List.mem_map.mp hx
  exact fun h => nomatch h

theorem unsent_stage {phase : Option String} {actions : List RouteAction} :
    Unsent (genStage entity route phase actions) := by
  intro x hx cs
  rcases mem_genStage.mp hx with ⟨-, rfl⟩ | ⟨a, -, rfl⟩
  · exact fun h => nomatch h
  · exact fun h => nomatch h

theorem Unsent.append {xs ys : List Part} (hx : Unsent xs) (hy : Unsent ys) : Unsent (xs ++ ys) :=
  fun x h => (List.mem_append.mp h).elim (hx x) (hy x)

theorem Unsent.flatMap {ps : List PhaseBlock} {f : PhaseBlock → List Part}
    (h : ∀ p, Unsent (f p)) : Unsent (ps.flatMap f) := by
  intro x hx
  obtain ⟨p, -, hxp⟩ := List.mem_flatMap.mp hx
  exact h p x hxp

theorem unsent_trailing : Unsent (trailing entity route) := by
  unfold trailing
  split
  · exact unsent_stage
  · exact unsent_stage
  · exact fun x hx => absurd hx List.not_mem_nil

theorem unsent_emitRouteBody : Unsent (emitRouteBody entity route) := by
  rw [emitRouteBody_eq]
  exact (Unsent.flatMap fun p => unsent_wheres.append unsent_stage).append unsent_trailing

theorem unsent_initBody (hacc : checkRoutePhases entity route = []) :
    Unsent (initBody entity route) := by
  rw [initBody_eq hacc]
  refine unsent_wheres.append ((Unsent.flatMap fun p => unsent_stage).append
    (unsent_trailing.append ?_))
  intro x hx cs
  obtain ⟨m, -, rfl⟩ := List.mem_map.mp hx
  exact fun h => nomatch h

/-- A host on which everything but a sender check succeeds. -/
def strangerHost : Host Unit := ⟨fun _ _ => false, fun _ _ => true, fun _ s => some s⟩

theorem strangerHost_step {x : Part} (h : ∀ cs, x ≠ .fromCheck cs) :
    strangerHost.step x () = some () := by
  cases x with
  | fromCheck cs => exact absurd rfl (h cs)
  | _ => rfl

/-- Code without a sender check that works lets every sender in. -/
theorem no_clauses_of_unsent {body : List Part} (hunsent : Unsent body) {l : Part} (hmem : l ∈ body)
    (hl : Works l) (hguard : AlwaysGuarded route body) : route.fromClauses = [] := by
  obtain ⟨before, after, hbody⟩ := List.append_of_mem hmem
  have hrun : exec strangerHost.step before () = some () := by
    apply exec_of_steps
    intro x hx
    exact strangerHost_step (hunsent x (hbody ▸ List.mem_append_left _ hx))
  by_contra hne
  exact Bool.false_ne_true ((hguard Unit strangerHost () before l after () hbody hl hrun).sender hne)

theorem receive_needs (hguard : AlwaysGuarded route (genReceiveOrFallback entity route).body) :
    route.fromClauses = [] ∨ BodyIdle entity route := by
  rw [or_iff_not_imp_right, bodyIdle_iff]
  intro hbusy
  push Not at hbusy
  obtain ⟨l, hmem, hl⟩ := hbusy
  exact no_clauses_of_unsent (unsent_wheres.append unsent_emitRouteBody)
    (List.mem_append_right _ hmem) hl hguard

theorem mem_initBody_of_works (hacc : checkRoutePhases entity route = []) {l : Part} (hl : Works l)
    (h : l ∈ emitRouteBody entity route) : l ∈ initBody entity route := by
  rw [initBody_eq hacc, ← List.append_assoc (List.flatMap _ _)]
  exact List.mem_append_right _ (List.mem_append_left _ ((works_stages_iff hl).mpr h))

theorem init_needs_sender (hacc : checkRoutePhases entity route = [])
    (hguard : AlwaysGuarded route (initBody entity route)) :
    route.fromClauses = [] ∨ BodyIdle entity route := by
  rw [or_iff_not_imp_right, bodyIdle_iff]
  intro hbusy
  push Not at hbusy
  obtain ⟨l, hmem, hl⟩ := hbusy
  exact no_clauses_of_unsent (unsent_initBody hacc) (mem_initBody_of_works hacc hl hmem) hl hguard

/-- A host on which everything but one condition succeeds. -/
noncomputable def failingHost (w : WhereClause) : Host Unit :=
  open Classical in ⟨fun _ _ => true, fun w' _ => decide (w' ≠ w), fun _ s => some s⟩

theorem failingHost_step {w : WhereClause} {x : Part} (h : ∀ phase, x ≠ .whereCheck phase w) :
    (failingHost w).step x () = some () := by
  cases x with
  | whereCheck phase w' =>
    have hne : w' ≠ w := fun heq => h phase (by rw [heq])
    simp [Host.step, failingHost, hne]
  | _ => simp [Host.step, failingHost]

/-- A host whose conditions hold until the first part that is no check. -/
def startHost : Host Bool := ⟨fun _ _ => true, fun _ s => !s, fun _ _ => some true⟩

/-- A commit or an action. -/
def Acts : Part → Prop
  | .updates _ | .stmt _ _ => True
  | _ => False

theorem acts_of_mem_genStage {x : Part} {phase : Option String} {actions : List RouteAction}
    (h : x ∈ genStage entity route phase actions) : Acts x := by
  rcases mem_genStage.mp h with ⟨-, rfl⟩ | ⟨a, -, rfl⟩
  · trivial
  · trivial

theorem startHost_done {code : List Part} : ∀ {s m : Bool}, exec startHost.step code s = some m →
    (s = true ∨ ∃ x ∈ code, Acts x) → m = true := by
  induction code with
  | nil =>
    intro s m h hs
    cases h
    exact hs.elim id fun ⟨x, hx, _⟩ => absurd hx List.not_mem_nil
  | cons x code ih =>
    intro s m h hs
    rw [exec_cons, Option.bind_eq_some_iff] at h
    obtain ⟨k, hk, hrun⟩ := h
    apply ih hrun
    rcases hs with rfl | ⟨y, hy, hwork⟩
    · left
      cases x with
      | fromCheck cs => exact (Option.some.inj hk).symm
      | whereCheck phase w => cases hk
      | _ => exact (Option.some.inj hk).symm
    · rcases List.mem_cons.mp hy with rfl | hy
      · left
        cases y with
        | updates phase => exact (Option.some.inj hk).symm
        | stmt phase a => exact (Option.some.inj hk).symm
        | _ => exact absurd hwork id
      · exact .inr ⟨y, hy, hwork⟩

theorem startHost_code {code : List Part} (h : ∀ x ∈ code, Acts x) :
    ∀ s : Bool, ∃ m, exec startHost.step code s = some m := by
  induction code with
  | nil => exact fun s => ⟨s, rfl⟩
  | cons x code ih =>
    intro s
    have hx : startHost.step x s = some true := by
      cases x with
      | updates phase => rfl
      | stmt phase a => rfl
      | _ => exact absurd (h _ List.mem_cons_self) id
    obtain ⟨m, hm⟩ := ih (fun y hy => h y (List.mem_cons_of_mem _ hy)) true
    exact ⟨m, by rw [exec_cons, hx, Option.bind_some, hm]⟩

/-- A phase of an init route that works has its conditions among the route's, and nothing
    runs before it, unless it has none. -/
theorem init_needs_phases (hacc : checkRoutePhases entity route = [])
    (hguard : AlwaysGuarded route (initBody entity route)) : PhasesCovered entity route := by
  intro earlier p later hphases
  rw [or_iff_not_imp_left, stageIdle_iff]
  intro hbusy w hw
  push Not at hbusy
  obtain ⟨l, hmem, hl⟩ := hbusy
  obtain ⟨done, after, hstage⟩ := List.append_of_mem hmem
  have hp : p ∈ route.body.phaseBlocks := hphases ▸ List.mem_append_right _ List.mem_cons_self
  have htag : l.phase = some p.name := phase_of_mem_genStage hmem
  let before := genWhereChecks none route.whereClauses ++
    (earlier.flatMap (initStage entity route) ++ done)
  obtain ⟨rest, hbody⟩ : ∃ rest, initBody entity route = before ++ l :: rest := by
    refine ⟨after ++ (later.flatMap (initStage entity route) ++ (trailing entity route ++
      (defaultedAfter entity route).map .setDefault)), ?_⟩
    rw [initBody_eq hacc, hphases, List.flatMap_append, List.flatMap_cons]
    simp only [before, initStage, hstage, List.append_assoc, List.cons_append]
  have hactsE : ∀ x ∈ earlier.flatMap (initStage entity route), Acts x := by
    intro x hx
    obtain ⟨q, -, hxq⟩ := List.mem_flatMap.mp hx
    exact acts_of_mem_genStage hxq
  have hactsD : ∀ x ∈ done, Acts x := by
    intro x hx
    have hxp : x ∈ genStage entity route (some p.name) p.actions :=
      hstage ▸ List.mem_append_left _ hx
    exact acts_of_mem_genStage hxp
  have hacts : ∀ x ∈ earlier.flatMap (initStage entity route) ++ done, Acts x := fun x hx =>
    (List.mem_append.mp hx).elim (hactsE x) (hactsD x)
  constructor
  · by_contra hout
    have hrun : exec (failingHost w).step before () = some () := by
      apply exec_of_steps
      intro x hx
      apply failingHost_step
      rintro phase rfl
      rcases List.mem_append.mp hx with hx | hx
      · obtain ⟨w', hw', heq⟩ := List.mem_map.mp hx
        cases heq
        exact hout hw'
      · exact hacts _ hx
    obtain ⟨_, _, sp, _, _, _, _, hall⟩ :=
      (hguard Unit (failingHost w) () before l rest () hbody hl hrun).phase p hp htag
    have hfail := hall w hw
    simp [failingHost] at hfail
  · intro q hq
    by_contra hne
    obtain ⟨x, hx⟩ := List.exists_mem_of_ne_nil _ (mt genStage_eq_nil_iff.mp hne)
    have hxE : x ∈ earlier.flatMap (initStage entity route) := List.mem_flatMap.mpr ⟨q, hq, hx⟩
    obtain ⟨m, hm⟩ := startHost_code hacts false
    have hwheres : exec startHost.step (genWhereChecks none route.whereClauses) false =
        some false := by
      apply exec_of_steps
      intro y hy
      obtain ⟨w', -, rfl⟩ := List.mem_map.mp hy
      rfl
    have hrun : exec startHost.step before false = some m :=
      (exec_append_eq_some _).mpr ⟨false, hwheres, hm⟩
    obtain ⟨start, tail, sp, hsplit, -, htail, hsp, hall⟩ :=
      (hguard Bool startHost false before l rest m hbody hl hrun).phase p hp htag
    -- the part of the earlier phase lies before the start of this one
    have hxstart : x ∈ start := by
      have hxb : x ∈ before := List.mem_append_right _ (List.mem_append_left _ hxE)
      rw [hsplit] at hxb
      rcases List.mem_append.mp hxb with hxs | hxt
      · exact hxs
      · exact absurd (htail x hxt) (phase_ne_of_earlier phase_of_mem_initStage
          (hphases ▸ phases_nodup hacc) hxE)
    have hdone := startHost_done hsp (.inr ⟨x, hxstart, hactsE x hxE⟩)
    subst hdone
    exact Bool.false_ne_true (hall w hw)

end Dropped

/-! ### Every form of every route -/

section Forms

variable {entity : Entity} {route : Route}

theorem initBody_guarded_iff (hacc : checkRoutePhases entity route = []) :
    AlwaysGuarded route (initBody entity route) ↔
      (route.fromClauses = [] ∨ BodyIdle entity route) ∧ PhasesCovered entity route := by
  constructor
  · intro h
    exact ⟨init_needs_sender hacc h, init_needs_phases hacc h⟩
  · rintro ⟨hsender, hphases⟩ S H s
    exact init_guarded hacc hsender hphases

theorem phasesCovered_unphased {actions : List RouteAction} (hbody : route.body = .unphased actions) :
    PhasesCovered entity route := by
  intro earlier p later h
  rw [hbody] at h
  exact absurd h.symm (List.append_ne_nil_of_right_ne_nil _ (List.cons_ne_nil _ _))

theorem constructorDeterministic_guarded_iff (hacc : checkRoutePhases entity route = [])
    (hinit : findInitRoute entity = some route) (hparams : route.params.isEmpty = true) :
    AlwaysGuarded route (genConstructorDeterministic entity).body ↔
      GuardsKept entity route .constructorDeterministic := by
  have hshape : (genConstructorDeterministic entity).body =
      genWhereChecks none route.whereClauses ++ initUpdates entity route ++
        (defaultedAfter entity route).map .setDefault := by
    simp only [genConstructorDeterministic, hinit, hparams, if_true]
  rw [hshape]
  cases hbody : route.body with
  | unphased as =>
    have hinitBody : genWhereChecks none route.whereClauses ++ initUpdates entity route ++
        (defaultedAfter entity route).map .setDefault = initBody entity route := by
      rw [initBody]
      simp only [initPhases, hbody, List.append_nil]
    rw [hinitBody, initBody_guarded_iff hacc, GuardsKept, hbody]
    exact and_iff_left (phasesCovered_unphased hbody)
  | mixed ps as => exact absurd hbody (body_not_mixed hacc)
  | phased ps =>
    have hnone : initUpdates entity route = [] := by
      simp only [initUpdates, hbody, genUpdates, no_unphased_transforms hacc hbody,
        List.isEmpty_nil, if_true]
    simp only [GuardsKept, hbody, iff_true, hnone, List.append_nil]
    intro S H s before l after m hcode hl
    have hmem : l ∈ genWhereChecks none route.whereClauses ++
        (defaultedAfter entity route).map .setDefault :=
      hcode ▸ List.mem_append_right _ List.mem_cons_self
    rcases List.mem_append.mp hmem with hmem | hmem
    · exact absurd hl (not_works_where hmem)
    · exact absurd hl (not_works_default hmem)

theorem mem_routes_of_mem_contractForms {deterministic : Bool} {form : Form}
    (h : (form, route) ∈ contractForms deterministic entity) : route ∈ entity.routes := by
  rcases List.mem_append.mp h with h | h
  · unfold initForms at h
    split at h
    · cases hfind : findInitRoute entity with
      | none =>
        rw [hfind] at h
        exact absurd h List.not_mem_nil
      | some r =>
        rw [hfind] at h
        cases List.mem_singleton.mp h
        rcases Option.or_eq_some_iff.mp hfind with hr | ⟨-, hr⟩
        · exact List.mem_of_find?_eq_some hr
        · exact List.mem_of_find?_eq_some hr
    · obtain ⟨r, hr, heq⟩ := List.mem_map.mp h
      cases heq
      exact List.mem_of_find?_eq_some (Option.mem_toList.mp hr)
  · obtain ⟨r, hr, hform⟩ := List.mem_filterMap.mp h
    unfold routeForm at hform
    split at hform
    · cases hform
      exact hr
    · cases hform

/-- The route that a form of construction is emitted for. -/
theorem init_form_cases {deterministic : Bool} {form : Form}
    (h : (form, route) ∈ contractForms deterministic entity) :
    (form = .constructor → constructorRoute entity = some route) ∧
      (form = .constructorDeterministic → findInitRoute entity = some route ∧
        route.params.isEmpty = true) := by
  rcases List.mem_append.mp h with h | h
  · unfold initForms at h
    split at h
    · cases hfind : findInitRoute entity with
      | none =>
        rw [hfind] at h
        exact absurd h List.not_mem_nil
      | some r =>
        rw [hfind] at h
        cases List.mem_singleton.mp h
        split <;> rename_i hparams
        · exact ⟨fun h => (nomatch h), fun _ => ⟨rfl, hparams⟩⟩
        · exact ⟨fun h => (nomatch h), fun h => (nomatch h)⟩
    · obtain ⟨r, hr, heq⟩ := List.mem_map.mp h
      cases heq
      exact ⟨fun _ => Option.mem_toList.mp hr, fun h => (nomatch h)⟩
  · obtain ⟨r, hr, hform⟩ := List.mem_filterMap.mp h
    unfold routeForm at hform
    split at hform
    · cases hform
      split
      · exact ⟨fun h => (nomatch h), fun h => (nomatch h)⟩
      · exact ⟨fun h => (nomatch h), fun h => (nomatch h)⟩
    · cases hform

/-- In whatever form the route of an accepted entity is emitted, all its guards stand before
    what they guard if and only if the form checks the guards that the route has. -/
theorem guards_kept_iff (entity : Entity) (hacc : checkPhaseConsistency entity = [])
    (deterministic : Bool) (form : Form) (route : Route)
    (h : (form, route) ∈ contractForms deterministic entity) :
    (∀ (S : Type) (H : Host S) (s : S), Guarded H route (form.emit entity route).body s) ↔
      GuardsKept entity route form := by
  have hroute := accepted_route hacc (mem_routes_of_mem_contractForms h)
  obtain ⟨hconstructor, hdet⟩ := init_form_cases h
  cases form with
  | function =>
    refine iff_of_true ?_ trivial
    intro S H s
    exact function_guarded hroute
  | receiveOrFallback =>
    constructor
    · exact receive_needs
    · intro hkept S H s
      exact receive_guarded hroute hkept
  | constructor =>
    have hbody : (Form.constructor.emit entity route).body = initBody entity route := by
      simp only [Form.emit, genConstructorImpl, hconstructor rfl, initBody]
    rw [hbody]
    exact initBody_guarded_iff hroute
  | constructorDeterministic =>
    exact constructorDeterministic_guarded_iff hroute (hdet rfl).1 (hdet rfl).2
  | initializeFn => exact initBody_guarded_iff hroute

end Forms

/-! ### A payment and a withdrawal -/

/-- `name() from m_owner => [emit Moved()]`. -/
def ownerRoute (name : String) : Route :=
  { name := name, params := [], fromClauses := [{
      entityName := "m_owner", args := [], withParams := none, kind := .member
      errorCode := none, errorName := none, errorArgs := [] }]
    whereClauses := [], returnType := none, body := .unphased [.emit "Moved" []], isView := false
    isPure := false, isInit := false, isAccept := true, isPrivate := false, recoverTag := none
    factoryOnly := false }

/-- An account whose `receive` and `withdraw` are both restricted to the owner. -/
def accountEntity : Entity :=
  { name := "Account", records := [], enums := [], typeAliases := [], constants := [], macros := []
    routes := [ownerRoute "receive", ownerRoute "withdraw"], members := [{
      name := "m_owner", ty := .simple "address", isIdentity := false, defaultValue := none
      transforms := [] }] }

/-- `withdraw` emits nothing, since it is not the owner who sends. -/
theorem withdraw_guarded : Guarded strangerHost (ownerRoute "withdraw")
    (Form.function.emit accountEntity (ownerRoute "withdraw")).body () :=
  (guards_kept_iff accountEntity (by decide +kernel) false .function (ownerRoute "withdraw")
    (List.mem_append_right _ (.tail _ (.head _)))).mpr trivial Unit strangerHost ()

/-- `receive` emits its event for a sender that is not the owner. -/
theorem receive_unguarded :
    checkPhaseConsistency accountEntity = [] ∧
    (Form.receiveOrFallback, ownerRoute "receive") ∈ contractForms false accountEntity ∧
    exec strangerHost.step (genReceiveOrFallback accountEntity (ownerRoute "receive")).body () =
      some () ∧
    ¬ Guarded strangerHost (ownerRoute "receive")
      (Form.receiveOrFallback.emit accountEntity (ownerRoute "receive")).body () := by
  refine ⟨by decide +kernel, List.mem_append_right _ (.head _), rfl, ?_⟩
  intro h
  have hadmitted := h [] (.stmt none (.emit "Moved" [])) [] () rfl ⟨_, .refl, rfl⟩ rfl
  exact Bool.false_ne_true (hadmitted.sender (List.cons_ne_nil _ _))

end CambrianLang.Guards
