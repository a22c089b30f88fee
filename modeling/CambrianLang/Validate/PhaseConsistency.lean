/-
  **Phases and the transforms tagged with them** (V13–V15 and V54,
  `check_phase_consistency` in `validate/entity.rs`).
-/
import CambrianLang.Analysis.Temporal

namespace CambrianLang.Validate

open Ast Analysis

/-- The V13 errors of a list of phases after the names already `seen`. -/
def checkDuplicatePhases (entity : Entity) (route : Route) : List String → List PhaseBlock →
    List Diagnostic
  | _, [] => []
  | seen, p :: ps =>
      (if p.name ∈ seen then
        [.error "V13" ("Duplicate phase '" ++ p.name ++ "' in route '" ++ route.name ++
          "' of entity '" ++ entity.name ++ "'")]
      else []) ++ checkDuplicatePhases entity route (p.name :: seen) ps

/-- V14 and V15 for one transform of a phased route. -/
def checkPhasedTransform (entity : Entity) (route : Route) (phases : List PhaseBlock)
    (m : Member) (t : MemberTransform) : List Diagnostic :=
  match t.phase with
  | none =>
      [.error "V14" ("Member '" ++ m.name ++ "' has unphased transform for phased route '" ++
        route.name ++ "' in entity '" ++ entity.name ++ "'")]
  | some tag =>
      if phases.any (·.name == tag) then []
      else
        [.error "V15" ("Member '" ++ m.name ++ "' references unknown phase '" ++ tag ++
          "' in route '" ++ route.name ++ "' of entity '" ++ entity.name ++ "'")]

/-- V14 for one transform of an unphased route. -/
def checkUnphasedTransform (entity : Entity) (route : Route) (m : Member) (t : MemberTransform) :
    List Diagnostic :=
  if t.phase.isSome then
    [.error "V14" ("Member '" ++ m.name ++ "' has phased transform for unphased route '" ++
      route.name ++ "' in entity '" ++ entity.name ++ "'")]
  else []

/-- A check of every transform of the route. -/
def checkRouteTransforms (entity : Entity) (route : Route)
    (check : Member → MemberTransform → List Diagnostic) : List Diagnostic :=
  entity.members.flatMap fun m => (m.transforms.filter (·.routeName == route.name)).flatMap (check m)

/-- `check_phase_consistency`, for one route. -/
def checkRoutePhases (entity : Entity) (route : Route) : List Diagnostic :=
  match route.body with
  | .mixed _ _ =>
      [.error "V54" ("Route '" ++ route.name ++ "' in entity '" ++ entity.name ++
        "' mixes phase blocks and bare actions")]
  | .phased phases =>
      checkDuplicatePhases entity route [] phases ++
        checkRouteTransforms entity route (checkPhasedTransform entity route phases)
  | .unphased _ => checkRouteTransforms entity route (checkUnphasedTransform entity route)

/-- `check_phase_consistency`. -/
def checkPhaseConsistency (entity : Entity) : List Diagnostic :=
  entity.routes.flatMap (checkRoutePhases entity)

/-! ### What an accepted route looks like -/

section Accepted

variable {entity : Entity} {route : Route} {phases : List PhaseBlock}

theorem nodup_of_no_duplicates (ps : List PhaseBlock) : ∀ seen : List String,
    checkDuplicatePhases entity route seen ps = [] →
      (ps.map (·.name)).Nodup ∧ ∀ p ∈ ps, p.name ∉ seen := by
  induction ps with
  | nil =>
    intro seen _
    exact ⟨List.nodup_nil, fun p hp => absurd hp List.not_mem_nil⟩
  | cons p ps ih =>
    intro seen h
    rw [checkDuplicatePhases, List.append_eq_nil_iff] at h
    obtain ⟨hp, hps⟩ := h
    obtain ⟨hnodup, hfresh⟩ := ih _ hps
    have hseen : p.name ∉ seen := by
      intro hmem
      rw [if_pos hmem] at hp
      cases hp
    refine ⟨List.nodup_cons.mpr ⟨?_, hnodup⟩, ?_⟩
    · intro hmem
      obtain ⟨q, hq, hname⟩ := List.mem_map.mp hmem
      exact hfresh q hq (hname ▸ List.mem_cons_self)
    · intro q hq
      rcases List.mem_cons.mp hq with rfl | hq
      · exact hseen
      · exact fun hmem => hfresh q hq (List.mem_cons_of_mem _ hmem)

theorem accepted_route (h : checkPhaseConsistency entity = []) (hr : route ∈ entity.routes) :
    checkRoutePhases entity route = [] := List.flatMap_eq_nil_iff.mp h route hr

theorem body_not_mixed (h : checkRoutePhases entity route = []) {as : List RouteAction} :
    route.body ≠ .mixed phases as := by
  intro hbody
  rw [checkRoutePhases, hbody] at h
  cases h

theorem phases_nodup (h : checkRoutePhases entity route = []) :
    (route.body.phaseBlocks.map (·.name)).Nodup := by
  cases hbody : route.body with
  | unphased as => exact List.nodup_nil
  | mixed ps as => exact absurd hbody (body_not_mixed h)
  | phased ps =>
    rw [checkRoutePhases, hbody, List.append_eq_nil_iff] at h
    exact (nodup_of_no_duplicates ps [] h.1).1

/-- A phased route has no transform outside its phases. -/
theorem no_unphased_transforms (h : checkRoutePhases entity route = [])
    (hbody : route.body = .phased phases) : collectTransforms entity route.name none = [] := by
  rw [checkRoutePhases, hbody, List.append_eq_nil_iff] at h
  rw [collectTransforms, List.flatMap_eq_nil_iff]
  intro m hm
  rw [List.map_eq_nil_iff, List.filter_eq_nil_iff]
  intro t ht hphase
  have hcheck := List.flatMap_eq_nil_iff.mp (List.flatMap_eq_nil_iff.mp h.2 m
    (List.mem_of_mem_filter hm)) t ht
  rw [checkPhasedTransform, beq_iff_eq.mp hphase] at hcheck
  cases hcheck

end Accepted

end CambrianLang.Validate
