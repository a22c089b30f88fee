/-
  **When construction is what the declarations ask for.**

  Both builds construct an entity as declared if and only if they take the same route for
  its init route and that route is settled.
-/
import CambrianLang.Construction.LateDefaults

namespace CambrianLang.Construction

open Ast Analysis Solidity StraightLine
open Validate Relation
open Guards (initBody)

/-! ### Locals -/

section Locals

variable {program : Program} {entity : Entity} {route : Route}

theorem actions_of_localsEscape (h : LocalsEscape entity route.body) :
    ∃ st ∈ stagesOf route.body, ∃ a, a ∈ st.actions := by
  have hfree : ∀ (x : String) (as : List RouteAction), FreeInAll entity x as → as ≠ [] := by
    rintro x _ hx rfl
    rw [FreeInAll] at hx
    exact hx
  rcases h with ⟨st, hst, hesc⟩ | ⟨earlier, st, later, hsplit, q, -, a, -, x, -, hx⟩
  · refine ⟨st, hst, List.exists_mem_of_ne_nil _ ?_⟩
    intro hnil
    rw [hnil, EscapesIn] at hesc
    exact hesc
  · exact ⟨st, mem_of_split hsplit, List.exists_mem_of_ne_nil _ (hfree x _ hx)⟩

open Classical in
/-- Where locals mean something else, no action goes through in the constructor. -/
noncomputable def blocking (entity : Entity) (route : Route) : Deployment entity route Unit Unit :=
  { writing entity route () (fun _ => ()) () id with
    act := fun own _ _ _ _ w =>
      if own = false ∧ LocalsEscape entity route.body then none else some (fun _ => none, w, false)
    act_congr := fun _ _ _ _ _ _ _ _ _ _ => rfl
    act_frame := by
      intro own phase a σ σ' w δ w' left hact d hd
      split at hact
      · cases hact
      · cases hact
        exact absurd rfl hd
    act_stays := by
      intro own phase a σ σ' w δ w' hact
      split at hact
      · cases hact
      · cases hact
    act_scope := by
      intro hnot
      funext phase a σ σ' w
      simp [hnot] }

theorem blocking_stays : NeverLeaves (blocking entity route) := by
  intro own phase a σ σ' w r h
  simp only [blocking] at h
  split at h
  · cases h
  · cases h
    rfl

theorem no_escape (h : PlainAsDeclared program entity route)
    (hacc : checkRoutePhases entity route = []) : ¬ LocalsEscape entity route.body := by
  intro hesc
  obtain ⟨st, hst, a, ha⟩ := actions_of_localsEscape hesc
  obtain ⟨s, hs, hrun⟩ := h.start (blocking entity route) ()
  obtain ⟨k, hk⟩ : ∃ k, exec ((blocking entity route).step program true)
      ((defaulted entity).map .setDefault ++ (genRouteImpl entity route).body) s = some k := by
    apply ownBody_goes
    · exact fun _ _ _ => rfl
    · exact fun _ _ _ => rfl
    · exact fun _ _ _ => Option.some_ne_none _
    · intro phase a σ σ' w
      simp [blocking]
  have hmem : Part.stmt st.phase a ∈ initBody entity route := by
    rw [initBody_stages hacc]
    refine List.mem_append_right _ (List.mem_append_left _ (List.mem_flatMap.mpr ⟨st, hst, ?_⟩))
    exact mem_plainStage.mpr (.inr ⟨a, ha, rfl⟩)
  have hnone : exec ((blocking entity route).step program false) (initBody entity route) s = none := by
    apply exec_fails_at blocking_stays hmem _ hs.left
    intro s hs
    rw [step_stmt hs, Option.map_eq_none_iff]
    exact if_pos ⟨rfl, hesc⟩
  rw [hnone, hk] at hrun
  cases hrun

end Locals

/-! ### The constructor -/

section Plain

variable {program : Program} {entity : Entity} {route : Route}

/-- What is right of the constructor, apart from what a deterministic one drops. -/
theorem settled_of_plain (h : PlainAsDeclared program entity route)
    (hacc : checkRoutePhases entity route = []) (hdropped : route.params = [] →
      ∀ p ∈ route.body.phaseBlocks,
        collectTransforms entity route.name (some p.name) = [] ∧ p.actions = []) :
    SettledInit program entity route where
  sender := unchecked_sender h hacc
  entry _ hc _ hd := unread_entry h hacc hc hd
  phases := unchecked_phases h hacc
  stages _ _ _ hsplit _ hd hnone :=
    ⟨unread_transforms h hacc hsplit hd hnone, fun _ ha =>
      ⟨unseen_before h hacc hsplit hd hnone ha, fun hst =>
        ⟨unseen_after h hacc hsplit hd hnone ha hst, no_return h hacc hsplit hd hnone ha hst⟩⟩⟩
  kept _ hd := unwritten h hacc hd
  defaults _ hd hown :=
    ⟨not_captured h hacc hd hown, fun _ hn => unchanged_default h hacc hd hown hn⟩
  locals := no_escape h hacc
  dropped := hdropped

theorem plain_of_settled (h : SettledInit program entity route)
    (hacc : checkRoutePhases entity route = []) : PlainAsDeclared program entity route := by
  intro V W D w
  obtain ⟨s, hs, hleft, -, hzero, -⟩ := exec_identity program D w
  unfold Deployment.run
  rw [List.append_assoc, exec_append, exec_append, hs, hs, Option.bind_some, Option.bind_some]
  exact run_settled h hacc hleft hzero

end Plain

/-! ### Deterministic addresses -/

section Deterministic

variable {program : Program} {entity : Entity} {route : Route}

/-- What the deterministic build runs for the init route. -/
def deterministicBody (entity : Entity) (route : Route) : List Part :=
  if route.params.isEmpty then
    genWhereChecks none route.whereClauses ++ initUpdates entity route ++
      (defaultedAfter entity route).map .setDefault
  else initBody entity route

theorem run_deterministic {V W : Type} (D : Deployment entity route V W) (w : W)
    (h : findInitRoute entity = some route) :
    D.run program false (deterministicConstruction entity) w =
      D.run program false (assignIdentity entity ++ deterministicBody entity route) w := by
  obtain ⟨s, hs, hrest⟩ := exec_identity program D w
  unfold Deployment.run deterministicConstruction deterministicBody
  simp only [genConstructorDeterministic, h, EmittedFn.parts, List.cons_append, exec_cons,
    step_setFactory, Option.bind_some, List.append_assoc, exec_append _ (assignIdentity entity), hs]
  split
  · rw [List.append_nil]
  · simp only [genInitializeFn, List.cons_append, List.nil_append, exec_cons, step_factoryOnce,
      Option.bind_some]
    rfl

theorem deterministicBody_eq (hacc : checkRoutePhases entity route = [])
    (hdropped : route.params = [] → ∀ p ∈ route.body.phaseBlocks,
      collectTransforms entity route.name (some p.name) = [] ∧ p.actions = []) :
    deterministicBody entity route = initBody entity route := by
  unfold deterministicBody
  split
  · next hparams =>
    have hphases : initPhases entity route = [] := by
      unfold initPhases
      cases hbody : route.body with
      | unphased as => rfl
      | mixed ps as => exact absurd hbody (body_not_mixed hacc)
      | phased ps =>
        rw [List.flatMap_eq_nil_iff]
        intro p hp
        exact Guards.genStage_eq_nil_iff.mpr
          (hdropped (List.isEmpty_iff.mp hparams) p (by rw [hbody]; exact hp))
    rw [initBody, hphases, List.append_nil]
  · rfl

/-- Nothing goes through that a stage does. -/
noncomputable def stuck (entity : Entity) (route : Route) : Deployment entity route Unit Unit :=
  { writing entity route () (fun _ => ()) () id with
    computed := fun _ _ _ => none
    act := fun _ _ _ _ _ _ => none
    computed_congr := fun _ _ _ _ _ => rfl
    computed_frame := fun _ _ _ _ h => nomatch h
    computed_commits := fun _ _ _ _ h => nomatch h
    act_congr := fun _ _ _ _ _ _ _ _ _ _ => rfl
    act_frame := fun _ _ _ _ _ _ _ _ _ h => nomatch h
    act_stays := fun _ _ _ _ _ _ _ _ h => nomatch h
    act_scope := fun _ => rfl }

/-- A deterministic constructor without parameters runs no phase. -/
theorem no_phases (hacc : checkRoutePhases entity route = [])
    (h : ∀ (V W : Type) (D : Deployment entity route V W) (w : W),
      D.run program false (assignIdentity entity ++ deterministicBody entity route) w =
        D.run program true (assignIdentity entity ++ (defaulted entity).map .setDefault ++
          (genRouteImpl entity route).body) w)
    (hparams : route.params = []) : ∀ p ∈ route.body.phaseBlocks,
      collectTransforms entity route.name (some p.name) = [] ∧ p.actions = [] := by
  intro p hp
  have hphased : ∃ ps, route.body = .phased ps := by
    cases hbody : route.body with
    | unphased as =>
      rw [hbody] at hp
      exact absurd hp List.not_mem_nil
    | phased ps => exact ⟨ps, rfl⟩
    | mixed ps as => exact absurd hbody (body_not_mixed hacc)
  obtain ⟨ps, hbody⟩ := hphased
  have hst : (⟨some p.name, p.whereClauses, p.actions⟩ : Stage) ∈ stagesOf route.body := by
    rw [hbody] at hp ⊢
    exact List.mem_map_of_mem hp
  have hstage : plainStage entity route ⟨some p.name, p.whereClauses, p.actions⟩ = [] := by
    by_contra hne
    obtain ⟨x, hx⟩ := List.exists_mem_of_ne_nil _ hne
    obtain ⟨s, hs, hleft, -⟩ := exec_identity program (stuck entity route) ()
    have hrun := h Unit Unit (stuck entity route) ()
    have hstay : NeverLeaves (stuck entity route) := fun _ _ _ _ _ _ _ h => nomatch h
    have hown : exec ((stuck entity route).step program true)
        ((defaulted entity).map .setDefault ++ (genRouteImpl entity route).body) s = none := by
      apply exec_fails_at hstay (mem_ownBody hst (mem_ownStage.mpr (.inr hx))) _ hleft
      intro s hs
      rcases mem_plainStage.mp hx with ⟨-, rfl⟩ | ⟨a, -, rfl⟩
      · rw [step_updates hs]
        rfl
      · rw [step_stmt hs]
        rfl
    obtain ⟨k, hk⟩ : ∃ k, exec ((stuck entity route).step program false)
        (deterministicBody entity route) s = some k := by
      apply exec_goes
      intro part hpart
      have hnone : initUpdates entity route = [] := by
        simp only [initUpdates, hbody, genUpdates, no_unphased_transforms hacc hbody,
          List.isEmpty_nil, if_true]
      rw [deterministicBody, hparams, List.isEmpty_nil, if_pos rfl, hnone, List.append_nil] at hpart
      rcases List.mem_append.mp hpart with hpart | hpart
      · obtain ⟨c, -, rfl⟩ := mem_wheres.mp hpart
        exact fun _ _ => rfl
      · obtain ⟨m, -, rfl⟩ := mem_defaults.mp hpart
        trivial
    unfold Deployment.run at hrun
    rw [List.append_assoc, exec_append, exec_append, hs, hs, Option.bind_some, Option.bind_some, hk,
      hown] at hrun
    cases hrun
  exact Guards.genStage_eq_nil_iff.mp hstage

end Deterministic

/-! ### Both builds -/

section Builds

variable {program : Program} {entity : Entity}

theorem accepted_init (hacc : checkPhaseConsistency entity = []) {route : Route}
    (h : findInitRoute entity = some route) : checkRoutePhases entity route = [] := by
  apply accepted_route hacc
  rcases Option.or_eq_some_iff.mp h with h | ⟨-, h⟩
  · exact List.mem_of_find?_eq_some h
  · exact List.mem_of_find?_eq_some h

/-- Without parameters and locals the defaults are the same in both places. -/
theorem assignAll_scope {route : Route} {V W : Type} {D : Deployment entity route V W}
    (h : ∀ m, ¬ Captured entity route m) (ms : List Member) : ∀ σ : Member → V,
      assignAll program D true ms σ = assignAll program D false ms σ := by
  induction ms with
  | nil => exact fun _ => rfl
  | cons m ms ih =>
    intro σ
    have hvalue : D.value true m σ = D.value false m σ := by
      unfold Deployment.value
      rw [D.declared_scope m σ (h m)]
    rw [assignAll, assignAll, hvalue, ih]

/-- Without an init route only the defaults are assigned. -/
theorem constructed_without_init (hplain : constructorRoute entity = none)
    (hfind : findInitRoute entity = none) {V W : Type}
    (D : Deployment entity (initRoute entity) V W) (w : W) :
    D.run program false (plainConstruction entity) w =
      D.run program true (declaredConstruction entity) w ∧
    D.run program false (deterministicConstruction entity) w =
      D.run program true (declaredConstruction entity) w := by
  have hinit : initRoute entity = noInit := by rw [initRoute, hfind, Option.getD_none]
  have hscope : ∀ m, ¬ Captured entity (initRoute entity) m := by
    rintro m ⟨e, -, x, -, hx⟩
    rw [hinit] at hx
    rcases hx with hx | ⟨as, has, a, ha, -⟩
    · exact absurd hx List.not_mem_nil
    · cases has
      exact absurd ha List.not_mem_nil
  obtain ⟨s, hs, hleft, -⟩ := exec_identity program D w
  have hdefaults : exec (D.step program false) ((defaulted entity).map .setDefault) s =
      exec (D.step program true) ((defaulted entity).map .setDefault) s := by
    rw [exec_defaults _ hleft, exec_defaults _ hleft, Bool.not_false, Bool.not_true,
      assignAll_scope hscope]
  unfold Deployment.run plainConstruction deterministicConstruction declaredConstruction
  simp only [genConstructorImpl, genConstructorDeterministic, hplain, hfind, EmittedFn.parts,
    List.cons_append, List.append_nil, exec_cons, step_setFactory, Option.bind_some, exec_append, hs,
    hdefaults, and_self]

/-- An accepted entity is constructed as declared by both builds if and only if both take the
    same route for its init route and the route is settled. -/
theorem constructed_as_declared_iff (program : Program) (entity : Entity)
    (hacc : checkPhaseConsistency entity = []) :
    ConstructedAsDeclared program entity ↔ constructorRoute entity = findInitRoute entity ∧
      ∀ route, findInitRoute entity = some route → SettledInit program entity route := by
  unfold ConstructedAsDeclared
  apply and_congr_right
  intro hsame
  cases hfind : findInitRoute entity with
  | none =>
    constructor
    · exact fun _ route h => nomatch h
    · exact fun _ V W D w => constructed_without_init (hsame.trans hfind) hfind D w
  | some route =>
    have hroute := accepted_init hacc hfind
    have hinit : initRoute entity = route := by rw [initRoute, hfind, Option.getD_some]
    have hplain : plainConstruction entity = assignIdentity entity ++ initBody entity route := by
      simp only [plainConstruction, genConstructorImpl, hsame.trans hfind, EmittedFn.parts, initBody]
    have hdeclared : declaredConstruction entity = assignIdentity entity ++
        (defaulted entity).map .setDefault ++ (genRouteImpl entity route).body := by
      simp only [declaredConstruction, hfind]
    rw [hplain, hdeclared, hinit]
    constructor
    · intro h other hother
      cases hother
      have hdet : ∀ (V W : Type) (D : Deployment entity route V W) (w : W),
          D.run program false (assignIdentity entity ++ deterministicBody entity route) w =
            D.run program true (assignIdentity entity ++ (defaulted entity).map .setDefault ++
              (genRouteImpl entity route).body) w := by
        intro V W D w
        rw [← run_deterministic D w hfind]
        exact (h V W D w).2
      exact settled_of_plain (fun V W D w => (h V W D w).1) hroute (no_phases hroute hdet)
    · intro h V W D w
      have hset := h route rfl
      have hrun := plain_of_settled hset hroute V W D w
      refine ⟨hrun, ?_⟩
      rw [run_deterministic D w hfind, deterministicBody_eq hroute hset.dropped]
      exact hrun

end Builds

/-! ### A copy of a default, and a limit -/

/-- `constructor(params) => []`. -/
def emptyInit (params : List Param) : Route :=
  { name := "constructor", params := params, fromClauses := [], whereClauses := [], returnType := none
    body := .unphased [], isView := false, isPure := false, isInit := false, isAccept := false
    isPrivate := false, recoverTag := none, factoryOnly := true }

def numberMember (name : String) (default : Option Expr) (transforms : List MemberTransform) : Member :=
  { name := name, ty := .simple "U256", isIdentity := false, defaultValue := default
    transforms := transforms }

/-- `m_base: U256 = 5 {}` and `m_copy: U256 { in constructor() => m_base }`. -/
def copyEntity : Entity :=
  { name := "Copy", records := [], enums := [], typeAliases := [], constants := [], macros := []
    routes := [emptyInit []]
    members := [numberMember "m_base" (some (.intLiteral ⟨0, 5⟩)) [],
      numberMember "m_copy" none [⟨"constructor", [], .ident "m_base", none⟩]] }

/-- `m_limit: U256 = 5 {}` and `m_count: U256 { in constructor(start) => start }`. -/
def countEntity : Entity :=
  { name := "Count", records := [], enums := [], typeAliases := [], constants := [], macros := []
    routes := [emptyInit [⟨"start", .simple "U256"⟩]]
    members := [numberMember "m_limit" (some (.intLiteral ⟨0, 5⟩)) [],
      numberMember "m_count" none [⟨"constructor", [.ident "start"], .ident "start", none⟩]] }

def emptyProgram : Program :=
  { imports := [], pureFns := [], typeAliases := [], records := [], enums := [], entities := []
    externEntities := [], libraries := [] }

/-- Nothing but itself occurs in a name. -/
theorem names_ident {entity : Entity} {x n : String} (h : Names entity (.ident x) n) : x = n := by
  rcases ReflTransGen.cases_head h with heq | ⟨e, hstep, -⟩
  · cases heq
    rfl
  · cases hstep with
    | child hmem => exact absurd hmem List.not_mem_nil

theorem names_literal {entity : Entity} {v : Core.U256} {n : String} : ¬ Names entity (.intLiteral v) n := by
  intro h
  rcases ReflTransGen.cases_head h with heq | ⟨e, hstep, -⟩
  · cases heq
  · cases hstep with
    | child hmem => exact absurd hmem List.not_mem_nil

/-- The limit is assigned after the count, and neither looks at the other. -/
theorem count_settled : SettledInit emptyProgram countEntity
    (emptyInit [⟨"start", .simple "U256"⟩]) := by
  have hstages : stagesOf (emptyInit [⟨"start", .simple "U256"⟩]).body = [⟨none, [], []⟩] := rfl
  have hpending : pending countEntity = [numberMember "m_limit" (some (.intLiteral ⟨0, 5⟩)) []] := rfl
  have hafter : assignedAfter emptyProgram countEntity (emptyInit [⟨"start", .simple "U256"⟩]) =
      [numberMember "m_limit" (some (.intLiteral ⟨0, 5⟩)) []] := rfl
  have hcollect : collectTransforms countEntity "constructor" none =
      [(numberMember "m_count" none [⟨"constructor", [.ident "start"], .ident "start", none⟩],
        ⟨"constructor", [.ident "start"], .ident "start", none⟩)] := rfl
  have hwrites : functionWrites countEntity (emptyInit [⟨"start", .simple "U256"⟩]) =
      [⟨some (numberMember "m_count" none
        [⟨"constructor", [.ident "start"], .ident "start", none⟩]), "m_count"⟩] := rfl
  have honly : ∀ {earlier later : List Stage} {st : Stage},
      [⟨none, [], []⟩] = earlier ++ st :: later → st = ⟨none, [], []⟩ := by
    intro earlier later st hsplit
    exact List.mem_singleton.mp (hsplit ▸ List.mem_append_right _ List.mem_cons_self)
  refine ⟨rfl, fun c hc => absurd hc List.not_mem_nil, ?_, ?_, ?_, ?_, ?_, ?_⟩
  · intro earlier st later hsplit c hc
    rw [honly hsplit] at hc
    exact absurd hc List.not_mem_nil
  · intro earlier st later hsplit d hd _
    rw [hpending] at hd
    rw [honly hsplit, List.mem_singleton.mp hd]
    refine ⟨?_, fun a ha => absurd ha List.not_mem_nil⟩
    rintro ⟨rt, hrt, hreads⟩
    change rt ∈ collectTransforms countEntity "constructor" none at hrt
    rw [hcollect] at hrt
    rw [List.mem_singleton.mp hrt] at hreads
    rcases hreads with hnames | ⟨hreads, -⟩ | ⟨-, hwrite⟩
    · exact absurd (names_ident hnames) (by decide)
    · rcases ReflTransGen.cases_head hreads with heq | ⟨e, hstep, -⟩
      · cases heq
      · cases hstep with
        | child hmem => exact absurd hmem List.not_mem_nil
    · exact absurd (List.mem_singleton.mp hwrite) (by decide)
  · intro d hd
    rw [hafter] at hd
    rw [List.mem_singleton.mp hd, hwrites]
    refine ⟨fun w hw => ?_, fun a ha => absurd ha List.not_mem_nil⟩
    rw [List.mem_singleton.mp hw]
    decide
  · intro d hd _
    rw [hafter] at hd
    rw [List.mem_singleton.mp hd]
    constructor
    · rintro ⟨e, he, x, hx, -⟩
      cases he
      exact names_literal hx
    · rintro n ⟨e, he, hn⟩
      cases he
      exact absurd hn names_literal
  · rintro (⟨st, hst, hesc⟩ | ⟨earlier, st, later, hsplit, q, hq, a, ha, -⟩)
    · rw [hstages] at hst
      rw [List.mem_singleton.mp hst, EscapesIn] at hesc
      exact hesc
    · rw [hstages] at hsplit
      cases earlier with
      | nil => exact absurd hq List.not_mem_nil
      | cons e es =>
        rw [List.cons_append, List.cons.injEq] at hsplit
        exact absurd hsplit.2.symm (List.append_ne_nil_of_right_ne_nil _ (List.cons_ne_nil _ _))
  · exact fun h => absurd h (List.cons_ne_nil _ _)

/-- `Count` starts with its limit and the count it is given, in both builds. -/
theorem count_as_declared : ConstructedAsDeclared emptyProgram countEntity :=
  (constructed_as_declared_iff emptyProgram countEntity (by decide +kernel)).mpr
    ⟨rfl, fun _ h => by
      cases h
      exact count_settled⟩

/-- `Copy` copies the base before the base has its default. -/
theorem copy_not_as_declared :
    checkPhaseConsistency copyEntity = [] ∧
    plainConstruction copyEntity =
      [.updates none, .setDefault (numberMember "m_base" (some (.intLiteral ⟨0, 5⟩)) [])] ∧
    ¬ ConstructedAsDeclared emptyProgram copyEntity := by
  have hacc : checkPhaseConsistency copyEntity = [] := by decide +kernel
  refine ⟨hacc, rfl, ?_⟩
  rintro ⟨-, h⟩
  have hplain : PlainAsDeclared emptyProgram copyEntity (emptyInit []) :=
    fun V W D w => (h V W D w).1
  have hcollect : collectTransforms copyEntity "constructor" none =
      [(numberMember "m_copy" none [⟨"constructor", [], .ident "m_base", none⟩],
        ⟨"constructor", [], .ident "m_base", none⟩)] := rfl
  have hpending : pending copyEntity = [numberMember "m_base" (some (.intLiteral ⟨0, 5⟩)) []] := rfl
  have hsplit : stagesOf (emptyInit []).body = [] ++ (⟨none, [], []⟩ : Stage) :: [] := rfl
  have hroute : checkRoutePhases copyEntity (emptyInit []) = [] := accepted_init hacc rfl
  have hread : StageReads copyEntity (emptyInit []) none
      (numberMember "m_base" (some (.intLiteral ⟨0, 5⟩)) []) := by
    refine ⟨(numberMember "m_copy" none [⟨"constructor", [], .ident "m_base", none⟩],
      ⟨"constructor", [], .ident "m_base", none⟩), ?_, .inl .refl⟩
    change _ ∈ collectTransforms copyEntity "constructor" none
    rw [hcollect]
    exact List.mem_cons_self
  exact unread_transforms hplain hroute hsplit (hpending ▸ List.mem_cons_self)
    (fun q hq => absurd hq List.not_mem_nil) hread

end CambrianLang.Construction
