/-
  **What a constructor gets wrong for an init route that is not settled.**

  Each condition of a settled init route is tested by a deployment in which one thing
  goes another way: one condition fails, one member starts at a value of its own and is
  required where it is looked at, one action returns.  Where the condition is violated
  the constructor and the declarations then end differently.
-/
import CambrianLang.Construction.Simulation

namespace CambrianLang.Construction

open Ast Analysis Solidity StraightLine
open Validate
open Guards (initBody)
open Layout (isMappingType)

/-! ### Deployments that write one value -/

section Writing

variable (entity : Entity) (route : Route) {V W : Type}

open Classical in
/-- Everything goes through, and whatever may be changed takes the value `v`. -/
noncomputable def writing (v : V) (zero : Member → V) (initial : V) (next : W → W) :
    Deployment entity route V W where
  zero := zero
  identity _ := initial
  declared _ _ _ := initial
  fromHolds _ _ _ := true
  whereHolds _ _ _ := true
  computed phase _ _ :=
    some fun d => if d.name ∈ stageWrites entity route phase then some v else none
  act _ _ a _ _ w := some (fun d =>
    if Reenters route a ∨ d.name ∈ (actionCode entity a).writes then some v else none, next w, false)
  declared_scope _ _ _ := rfl
  declared_congr _ _ _ _ _ := rfl
  where_congr _ _ _ _ _ := rfl
  computed_congr _ _ _ _ _ := rfl
  computed_frame phase σ w δ hδ d hd := by
    cases hδ
    by_contra hnot
    exact hd (if_neg hnot)
  computed_commits phase σ w δ hδ d hcommit hmap := by
    cases hδ
    simp [mem_stageWrites_of_commits hcommit hmap]
  act_congr _ _ _ _ _ _ _ _ _ _ := rfl
  act_frame own phase a σ σ' w δ w' left hact d hd := by
    cases hact
    by_contra hnot
    exact hd (if_neg hnot)
  act_stays own phase a σ σ' w δ w' hact := by
    cases hact
  act_scope _ := rfl

end Writing

section Probing

variable {entity : Entity} {route : Route} {V W : Type} {program : Program}
  {D : Deployment entity route V W} {own : Bool} {s k : Site V W}

/-- What the constructor runs comes to what the declarations ask for. -/
def PlainAsDeclared (program : Program) (entity : Entity) (route : Route) : Prop :=
  ∀ (V W : Type) (D : Deployment entity route V W) (w : W),
    D.run program false (assignIdentity entity ++ initBody entity route) w =
      D.run program true (assignIdentity entity ++ (defaulted entity).map .setDefault ++
        (genRouteImpl entity route).body) w

/-- Where the identity members are assigned. -/
structure Started (D : Deployment entity route V W) (w : W) (s : Site V W) : Prop where
  left : s.left = false
  world : s.world = w
  zero : ∀ d : Member, d.isIdentity = false → s.mem d = D.zero d
  mem : ∀ d, s.mem d = D.zero d ∨ s.mem d = D.identity d

theorem PlainAsDeclared.start (h : PlainAsDeclared program entity route)
    (D : Deployment entity route V W) (w : W) : ∃ s, Started D w s ∧
      (exec (D.step program false) (initBody entity route) s).map (fun x => (x.mem, x.world)) =
        (exec (D.step program true) ((defaulted entity).map .setDefault ++
          (genRouteImpl entity route).body) s).map fun x => (x.mem, x.world) := by
  obtain ⟨s, hs, hleft, hworld, hzero, hmem⟩ := exec_identity program D w
  refine ⟨s, ⟨hleft, hworld, hzero, hmem⟩, ?_⟩
  have hrun := h V W D w
  unfold Deployment.run at hrun
  rwa [List.append_assoc, exec_append, exec_append, hs, hs, Option.bind_some, Option.bind_some]
    at hrun

theorem update_same {p : Member → Prop} {_ : DecidablePred p} {v : V} {σ : Member → V} {d : Member}
    (h : σ d = v) : update (fun d => if p d then some v else none) σ d = v := by
  unfold update
  dsimp only
  split
  · rfl
  · exact h

/-- The site with every default assigned, as the declarations ask for. -/
noncomputable def withDefaults (program : Program) (D : Deployment entity route V W)
    (s : Site V W) : Site V W :=
  { s with mem := assignAll program D false (defaulted entity) s.mem }

theorem exec_defaulted (hleft : s.left = false) :
    exec (D.step program true) ((defaulted entity).map .setDefault) s =
      some (withDefaults program D s) :=
  exec_defaults _ hleft

/-- A part is skipped once the code has returned. -/
theorem step_keeps {P : Site V W → Prop} {part : Part}
    (h : s.left = false → ∀ k, D.step program own part s = some k → P k) (hs : P s)
    (hk : D.step program own part s = some k) : P k := by
  cases hleft : s.left with
  | true =>
    rw [step_of_left hleft] at hk
    cases hk
    exact hs
  | false => exact h hleft k hk

/-! ### Parts that go through -/

/-- The part cannot fail. -/
def Goes (D : Deployment entity route V W) (own : Bool) : Part → Prop
  | .fromCheck cs => ∀ σ w, D.fromHolds cs σ w = true
  | .whereCheck _ c => ∀ σ w, D.whereHolds c σ w = true
  | .updates phase => ∀ σ w, D.computed phase σ w ≠ none
  | .stmt phase a => ∀ σ σ' w, D.act own phase a σ σ' w ≠ none
  | .setFactory | .factoryOnce | .setIdentity _ | .setDefault _ => True

theorem step_goes {part : Part} (h : Goes D own part) (s : Site V W) :
    ∃ k, D.step program own part s = some k := by
  cases hleft : s.left with
  | true => exact ⟨s, step_of_left hleft⟩
  | false =>
    cases part with
    | setFactory => exact ⟨s, step_setFactory⟩
    | factoryOnce => exact ⟨s, step_factoryOnce⟩
    | setIdentity m => exact ⟨_, step_setIdentity hleft m⟩
    | setDefault m => exact ⟨_, step_setDefault hleft m⟩
    | fromCheck cs => exact ⟨s, by rw [step_fromCheck hleft, if_pos (h _ _)]⟩
    | whereCheck phase c => exact ⟨s, by rw [step_whereCheck hleft, if_pos (h _ _)]⟩
    | updates phase =>
      obtain ⟨δ, hδ⟩ := Option.ne_none_iff_exists'.mp (h s.mem s.world)
      exact ⟨_, by rw [step_updates hleft, hδ, Option.map_some]⟩
    | stmt phase a =>
      obtain ⟨r, hr⟩ := Option.ne_none_iff_exists'.mp (h s.mem s.before s.world)
      exact ⟨_, by rw [step_stmt hleft, hr, Option.map_some]⟩

theorem exec_goes {code : List Part} (h : ∀ part ∈ code, Goes D own part) (s : Site V W) :
    ∃ k, exec (D.step program own) code s = some k := by
  have hstep : ∀ part ∈ code, ∀ s, True → ∃ k, D.step program own part s = some k ∧ True := by
    intro part hpart s _
    obtain ⟨k, hk⟩ := step_goes (h part hpart) s
    exact ⟨k, hk, trivial⟩
  obtain ⟨k, hk, -⟩ := exec_total hstep (s := s) trivial
  exact ⟨k, hk⟩

/-- No action returns. -/
def NeverLeaves (D : Deployment entity route V W) : Prop :=
  ∀ own phase a σ σ' w r, D.act own phase a σ σ' w = some r → r.2.2 = false

/-- What a part that goes through does to the members, if actions do not return. -/
theorem step_cases {part : Part} (hstay : NeverLeaves D) (hleft : s.left = false)
    (h : D.step program own part s = some k) : k.left = false ∧
      ((k.mem = s.mem ∧ k.before = s.before ∧ k.world = s.world) ∨
      (∃ m v, (part = .setIdentity m ∨ part = .setDefault m) ∧ k.mem = assign m v s.mem ∧
        k.before = s.before ∧ k.world = s.world) ∨
      (∃ phase δ, part = .updates phase ∧ D.computed phase s.mem s.world = some δ ∧
        k.mem = update δ s.mem ∧ k.before = s.mem ∧ k.world = s.world) ∨
      ∃ phase a r, part = .stmt phase a ∧ D.act own phase a s.mem s.before s.world = some r ∧
        k.mem = update r.1 s.mem ∧ k.before = s.before ∧ k.world = r.2.1) := by
  cases part with
  | setFactory =>
    rw [step_setFactory] at h
    cases h
    exact ⟨hleft, .inl ⟨rfl, rfl, rfl⟩⟩
  | factoryOnce =>
    rw [step_factoryOnce] at h
    cases h
    exact ⟨hleft, .inl ⟨rfl, rfl, rfl⟩⟩
  | setIdentity m =>
    rw [step_setIdentity hleft] at h
    cases h
    exact ⟨hleft, .inr (.inl ⟨m, _, .inl rfl, rfl, rfl, rfl⟩)⟩
  | setDefault m =>
    rw [step_setDefault hleft] at h
    cases h
    refine ⟨hleft, ?_⟩
    dsimp only
    split
    · exact .inr (.inl ⟨m, _, .inr rfl, rfl, rfl, rfl⟩)
    · exact .inl ⟨rfl, rfl, rfl⟩
  | fromCheck cs =>
    rw [step_fromCheck hleft] at h
    split at h
    · cases h
      exact ⟨hleft, .inl ⟨rfl, rfl, rfl⟩⟩
    · cases h
  | whereCheck phase c =>
    rw [step_whereCheck hleft] at h
    split at h
    · cases h
      exact ⟨hleft, .inl ⟨rfl, rfl, rfl⟩⟩
    · cases h
  | updates phase =>
    rw [step_updates hleft] at h
    obtain ⟨δ, hδ, rfl⟩ := Option.map_eq_some_iff.mp h
    exact ⟨hleft, .inr (.inr (.inl ⟨phase, δ, rfl, hδ, rfl, rfl, rfl⟩))⟩
  | stmt phase a =>
    rw [step_stmt hleft] at h
    obtain ⟨r, hr, rfl⟩ := Option.map_eq_some_iff.mp h
    exact ⟨hstay _ _ _ _ _ _ _ hr, .inr (.inr (.inr ⟨phase, a, r, rfl, hr, rfl, rfl, rfl⟩))⟩

theorem step_stays {part : Part} (hstay : NeverLeaves D) (hleft : s.left = false)
    (h : D.step program own part s = some k) : k.left = false :=
  (step_cases hstay hleft h).1

/-! ### Codes that go through and codes that do not -/

theorem none_of_map_eq {A B : Type} {x y : Option A} {f : A → B} (h : x.map f = y.map f)
    (hy : y = none) : x = none := by
  rw [hy] at h
  exact Option.map_eq_none_iff.mp h

/-- A part that always fails makes the code fail, if actions do not return. -/
theorem exec_fails_at (hstay : NeverLeaves D) {code : List Part} {part : Part} (hmem : part ∈ code)
    (hfail : ∀ s, s.left = false → D.step program own part s = none) (hleft : s.left = false) :
    exec (D.step program own) code s = none := by
  obtain ⟨before, after, rfl⟩ := List.append_of_mem hmem
  exact exec_fails (P := fun s => s.left = false)
    (fun x _ s k hs hk => step_stays hstay hs hk) hfail hleft

theorem mem_plainStage {st : Stage} {part : Part} : part ∈ plainStage entity route st ↔
    (collectTransforms entity route.name st.phase ≠ [] ∧ part = .updates st.phase) ∨
      ∃ a ∈ st.actions, part = .stmt st.phase a :=
  Guards.mem_genStage

theorem mem_wheres {phase : Option String} {cs : List WhereClause} {part : Part} :
    part ∈ genWhereChecks phase cs ↔ ∃ c ∈ cs, part = .whereCheck phase c := by
  rw [genWhereChecks, List.mem_map]
  simp only [eq_comm]

theorem mem_ownStage {st : Stage} {part : Part} : part ∈ ownStage entity route st ↔
    (∃ c ∈ st.wheres, part = .whereCheck st.phase c) ∨ part ∈ plainStage entity route st := by
  rw [ownStage, List.mem_append, mem_wheres]

theorem mem_defaults {ms : List Member} {part : Part} :
    part ∈ ms.map Part.setDefault ↔ ∃ m ∈ ms, part = .setDefault m := by
  rw [List.mem_map]
  simp only [eq_comm]

theorem genRouteImpl_body : (genRouteImpl entity route).body = genFromChecks route ++
    (genWhereChecks none route.whereClauses ++
      (stagesOf route.body).flatMap (ownStage entity route)) := by
  rw [genRouteImpl, emitRouteBody_stages, List.append_assoc]

theorem plainStage_goes (hcomputed : ∀ phase σ w, D.computed phase σ w ≠ none)
    (hact : ∀ phase a σ σ' w, D.act own phase a σ σ' w ≠ none) {st : Stage} {part : Part}
    (h : part ∈ plainStage entity route st) : Goes D own part := by
  rcases mem_plainStage.mp h with ⟨-, rfl⟩ | ⟨a, -, rfl⟩
  · exact hcomputed st.phase
  · exact hact st.phase a

/-- A constructor goes through where its conditions hold to begin with. -/
theorem initBody_goes (hacc : checkRoutePhases entity route = [])
    (hwhere : ∀ c ∈ route.whereClauses, D.whereHolds c s.mem s.world = true)
    (hcomputed : ∀ phase σ w, D.computed phase σ w ≠ none)
    (hact : ∀ phase a σ σ' w, D.act false phase a σ σ' w ≠ none) :
    ∃ k, exec (D.step program false) (initBody entity route) s = some k := by
  rw [initBody_stages hacc, exec_append, exec_wheres hwhere, Option.bind_some]
  apply exec_goes
  intro part hpart
  rcases List.mem_append.mp hpart with h | h
  · obtain ⟨st, -, h⟩ := List.mem_flatMap.mp h
    exact plainStage_goes hcomputed hact h
  · obtain ⟨m, -, rfl⟩ := mem_defaults.mp h
    trivial

/-- A route of its own goes through if nothing in it fails. -/
theorem ownBody_goes (hfrom : ∀ cs σ w, D.fromHolds cs σ w = true)
    (hwhere : ∀ c σ w, D.whereHolds c σ w = true)
    (hcomputed : ∀ phase σ w, D.computed phase σ w ≠ none)
    (hact : ∀ phase a σ σ' w, D.act true phase a σ σ' w ≠ none) (s : Site V W) :
    ∃ k, exec (D.step program true) ((defaulted entity).map .setDefault ++
      (genRouteImpl entity route).body) s = some k := by
  apply exec_goes
  intro part hpart
  rw [genRouteImpl_body] at hpart
  rcases List.mem_append.mp hpart with h | h
  · obtain ⟨m, -, rfl⟩ := mem_defaults.mp h
    trivial
  rcases List.mem_append.mp h with h | h
  · unfold genFromChecks at h
    split at h
    · exact absurd h List.not_mem_nil
    · rw [List.mem_singleton.mp h]
      exact hfrom _
  rcases List.mem_append.mp h with h | h
  · obtain ⟨c, -, rfl⟩ := mem_wheres.mp h
    exact hwhere c
  · obtain ⟨st, -, h⟩ := List.mem_flatMap.mp h
    rcases mem_ownStage.mp h with ⟨c, -, rfl⟩ | h
    · exact hwhere c
    · exact plainStage_goes hcomputed hact h

/-- A part of a stage. -/
def StagePart : Part → Prop
  | .whereCheck _ _ | .updates _ | .stmt _ _ => True
  | .setFactory | .factoryOnce | .setIdentity _ | .setDefault _ | .fromCheck _ => False

theorem stagePart_of_mem {st : Stage} {part : Part} (h : part ∈ ownStage entity route st) :
    StagePart part := by
  rcases mem_ownStage.mp h with ⟨c, -, rfl⟩ | h
  · trivial
  · rcases mem_plainStage.mp h with ⟨-, rfl⟩ | ⟨a, -, rfl⟩
    · trivial
    · trivial

theorem mem_ownBody {st : Stage} {part : Part} (hst : st ∈ stagesOf route.body)
    (h : part ∈ ownStage entity route st) :
    part ∈ (defaulted entity).map .setDefault ++ (genRouteImpl entity route).body := by
  rw [genRouteImpl_body]
  exact List.mem_append_right _ (List.mem_append_right _ (List.mem_append_right _
    (List.mem_flatMap.mpr ⟨st, hst, h⟩)))

/-- A part of one stage and a part of a later one, with nothing but stages in between. -/
theorem ownBody_split {earlier later : List Stage} {q st : Stage}
    (hsplit : stagesOf route.body = earlier ++ st :: later) (hq : q ∈ earlier) {x l : Part}
    (hx : x ∈ ownStage entity route q) (hl : l ∈ ownStage entity route st) :
    ∃ before mid after, (defaulted entity).map .setDefault ++ (genRouteImpl entity route).body =
      before ++ x :: (mid ++ l :: after) ∧ ∀ y ∈ mid, StagePart y := by
  obtain ⟨e, e', rfl⟩ := List.append_of_mem hq
  obtain ⟨u, v, hu⟩ := List.append_of_mem hx
  obtain ⟨u', v', hu'⟩ := List.append_of_mem hl
  refine ⟨(defaulted entity).map .setDefault ++ (genFromChecks route ++
    (genWhereChecks none route.whereClauses ++ (e.flatMap (ownStage entity route) ++ u))),
    v ++ (e'.flatMap (ownStage entity route) ++ u'),
    v' ++ later.flatMap (ownStage entity route), ?_, ?_⟩
  · rw [genRouteImpl_body, hsplit]
    simp only [List.flatMap_append, List.flatMap_cons, hu, hu', List.append_assoc, List.cons_append]
  · intro y hy
    rcases List.mem_append.mp hy with hy | hy
    · exact stagePart_of_mem (hu ▸ List.mem_append_right _ (List.mem_cons_of_mem _ hy))
    rcases List.mem_append.mp hy with hy | hy
    · obtain ⟨r, -, hr⟩ := List.mem_flatMap.mp hy
      exact stagePart_of_mem hr
    · exact stagePart_of_mem (hu' ▸ List.mem_append_left _ hy)

end Probing

/-! ### Conditions -/

section Conditions

variable {program : Program} {entity : Entity} {route : Route}

theorem unchecked_sender (h : PlainAsDeclared program entity route)
    (hacc : checkRoutePhases entity route = []) : route.fromClauses = [] := by
  by_contra hne
  let D : Deployment entity route Unit Unit :=
    { writing entity route () (fun _ => ()) () id with fromHolds := fun _ _ _ => false }
  have hstay : NeverLeaves D := by
    intro own phase a σ σ' w r h
    cases h
    rfl
  have hmem : Part.fromCheck route.fromClauses ∈ (defaulted entity).map .setDefault ++
      (genRouteImpl entity route).body := by
    rw [genRouteImpl_body, genFromChecks, if_neg (by rwa [List.isEmpty_iff])]
    exact List.mem_append_right _ (List.mem_append_left _ List.mem_cons_self)
  obtain ⟨s, hs, hrun⟩ := h.start D ()
  obtain ⟨k, hk⟩ : ∃ k, exec (D.step program false) (initBody entity route) s = some k :=
    initBody_goes hacc (fun _ _ => rfl) (fun _ _ _ => Option.some_ne_none _)
      (fun _ _ _ _ _ => Option.some_ne_none _)
  rw [none_of_map_eq hrun] at hk
  · cases hk
  · apply exec_fails_at hstay hmem _ hs.left
    intro s hs
    rw [step_fromCheck hs]
    rfl

open Classical in
/-- One condition passes where it is told to. -/
noncomputable def failing (entity : Entity) (route : Route) {V W : Type} (c : WhereClause) (v : V) (zero : Member → V) (initial : V)
    (next : W → W) (passes : (Member → V) → W → Prop)
    (hpasses : ∀ σ τ w, (∀ d : Member, Names entity c.condition d.name → σ d = τ d) →
      (passes σ w ↔ passes τ w)) : Deployment entity route V W :=
  { writing entity route v zero initial next with
    whereHolds := fun c' σ w => decide (c' = c → passes σ w)
    where_congr := by
      intro c' σ τ w hστ
      by_cases hc : c' = c
      · subst hc
        simp [hpasses σ τ w hστ]
      · simp [hc] }

section Failing

variable {V W : Type} (c : WhereClause) (v : V) (zero : Member → V) (initial : V) (next : W → W)
  (passes : (Member → V) → W → Prop)
  (hpasses : ∀ σ τ w, (∀ d : Member, Names entity c.condition d.name → σ d = τ d) →
    (passes σ w ↔ passes τ w))

theorem failing_stays :
    NeverLeaves (failing entity route c v zero initial next passes hpasses) := by
  intro own phase a σ σ' w r h
  cases h
  rfl

/-- The constructor goes through where the condition passes to begin with. -/
theorem failing_goes (hacc : checkRoutePhases entity route = []) {s : Site V W}
    (hs : c ∈ route.whereClauses → passes s.mem s.world) :
    ∃ k, exec ((failing entity route c v zero initial next passes hpasses).step program false)
      (initBody entity route) s = some k := by
  apply initBody_goes hacc
  · intro c' hc'
    have hpass : c' = c → passes s.mem s.world := fun heq => hs (heq ▸ hc')
    simpa [failing] using hpass
  · exact fun _ _ _ => Option.some_ne_none _
  · exact fun _ _ _ _ _ => Option.some_ne_none _

theorem failing_step {phase : Option String} {s : Site V W} (hs : s.left = false)
    (hnot : ¬ passes s.mem s.world) : (failing entity route c v zero initial next passes
      hpasses).step program true (.whereCheck phase c) s = none := by
  rw [step_whereCheck hs, if_neg]
  simpa [failing] using hnot

/-- A condition that passes at first and fails after a part of an earlier stage. -/
theorem late_failure (h : PlainAsDeclared program entity route)
    (hacc : checkRoutePhases entity route = []) {earlier later : List Stage} {q st : Stage}
    (hsplit : stagesOf route.body = earlier ++ st :: later) (hq : q ∈ earlier)
    (hc : c ∈ st.wheres) (w : W)
    (hstart : ∀ s, Started (failing entity route c v zero initial next passes hpasses) w s →
      passes s.mem s.world)
    {x : Part} (hx : x ∈ ownStage entity route q) {Q : Site V W → Prop}
    (hafter : ∀ s k, s.left = false → (failing entity route c v zero initial next passes
      hpasses).step program true x s = some k → Q k)
    (hQ : ∀ y, StagePart y → ∀ s k, Q s → (failing entity route c v zero initial next passes
      hpasses).step program true y s = some k → Q k)
    (hfail : ∀ s, Q s → s.left = false ∧ ¬ passes s.mem s.world) : False := by
  obtain ⟨s, hs, hrun⟩ := h.start (failing entity route c v zero initial next passes hpasses) w
  have hcheck : Part.whereCheck st.phase c ∈ ownStage entity route st :=
    mem_ownStage.mpr (.inl ⟨c, hc, rfl⟩)
  obtain ⟨before, mid, after, hcode, hmid⟩ := ownBody_split hsplit hq hx hcheck
  obtain ⟨k, hk⟩ := failing_goes c v zero initial next passes hpasses hacc
    fun _ => hstart s hs
  rw [none_of_map_eq hrun] at hk
  · cases hk
  · rw [hcode]
    apply exec_fails_behind (P := fun s => s.left = false)
      (fun y _ s k hs hk => step_stays (failing_stays c v zero initial next passes hpasses) hs hk)
      hafter
      (fun y hy => hQ y (hmid y hy)) _ hs.left
    intro s hs
    obtain ⟨hleft, hnot⟩ := hfail s hs
    exact failing_step c v zero initial next passes hpasses hleft hnot

end Failing

theorem unchecked_phases (h : PlainAsDeclared program entity route)
    (hacc : checkRoutePhases entity route = []) (earlier : List Stage) (st : Stage)
    (later : List Stage) (hsplit : stagesOf route.body = earlier ++ st :: later) (c : WhereClause)
    (hc : c ∈ st.wheres) : c ∈ route.whereClauses ∧ ∀ q ∈ earlier, q.actions = [] ∧
      ∀ n ∈ stageWrites entity route q.phase, ¬ Names entity c.condition n := by
  constructor
  · by_contra hout
    have hnever : ∀ σ τ : Member → Unit, ∀ w : Unit,
        (∀ d : Member, Names entity c.condition d.name → σ d = τ d) → (False ↔ False) :=
      fun _ _ _ _ => Iff.rfl
    obtain ⟨s, hs, hrun⟩ := h.start
      (failing entity route c () (fun _ => ()) () id (fun _ _ => False) hnever) ()
    obtain ⟨k, hk⟩ : ∃ k, exec ((failing entity route c () (fun _ => ()) () id (fun _ _ => False)
        hnever).step program false) (initBody entity route) s = some k :=
      failing_goes c () (fun _ => ()) () id (fun _ _ => False) hnever hacc fun hc => absurd hc hout
    rw [none_of_map_eq hrun] at hk
    · cases hk
    · exact exec_fails_at (failing_stays c _ _ _ _ _ hnever)
        (mem_ownBody (mem_of_split hsplit) (mem_ownStage.mpr (.inl ⟨c, hc, rfl⟩)))
        (fun s hs => failing_step c _ _ _ _ _ hnever hs id) hs.left
  · intro q hq
    constructor
    · by_contra hne
      obtain ⟨a, ha⟩ := List.exists_mem_of_ne_nil _ hne
      -- an action sets a flag that the condition looks at
      have hflag : ∀ σ τ : Member → Unit, ∀ w : Bool,
          (∀ d : Member, Names entity c.condition d.name → σ d = τ d) →
          (w = false ↔ w = false) := fun _ _ _ _ => Iff.rfl
      apply late_failure c () (fun _ => ()) () (fun _ => true) (fun _ w => w = false) hflag h hacc
        hsplit hq hc false
        (fun s hs => hs.world) (x := .stmt q.phase a)
        (mem_ownStage.mpr (.inr (mem_plainStage.mpr (.inr ⟨a, ha, rfl⟩))))
        (Q := fun s => s.left = false ∧ s.world = true) _ _ (fun s hs => ⟨hs.1, by simp [hs.2]⟩)
      · intro s k hs hk
        rw [step_stmt hs] at hk
        cases hk
        exact ⟨rfl, rfl⟩
      · rintro y hy s k ⟨hleft, hworld⟩ hk
        obtain ⟨hk', hcases⟩ := step_cases (failing_stays c _ _ _ _ _ _) hleft hk
        refine ⟨hk', ?_⟩
        rcases hcases with ⟨-, -, hw⟩ | ⟨_, _, -, -, -, hw⟩ | ⟨_, _, -, -, -, -, hw⟩ |
          ⟨_, _, r, -, hact, -, -, hw⟩
        · rw [hw, hworld]
        · rw [hw, hworld]
        · rw [hw, hworld]
        · cases hact
          exact hw
    · intro n hn hnames
      -- a transform sets a member that the condition looks at
      let d : Member := ⟨n, .simple "", false, none, []⟩
      have hsees : ∀ σ τ : Member → Bool, ∀ w : Unit,
          (∀ d : Member, Names entity c.condition d.name → σ d = τ d) →
          (σ d = false ↔ τ d = false) := fun σ τ _ hστ => by rw [hστ d hnames]
      apply late_failure c true (fun _ => false) false id (fun σ _ => σ d = false) hsees h hacc
        hsplit hq hc ()
        (fun s hs => (hs.mem d).elim id id) (x := .updates q.phase) _
        (Q := fun s => s.left = false ∧ s.mem d = true) _ _ (fun s hs => ⟨hs.1, by simp [hs.2]⟩)
      · refine mem_ownStage.mpr (.inr (mem_plainStage.mpr (.inl ⟨?_, rfl⟩)))
        intro hnone
        rw [stageWrites, hnone] at hn
        exact absurd hn List.not_mem_nil
      · intro s k hs hk
        rw [step_updates hs] at hk
        cases hk
        refine ⟨hs, ?_⟩
        change (if d.name ∈ stageWrites entity route q.phase then some true else none).getD _ = true
        rw [if_pos hn]
        rfl
      · rintro y hy s k ⟨hleft, hmem⟩ hk
        obtain ⟨hk', hcases⟩ := step_cases (failing_stays c _ _ _ _ _ _) hleft hk
        refine ⟨hk', ?_⟩
        rcases hcases with ⟨hm, -, -⟩ | ⟨_, _, hpart, -⟩ | ⟨_, _, -, hδ, hm, -, -⟩ |
          ⟨_, _, r, -, hact, hm, -, -⟩
        · rw [hm, hmem]
        · rcases hpart with rfl | rfl
          · exact absurd hy id
          · exact absurd hy id
        · cases hδ
          rw [hm]
          exact update_same hmem
        · cases hact
          rw [hm]
          dsimp only
          exact update_same hmem

end Conditions

/-! ### Looking at a member before its default -/

section Looking

variable {program : Program} {entity : Entity} {route : Route} {d : Member}

/-- What writes the member in a stage without a transform of it depends on the member. -/
theorem stageReads_of_writes {phase : Option String} (hwrite : d.name ∈ stageWrites entity route phase)
    (hcommit : ¬ Commits entity route phase d) : StageReads entity route phase d := by
  obtain ⟨rt, hrt, hmem⟩ := List.mem_flatMap.mp hwrite
  refine ⟨rt, hrt, .inr (.inr ⟨?_, hmem⟩)⟩
  rintro rfl
  exact hcommit ⟨rt.2, hrt⟩

open Classical in
/-- Whatever looks at the member needs it to be `true`, which its slot does not start as. -/
noncomputable def requiring (entity : Entity) (route : Route) (d : Member) :
    Deployment entity route Bool Unit :=
  { writing entity route true (fun m => decide (m ≠ d)) true id with
    whereHolds := fun c σ _ => decide (Names entity c.condition d.name → σ d = true)
    computed := fun phase σ _ =>
      if StageReads entity route phase d ∧ σ d = false then none
      else some fun e => if e.name ∈ stageWrites entity route phase then some true else none
    act := fun _ phase a σ σ' w =>
      if (SeesAfter entity route phase a d ∧ σ d = false) ∨
          (SeesBefore entity route phase a d ∧ σ' d = false) then none
      else some (fun _ => none, w, false)
    where_congr := by
      intro c σ τ w hστ
      rw [decide_eq_decide]
      exact forall_congr' fun hd => by rw [hστ d hd]
    computed_congr := by
      intro phase σ τ w hστ
      by_cases hread : StageReads entity route phase d
      · rw [hστ d hread]
      · simp [hread]
    computed_frame := by
      intro phase σ w δ hδ e he
      split at hδ
      · cases hδ
      · cases hδ
        by_contra hnot
        exact he (if_neg hnot)
    computed_commits := by
      intro phase σ w δ hδ e hcommit hmap
      split at hδ
      · cases hδ
      · cases hδ
        simp [mem_stageWrites_of_commits hcommit hmap]
    act_congr := by
      intro own phase a σ σ' τ τ' w hafter hbefore
      have hσ : SeesAfter entity route phase a d ∧ σ d = false ↔
          SeesAfter entity route phase a d ∧ τ d = false :=
        and_congr_right fun hsees => by rw [hafter d hsees]
      have hσ' : SeesBefore entity route phase a d ∧ σ' d = false ↔
          SeesBefore entity route phase a d ∧ τ' d = false :=
        and_congr_right fun hsees => by rw [hbefore d hsees]
      simp only [hσ, hσ']
    act_frame := by
      intro own phase a σ σ' w δ w' left hact e he
      split at hact
      · cases hact
      · cases hact
        exact absurd rfl he
    act_stays := by
      intro own phase a σ σ' w δ w' hact
      split at hact
      · cases hact
      · cases hact
    act_scope := fun _ => rfl }

theorem requiring_stays : NeverLeaves (requiring entity route d) := by
  intro own phase a σ σ' w r h
  simp only [requiring] at h
  split at h
  · cases h
  · cases h
    rfl

theorem requiring_where {c : WhereClause} {σ : Member → Bool} {w : Unit} :
    (requiring entity route d).whereHolds c σ w = true ↔
      (Names entity c.condition d.name → σ d = true) := by
  simp [requiring]

/-- Nothing has returned and every member is `true`. -/
def Ready (s : Site Bool Unit) : Prop := s.left = false ∧ ∀ e, s.mem e = true

theorem ready_updates {s : Site Bool Unit} (hs : Ready s) (phase : Option String) : ∃ k,
    (requiring entity route d).step program true (.updates phase) s = some k ∧ Ready k ∧
      k.before = s.mem := by
  obtain ⟨hleft, hmem⟩ := hs
  have hcomputed : (requiring entity route d).computed phase s.mem s.world =
      some fun e => if e.name ∈ stageWrites entity route phase then some true else none := by
    simp only [requiring, hmem d, Bool.true_eq_false, and_false, if_false]
  rw [step_updates hleft, hcomputed]
  refine ⟨_, rfl, ⟨hleft, fun e => ?_⟩, rfl⟩
  dsimp only
  exact update_same (hmem e)

/-- A route of its own finds every member it looks at as it needs it. -/
theorem ready_stage {s : Site Bool Unit} (hs : Ready s) (st : Stage) : ∃ k,
    exec ((requiring entity route d).step program true) (ownStage entity route st) s = some k ∧
      Ready k := by
  have hwheres : exec ((requiring entity route d).step program true)
      (genWhereChecks st.phase st.wheres) s = some s :=
    exec_wheres fun c _ => by simp [requiring, hs.2 d]
  have hupdates : ∃ k, exec ((requiring entity route d).step program true)
      (genUpdates entity route st.phase) s = some k ∧ Ready k ∧
        (Commits entity route st.phase d → k.before d = true) := by
    unfold genUpdates
    split
    · next hnone =>
      refine ⟨s, rfl, hs, ?_⟩
      rintro ⟨t, ht⟩
      rw [List.isEmpty_iff.mp hnone] at ht
      exact absurd ht List.not_mem_nil
    · obtain ⟨k, hk, hready, hbefore⟩ := ready_updates hs st.phase
      refine ⟨k, ?_, hready, fun _ => by rw [hbefore, hs.2 d]⟩
      rw [exec_cons, hk]
      rfl
  obtain ⟨k, hk, hready⟩ := hupdates
  have hstmts : ∃ m, exec ((requiring entity route d).step program true)
      (st.actions.map (.stmt st.phase)) k = some m ∧
        (Ready m ∧ (Commits entity route st.phase d → m.before d = true)) := by
    refine exec_total ?_ hready
    rintro part hpart s ⟨⟨hleft, hmem⟩, hbefore⟩
    obtain ⟨a, -, rfl⟩ := List.mem_map.mp hpart
    have hact : (requiring entity route d).act true st.phase a s.mem s.before s.world =
        some (fun _ => none, s.world, false) := by
      apply if_neg
      rintro (⟨-, hnot⟩ | ⟨hsees, hnot⟩)
      · rw [hmem d] at hnot
        cases hnot
      · rw [hbefore hsees.2.1] at hnot
        cases hnot
    rw [step_stmt hleft, hact]
    exact ⟨_, rfl, ⟨rfl, hmem⟩, hbefore⟩
  obtain ⟨m, hm, hready, -⟩ := hstmts
  refine ⟨m, ?_, hready⟩
  rw [ownStage, exec_append, hwheres, Option.bind_some, plainStage, genStage, exec_append, hk,
    Option.bind_some, hm]

/-- A deployment in which the constructor has to find the member as it needs it. -/
theorem requiring_runs (h : PlainAsDeclared program entity route) (hd : d ∈ pending entity) :
    ∃ s, Started (requiring entity route d) () s ∧
      exec ((requiring entity route d).step program false) (initBody entity route) s ≠ none := by
  obtain ⟨hdefaulted, hown⟩ := List.mem_filter.mp hd
  obtain ⟨s, hs, hrun⟩ := h.start (requiring entity route d) ()
  refine ⟨s, hs, fun hnone => ?_⟩
  have hready : Ready (withDefaults program (requiring entity route d) s) := by
    refine ⟨hs.left, fun e => ?_⟩
    by_cases he : e = d
    · subst he
      refine assignAll_of_mem (P := fun _ => True) (fun σ _ => ?_) (fun _ _ _ _ _ => trivial) trivial
        (List.mem_filter.mpr ⟨hdefaulted, printsDefault_of_own hown⟩)
      rw [Deployment.value, if_pos hown]
      rfl
    · have hstart : s.mem e = true := by
        rcases hs.mem e with hmem | hmem
        · rw [hmem]
          simp [requiring, writing, he]
        · exact hmem
      refine assignAll_keeps (P := fun σ => σ e = true) ?_ hstart
      intro m _ _ σ hσ
      rw [assign]
      split
      · next heq =>
        subst heq
        unfold Deployment.value
        split
        · rfl
        · simp [requiring, writing, he]
      · exact hσ
  have hfroms : exec ((requiring entity route d).step program true) (genFromChecks route)
      (withDefaults program (requiring entity route d) s) =
        some (withDefaults program (requiring entity route d) s) := by
    apply exec_of_steps
    intro part hpart
    unfold genFromChecks at hpart
    split at hpart
    · exact absurd hpart List.not_mem_nil
    · rw [List.mem_singleton.mp hpart, step_fromCheck hready.1]
      rfl
  have hwheres : exec ((requiring entity route d).step program true)
      (genWhereChecks none route.whereClauses)
      (withDefaults program (requiring entity route d) s) =
        some (withDefaults program (requiring entity route d) s) :=
    by
    apply exec_wheres
    exact fun c _ => requiring_where.mpr fun _ => hready.2 d
  obtain ⟨k, hk, -⟩ : ∃ k, exec ((requiring entity route d).step program true)
      ((stagesOf route.body).flatMap (ownStage entity route))
      (withDefaults program (requiring entity route d) s) = some k ∧ Ready k :=
    exec_flatMap_total (fun st _ s hs => ready_stage hs st) hready
  rw [hnone, genRouteImpl_body, exec_append, exec_defaulted hs.left, Option.bind_some, exec_append,
    hfroms, Option.bind_some, exec_append, hwheres, Option.bind_some, hk] at hrun
  cases hrun

/-- A part of a constructor that does not commit the member. -/
def Harmless (entity : Entity) (route : Route) (d : Member) : Part → Prop
  | .whereCheck _ _ | .stmt _ _ => True
  | .updates phase => ¬ Commits entity route phase d
  | .setFactory | .factoryOnce | .setIdentity _ | .setDefault _ | .fromCheck _ => False

theorem harmless_keeps {part : Part} (hpart : Harmless entity route d part) {s k : Site Bool Unit}
    (hs : s.left = false ∧ s.mem d = false)
    (h : (requiring entity route d).step program false part s = some k) :
    k.left = false ∧ k.mem d = false := by
  obtain ⟨hk, hcases⟩ := step_cases requiring_stays hs.1 h
  refine ⟨hk, ?_⟩
  rcases hcases with ⟨hm, -, -⟩ | ⟨_, _, rfl | rfl, -⟩ | ⟨phase, δ, rfl, hδ, hm, -, -⟩ |
    ⟨phase, a, r, rfl, hact, hm, -, -⟩
  · rw [hm, hs.2]
  · exact absurd hpart id
  · exact absurd hpart id
  · simp only [requiring] at hδ
    split at hδ
    · cases hδ
    · next hread =>
      cases hδ
      rw [hm, update_of_eq_none, hs.2]
      apply if_neg
      exact fun hwrite => hread ⟨stageReads_of_writes hwrite hpart, hs.2⟩
  · simp only [requiring] at hact
    split at hact
    · cases hact
    · cases hact
      rw [hm, update_of_eq_none rfl, hs.2]

theorem initBody_split (hacc : checkRoutePhases entity route = []) {earlier later : List Stage}
    {st : Stage} (hsplit : stagesOf route.body = earlier ++ st :: later) :
    initBody entity route = (genWhereChecks none route.whereClauses ++
      earlier.flatMap (plainStage entity route)) ++ (plainStage entity route st ++
        (later.flatMap (plainStage entity route) ++
          (defaultedAfter entity route).map .setDefault)) := by
  rw [initBody_stages hacc, hsplit]
  simp only [List.flatMap_append, List.flatMap_cons, List.append_assoc]

theorem harmless_plainStage {st : Stage} (h : ¬ Commits entity route st.phase d) {part : Part}
    (hpart : part ∈ plainStage entity route st) : Harmless entity route d part := by
  rcases mem_plainStage.mp hpart with ⟨-, rfl⟩ | ⟨a, -, rfl⟩
  · exact h
  · trivial

theorem harmless_before {earlier : List Stage} (h : ∀ q ∈ earlier, ¬ Commits entity route q.phase d)
    {part : Part} (hpart : part ∈ genWhereChecks none route.whereClauses ++
      earlier.flatMap (plainStage entity route)) : Harmless entity route d part := by
  rcases List.mem_append.mp hpart with hpart | hpart
  · obtain ⟨c, -, rfl⟩ := mem_wheres.mp hpart
    trivial
  · obtain ⟨q, hq, hpart⟩ := List.mem_flatMap.mp hpart
    exact harmless_plainStage (h q hq) hpart

/-- No part can need the member before something commits it. -/
theorem not_required (h : PlainAsDeclared program entity route) (hd : d ∈ pending entity)
    {before after : List Part} {part : Part} (hcode : initBody entity route = before ++ part :: after)
    (hbefore : ∀ x ∈ before, Harmless entity route d x)
    (hfail : ∀ s : Site Bool Unit, s.left = false ∧ s.mem d = false →
      (requiring entity route d).step program false part s = none) : False := by
  obtain ⟨s, hs, hrun⟩ := requiring_runs h hd
  apply hrun
  rw [hcode]
  have hzero : s.mem d = false := by
    rw [hs.zero d (mem_defaulted.mp (List.mem_filter.mp hd).1).2.1]
    simp [requiring, writing]
  exact exec_fails (P := fun s => s.left = false ∧ s.mem d = false)
    (fun x hx s k hs hk => harmless_keeps (hbefore x hx) hs hk) hfail ⟨hs.left, hzero⟩

theorem unread_entry (h : PlainAsDeclared program entity route)
    (hacc : checkRoutePhases entity route = []) {c : WhereClause} (hc : c ∈ route.whereClauses)
    (hd : d ∈ pending entity) : ¬ Names entity c.condition d.name := by
  intro hnames
  obtain ⟨u, v, huv⟩ := List.append_of_mem (mem_wheres.mpr ⟨c, hc, rfl⟩ :
    Part.whereCheck none c ∈ genWhereChecks none route.whereClauses)
  have hcode : initBody entity route = u ++ .whereCheck none c :: (v ++
      ((stagesOf route.body).flatMap (plainStage entity route) ++
        (defaultedAfter entity route).map .setDefault)) := by
    rw [initBody_stages hacc, huv, List.append_assoc, List.cons_append]
  refine not_required h hd hcode ?_ ?_
  · intro x hx
    obtain ⟨c', -, rfl⟩ := mem_wheres.mp (huv ▸ List.mem_append_left _ hx :
      x ∈ genWhereChecks none route.whereClauses)
    trivial
  · rintro s ⟨hleft, hmem⟩
    rw [step_whereCheck hleft, if_neg]
    simp [requiring, hnames, hmem]

theorem unread_transforms (h : PlainAsDeclared program entity route)
    (hacc : checkRoutePhases entity route = []) {earlier later : List Stage} {st : Stage}
    (hsplit : stagesOf route.body = earlier ++ st :: later) (hd : d ∈ pending entity)
    (hnone : ∀ q ∈ earlier, ¬ Commits entity route q.phase d) :
    ¬ StageReads entity route st.phase d := by
  intro hread
  have hstage : plainStage entity route st =
      .updates st.phase :: st.actions.map (.stmt st.phase) := by
    obtain ⟨rt, hrt, -⟩ := hread
    rw [plainStage, genStage, genUpdates, if_neg]
    · rfl
    · rw [List.isEmpty_iff]
      intro hnil
      rw [hnil] at hrt
      exact absurd hrt List.not_mem_nil
  have hcode := initBody_split hacc hsplit
  rw [hstage, List.cons_append] at hcode
  apply not_required h hd hcode (fun x hx => harmless_before hnone hx)
  rintro s ⟨hleft, hmem⟩
  rw [step_updates hleft, Option.map_eq_none_iff]
  exact if_pos ⟨hread, hmem⟩

/-- The code of the constructor around an action of a stage. -/
theorem initBody_action (hacc : checkRoutePhases entity route = []) {earlier later : List Stage}
    {st : Stage} (hsplit : stagesOf route.body = earlier ++ st :: later) {a : RouteAction}
    (ha : a ∈ st.actions) :
    ∃ u rest, (∀ x ∈ u, x ∈ plainStage entity route st) ∧
      initBody entity route = ((genWhereChecks none route.whereClauses ++
        earlier.flatMap (plainStage entity route)) ++ u) ++ .stmt st.phase a :: rest := by
  obtain ⟨u, v, huv⟩ := List.append_of_mem (mem_plainStage.mpr (.inr ⟨a, ha, rfl⟩) :
    Part.stmt st.phase a ∈ plainStage entity route st)
  refine ⟨u, v ++ (later.flatMap (plainStage entity route) ++
    (defaultedAfter entity route).map .setDefault), ?_, ?_⟩
  · exact fun x hx => huv ▸ List.mem_append_left _ hx
  · rw [initBody_split hacc hsplit, huv]
    simp only [List.append_assoc, List.cons_append]

theorem unseen_after (h : PlainAsDeclared program entity route)
    (hacc : checkRoutePhases entity route = []) {earlier later : List Stage} {st : Stage}
    (hsplit : stagesOf route.body = earlier ++ st :: later) (hd : d ∈ pending entity)
    (hnone : ∀ q ∈ earlier, ¬ Commits entity route q.phase d) {a : RouteAction}
    (ha : a ∈ st.actions) (hst : ¬ Commits entity route st.phase d) :
    ¬ SeesAfter entity route st.phase a d := by
  intro hsees
  obtain ⟨u, rest, hbefore, hcode⟩ := initBody_action hacc hsplit ha
  apply not_required h hd hcode
  · intro x hx
    rcases List.mem_append.mp hx with hx | hx
    · exact harmless_before hnone hx
    · exact harmless_plainStage hst (hbefore x hx)
  · rintro s ⟨hleft, hmem⟩
    rw [step_stmt hleft, Option.map_eq_none_iff]
    exact if_pos (.inl ⟨hsees, hmem⟩)

theorem unseen_before (h : PlainAsDeclared program entity route)
    (hacc : checkRoutePhases entity route = []) {earlier later : List Stage} {st : Stage}
    (hsplit : stagesOf route.body = earlier ++ st :: later) (hd : d ∈ pending entity)
    (hnone : ∀ q ∈ earlier, ¬ Commits entity route q.phase d) {a : RouteAction}
    (ha : a ∈ st.actions) : ¬ SeesBefore entity route st.phase a d := by
  intro hsees
  obtain ⟨u, v, huv⟩ := List.append_of_mem ha
  have hstage : plainStage entity route st = .updates st.phase :: (u.map (.stmt st.phase) ++
      .stmt st.phase a :: v.map (.stmt st.phase)) := by
    rw [plainStage, genStage, genUpdates, if_neg, huv, List.map_append, List.map_cons]
    · rfl
    · rw [List.isEmpty_iff]
      intro hnil
      obtain ⟨t, ht⟩ := hsees.2.1
      rw [hnil] at ht
      exact absurd ht List.not_mem_nil
  obtain ⟨s, hs, hrun⟩ := requiring_runs h hd
  have hzero : s.mem d = false := by
    rw [hs.zero d (mem_defaulted.mp (List.mem_filter.mp hd).1).2.1]
    simp [requiring, writing]
  have hcode : initBody entity route = (genWhereChecks none route.whereClauses ++
      earlier.flatMap (plainStage entity route)) ++ .updates st.phase :: (u.map (.stmt st.phase) ++
        .stmt st.phase a :: (v.map (.stmt st.phase) ++
          (later.flatMap (plainStage entity route) ++
            (defaultedAfter entity route).map .setDefault))) := by
    rw [initBody_split hacc hsplit, hstage]
    simp only [List.append_assoc, List.cons_append]
  apply hrun
  rw [hcode]
  refine exec_fails_behind (P := fun s => s.left = false ∧ s.mem d = false)
    (Q := fun s => s.left = false ∧ s.before d = false)
    (fun x hx s k hs hk => harmless_keeps (harmless_before hnone hx) hs hk) ?_ ?_ ?_ ⟨hs.left, hzero⟩
  · rintro s k ⟨hleft, hmem⟩ hk
    rw [step_updates hleft] at hk
    obtain ⟨δ, -, rfl⟩ := Option.map_eq_some_iff.mp hk
    exact ⟨hleft, hmem⟩
  · rintro x hx s k ⟨hleft, hbefore⟩ hk
    obtain ⟨b, -, rfl⟩ := List.mem_map.mp hx
    refine ⟨step_stays requiring_stays hleft hk, ?_⟩
    rw [step_stmt hleft] at hk
    obtain ⟨r, -, rfl⟩ := Option.map_eq_some_iff.mp hk
    exact hbefore
  · rintro s ⟨hleft, hbefore⟩
    rw [step_stmt hleft, Option.map_eq_none_iff]
    exact if_pos (.inr ⟨hsees, hbefore⟩)

/-! ### Returning before a default -/

open Classical in
/-- One action returns where it can, and the slot of the member does not start as its default. -/
noncomputable def returning (entity : Entity) (route : Route) (d : Member) (a : RouteAction) :
    Deployment entity route Bool Unit :=
  { writing entity route true (fun m => decide (m ≠ d)) true id with
    act := fun _ _ a' _ _ w => some (fun _ => none, w, decide (a' = a ∧ MayReturn a'))
    act_congr := fun _ _ _ _ _ _ _ _ _ _ => rfl
    act_frame := by
      intro own phase a' σ σ' w δ w' left hact e he
      cases hact
      exact absurd rfl he
    act_stays := by
      intro own phase a' σ σ' w δ w' hact
      simp only [Option.some.injEq, Prod.mk.injEq, decide_eq_true_eq] at hact
      exact hact.2.2.2
    act_scope := fun _ => rfl }

theorem returning_keeps {a : RouteAction} {own : Bool} {part : Part} (hpart : StagePart part)
    {s k : Site Bool Unit} (hs : s.mem d = true)
    (h : (returning entity route d a).step program own part s = some k) : k.mem d = true := by
  refine step_keeps (P := fun s => s.mem d = true) (fun hleft k h => ?_) hs h
  cases part with
  | whereCheck phase c =>
    rw [step_whereCheck hleft] at h
    cases h
    exact hs
  | updates phase =>
    rw [step_updates hleft] at h
    cases h
    dsimp only
    exact update_same hs
  | stmt phase a' =>
    rw [step_stmt hleft] at h
    cases h
    exact hs
  | _ => exact absurd hpart id

/-- A part of a constructor that leaves the member at zero. -/
theorem returning_leaves {a : RouteAction} {part : Part} (hpart : Harmless entity route d part)
    (hread : ∀ phase, part = .updates phase → ¬ StageReads entity route phase d)
    {s k : Site Bool Unit} (hs : s.mem d = false)
    (h : (returning entity route d a).step program false part s = some k) : k.mem d = false := by
  refine step_keeps (P := fun s => s.mem d = false) (fun hleft k h => ?_) hs h
  cases part with
  | whereCheck phase c =>
    rw [step_whereCheck hleft] at h
    cases h
    exact hs
  | updates phase =>
    rw [step_updates hleft] at h
    cases h
    have hskip : d.name ∉ stageWrites entity route phase :=
      fun hwrite => hread phase rfl (stageReads_of_writes hwrite hpart)
    dsimp only
    rw [update_of_eq_none, hs]
    exact if_neg hskip
  | stmt phase a' =>
    rw [step_stmt hleft] at h
    cases h
    exact hs
  | _ => exact absurd hpart id

theorem returning_goes {a : RouteAction} {own : Bool} (part : Part) :
    Goes (returning entity route d a) own part := by
  cases part with
  | fromCheck cs => exact fun _ _ => rfl
  | whereCheck phase c => exact fun _ _ => rfl
  | updates phase => exact fun _ _ => Option.some_ne_none _
  | stmt phase a' => exact fun _ _ _ => Option.some_ne_none _
  | _ => trivial

/-- A route of its own ends with the member at its default or at what a transform made of it. -/
theorem returning_declared {a : RouteAction} (hd : d ∈ pending entity) {s k : Site Bool Unit}
    (hleft : s.left = false) (hk : exec ((returning entity route d a).step program true)
      ((defaulted entity).map .setDefault ++ (genRouteImpl entity route).body) s = some k) :
    k.mem d = true := by
  obtain ⟨hdefaulted, hown⟩ := List.mem_filter.mp hd
  rw [exec_append, exec_defaulted hleft, Option.bind_some, genRouteImpl_body, exec_append] at hk
  obtain ⟨s₁, hs₁, hk⟩ := Option.bind_eq_some_iff.mp hk
  have hstart : (withDefaults program (returning entity route d a) s).mem d = true := by
    refine assignAll_of_mem (P := fun _ => True) (fun σ _ => ?_) (fun _ _ _ _ _ => trivial) trivial
      (List.mem_filter.mpr ⟨hdefaulted, printsDefault_of_own hown⟩)
    rw [Deployment.value, if_pos hown]
    rfl
  have hs₁ : s₁.mem d = true := by
    refine exec_keeps (P := fun s => s.mem d = true) ?_ hstart hs₁
    intro part hpart s k hs hk
    unfold genFromChecks at hpart
    split at hpart
    · exact absurd hpart List.not_mem_nil
    · rw [List.mem_singleton.mp hpart] at hk
      refine step_keeps (P := fun s => s.mem d = true) (fun hleft k hk => ?_) hs hk
      rw [step_fromCheck hleft] at hk
      cases hk
      exact hs
  refine exec_keeps (P := fun s => s.mem d = true) ?_ hs₁ hk
  intro part hpart s k hs hk
  refine returning_keeps ?_ hs hk
  rcases List.mem_append.mp hpart with hpart | hpart
  · obtain ⟨c, -, rfl⟩ := mem_wheres.mp hpart
    trivial
  · obtain ⟨q, -, hpart⟩ := List.mem_flatMap.mp hpart
    exact stagePart_of_mem hpart

theorem no_return (h : PlainAsDeclared program entity route)
    (hacc : checkRoutePhases entity route = []) {earlier later : List Stage} {st : Stage}
    (hsplit : stagesOf route.body = earlier ++ st :: later) (hd : d ∈ pending entity)
    (hnone : ∀ q ∈ earlier, ¬ Commits entity route q.phase d) {a : RouteAction}
    (ha : a ∈ st.actions) (hst : ¬ Commits entity route st.phase d) : ¬ MayReturn a := by
  intro hreturn
  obtain ⟨s, hs, hrun⟩ := h.start (returning entity route d a) ()
  obtain ⟨k, hk⟩ : ∃ k, exec ((returning entity route d a).step program true)
      ((defaulted entity).map .setDefault ++ (genRouteImpl entity route).body) s = some k :=
    exec_goes (fun part _ => returning_goes part) s
  have hdeclared := returning_declared hd hs.left hk
  -- the constructor returns before anything gives the member a value
  obtain ⟨u, rest, hstage, hcode⟩ := initBody_action hacc hsplit ha
  have hbefore : ∀ x ∈ (genWhereChecks none route.whereClauses ++
      earlier.flatMap (plainStage entity route)) ++ u, Harmless entity route d x ∧
        ∀ phase, x = .updates phase → ¬ StageReads entity route phase d := by
    intro x hx
    rcases List.mem_append.mp hx with hx | hx
    · refine ⟨harmless_before hnone hx, ?_⟩
      rintro phase rfl
      rcases List.mem_append.mp hx with hx | hx
      · obtain ⟨c, -, heq⟩ := mem_wheres.mp hx
        cases heq
      · obtain ⟨q, hq, hx⟩ := List.mem_flatMap.mp hx
        rcases mem_plainStage.mp hx with ⟨-, heq⟩ | ⟨b, -, heq⟩
        · cases heq
          obtain ⟨e, e', rfl⟩ := List.append_of_mem hq
          rw [List.append_assoc, List.cons_append] at hsplit
          exact unread_transforms h hacc hsplit hd fun r hr => hnone r (List.mem_append_left _ hr)
        · cases heq
    · have hx : x ∈ plainStage entity route st := hstage x hx
      refine ⟨harmless_plainStage hst hx, ?_⟩
      rintro phase rfl
      rcases mem_plainStage.mp hx with ⟨-, heq⟩ | ⟨b, -, heq⟩
      · cases heq
        exact unread_transforms h hacc hsplit hd hnone
      · cases heq
  obtain ⟨m, hm⟩ : ∃ m, exec ((returning entity route d a).step program false)
      ((genWhereChecks none route.whereClauses ++ earlier.flatMap (plainStage entity route)) ++ u) s =
        some m := exec_goes (fun part _ => returning_goes part) s
  have hmem : m.mem d = false := by
    refine exec_keeps (P := fun s => s.mem d = false) (fun x hx s k hs hk =>
      returning_leaves (hbefore x hx).1 (hbefore x hx).2 hs hk) ?_ hm
    rw [hs.zero d (mem_defaulted.mp (List.mem_filter.mp hd).1).2.1]
    simp [returning, writing]
  obtain ⟨k', hk', hleft', hmem'⟩ : ∃ k', (returning entity route d a).step program false
      (.stmt st.phase a) m = some k' ∧ k'.left = true ∧ k'.mem d = false := by
    cases hleft : m.left with
    | true => exact ⟨m, step_of_left hleft, hleft, hmem⟩
    | false =>
      rw [step_stmt hleft]
      exact ⟨_, rfl, by simpa using hreturn, hmem⟩
  rw [hk, hcode, exec_append, hm, Option.bind_some, exec_cons, hk', Option.bind_some,
    exec_of_left hleft', Option.map_some, Option.map_some, Option.some.injEq, Prod.mk.injEq] at hrun
  rw [hrun.1, hdeclared] at hmem'
  cases hmem'

end Looking

end CambrianLang.Construction
