/-
  **The transforms of a route or phase in the lowered program** (`collect_transforms`,
  `ir/lower.rs`).

  The transforms are gathered in the order of the members and sorted by the position of
  their member in the order of the route.  That order knows the `^member` references the
  dependency collector sees, and the collector stays out of `address_of` and `encode`.
-/
import CambrianLang.Validate.TemporalPlacement

namespace CambrianLang.Ir

open Ast Analysis Validate Relation

variable {β : Type}

/-! ### Lowering -/

/-- A lowered transform; `β` is what bodies are lowered to. -/
structure IrTransform (β : Type) where
  member : String
  phase : Option String
  body : β
deriving DecidableEq

def matchesPhase : Option String → Option String → Bool
  | none, none => true
  | some p, some tp => p == tp
  | _, _ => false

section Lower

variable (lowerExpr : Expr → β)

def lowerTransform (rt : Member × MemberTransform) : IrTransform β where
  member := rt.1.name
  phase := rt.2.phase
  body := lowerExpr rt.2.body

/-- The transforms before they are sorted. -/
def gatherTransforms (entity : Entity) (routeName : String) (phaseName : Option String) :
    List (IrTransform β) :=
  (entity.members.filter (!·.isIdentity)).flatMap fun member =>
    ((member.transforms.filter (·.routeName == routeName)).filter
      (matchesPhase phaseName ·.phase)).map fun transform => lowerTransform lowerExpr (member, transform)

/-- The key of the sort; a member that is not in the order goes last. -/
def sortKey (order : List String) (t : IrTransform β) : Nat := order.idxOf t.member

/-- `collect_transforms`; `temporal` is what the program's graphs hold for the entity. -/
def collectTransforms (temporal : Option (List TemporalOrder)) (entity : Entity)
    (routeName : String) (phaseName : Option String) : List (IrTransform β) :=
  let transforms := gatherTransforms lowerExpr entity routeName phaseName
  match temporal.bind fun orders => orders.find? (·.routeName == routeName) with
  | some ord => transforms.insertionSort fun a b => sortKey ord.order a ≤ sortKey ord.order b
  | none => transforms

end Lower

/-! ### The property -/

/-- The transforms of a route and phase of the members that are no identity. -/
def phaseTransforms (entity : Entity) (routeName : String) (phaseName : Option String) :
    List (Member × MemberTransform) :=
  entity.members.flatMap fun m =>
    (m.transforms.filter fun t => !m.isIdentity && t.routeName == routeName &&
      decide (t.phase = phaseName)).map fun t => (m, t)

/-- `^n` stands somewhere in the expression. -/
def Contains (e : Expr) (n : String) : Prop :=
  ReflTransGen (fun a b => b ∈ a.children) e (.temporalRef n)

/-- The first of the two does not need the second one's value. -/
def Respects (r t : Member × MemberTransform) : Prop :=
  t.1.name ≠ r.1.name → ¬ Contains r.2.body t.1.name

/-- A reference from one transform of the route and phase to another member's. -/
structure RefersTo (entity : Entity) (routeName : String) (phaseName : Option String)
    (r t : Member × MemberTransform) : Prop where
  source : r ∈ phaseTransforms entity routeName phaseName
  target : t ∈ phaseTransforms entity routeName phaseName
  other : t.1.name ≠ r.1.name
  contains : Contains r.2.body t.1.name

/-- Every reference is one that references outside `address_of` and `encode` lead to. -/
def Accounted (entity : Entity) (routeName : String) (phaseName : Option String) : Prop :=
  ∀ r t, RefersTo entity routeName phaseName r t →
    TransGen (WrittenOpenly entity routeName) r.1.name t.1.name

/-- Some reference goes against the references outside `address_of` and `encode`. -/
def Contradicted (entity : Entity) (routeName : String) (phaseName : Option String) : Prop :=
  ∃ r t, RefersTo entity routeName phaseName r t ∧
    TransGen (WrittenOpenly entity routeName) t.1.name r.1.name

/-! ### The schedule, lowered -/

theorem matchesPhase_eq (p q : Option String) : matchesPhase p q = (q == p) := by
  cases p with
  | none => cases q <;> rfl
  | some p =>
    cases q with
    | none => rfl
    | some q => exact Bool.beq_comm

theorem phaseTransforms_eq (entity : Entity) (routeName : String) (phaseName : Option String) :
    phaseTransforms entity routeName phaseName =
      Analysis.collectTransforms entity routeName phaseName := by
  unfold phaseTransforms Analysis.collectTransforms
  induction entity.members with
  | nil => rfl
  | cons m members ih =>
    rw [List.flatMap_cons, ih, List.filter_cons]
    cases hid : m.isIdentity with
    | true => simp
    | false =>
      simp only [Bool.not_false, Bool.true_and, if_true, List.flatMap_cons, List.filter_filter]
      congr 3
      funext t
      rw [Bool.and_comm]
      congr 1
      exact (beq_eq_decide _ _).symm

variable (lowerExpr : Expr → β)

theorem gatherTransforms_eq (entity : Entity) (routeName : String) (phaseName : Option String) :
    gatherTransforms lowerExpr entity routeName phaseName =
      (Analysis.collectTransforms entity routeName phaseName).map (lowerTransform lowerExpr) := by
  simp only [gatherTransforms, Analysis.collectTransforms, List.map_flatMap, List.map_map,
    matchesPhase_eq]
  rfl

/-- `collect_transforms` lowers the schedule of the back ends. -/
theorem collectTransforms_eq (entity : Entity) (routeName : String) (phaseName : Option String) :
    collectTransforms lowerExpr (some (temporalOrders entity)) entity routeName phaseName =
      (schedule entity routeName phaseName).map (lowerTransform lowerExpr) := by
  unfold collectTransforms schedule orderTransformsTemporally
  rw [Option.bind_some, gatherTransforms_eq]
  cases (temporalOrders entity).find? (·.routeName == routeName) with
  | none => rfl
  | some ord =>
    symm
    apply List.map_insertionSort
    intro a _ b _
    exact Iff.rfl

theorem schedule_perm (entity : Entity) (routeName : String) (phaseName : Option String) :
    (schedule entity routeName phaseName).Perm (phaseTransforms entity routeName phaseName) := by
  rw [phaseTransforms_eq, schedule, orderTransformsTemporally]
  cases (temporalOrders entity).find? (·.routeName == routeName) with
  | none => exact List.Perm.refl _
  | some ord => exact List.perm_insertionSort _ _

/-! ### Along written references -/

section Order

variable {entity : Entity} {routeName : String} {phaseName : Option String}

theorem mem_membersInRoute_of_phase {rt : Member × MemberTransform}
    (h : rt ∈ phaseTransforms entity routeName phaseName) :
    rt.1.name ∈ membersInRoute entity routeName := by
  rw [phaseTransforms_eq] at h
  obtain ⟨hm, ht, hroute⟩ := mem_collectTransforms h
  exact mem_membersInRoute.mpr ⟨rt.1, hm, rfl, rt.2, ht, hroute⟩

theorem WrittenOpenly.dep (h : NoErrors (checkTemporalDag entity)) {a b : String}
    (hw : WrittenOpenly entity routeName a b) :
    a ∈ membersInRoute entity routeName ∧ b ∈ temporalDeps entity routeName a := by
  obtain ⟨m, hm, rfl, t, ht, rfl, hpath⟩ := hw
  have hwalk := mem_collectTemporalRefs.mpr hpath
  refine ⟨mem_membersInRoute.mpr ⟨m, hm, rfl, t, ht, rfl⟩, ?_⟩
  exact mem_temporalDeps.mpr ⟨isMember_of_collected h hm ht hwalk, t.body,
    mem_routeTransforms.mpr ⟨m, hm, rfl, t, ht, rfl, rfl⟩, hwalk⟩

/-- What references lead to stands before, by induction on the chain. -/
theorem idxOf_lt_of_written (h : NoErrors (checkTemporalDag entity)) {order : List String}
    (hsort : sortMembers entity routeName = .ok order) {a b : String}
    (hab : TransGen (WrittenOpenly entity routeName) a b)
    (hb : b ∈ membersInRoute entity routeName) : order.idxOf b < order.idxOf a := by
  induction hab with
  | single hw =>
    obtain ⟨ha, hdep⟩ := WrittenOpenly.dep h hw
    exact idxOf_lt_of_deps hsort ha hdep hb
  | tail _ hw ih =>
    obtain ⟨hmid, hdep⟩ := WrittenOpenly.dep h hw
    exact (idxOf_lt_of_deps hsort hmid hdep hb).trans (ih hmid)

/-- The schedule is sorted by one order of the members, which follows the references. -/
theorem schedule_sorted (h : NoErrors (checkTemporalDag entity)) :
    ∃ order : List String,
      (schedule entity routeName phaseName).Pairwise
        (fun r t => order.idxOf r.1.name ≤ order.idxOf t.1.name) ∧
      ∀ a b, TransGen (WrittenOpenly entity routeName) a b →
        b ∈ membersInRoute entity routeName → order.idxOf b < order.idxOf a := by
  by_cases hne : Analysis.collectTransforms entity routeName phaseName = []
  · have hnil : schedule entity routeName phaseName = [] := by
      have hperm := schedule_perm entity routeName phaseName
      rw [phaseTransforms_eq, hne] at hperm
      exact hperm.eq_nil
    rw [hnil]
    by_cases hroute : routeName ∈ transformedRoutes entity
    · obtain ⟨order, hsort⟩ := sortMembers_ok h hroute
      exact ⟨order, List.Pairwise.nil, fun a b hab hb => idxOf_lt_of_written h hsort hab hb⟩
    · refine ⟨[], List.Pairwise.nil, ?_⟩
      intro a b _ hb
      obtain ⟨m, hm, -, t, ht, hname⟩ := mem_membersInRoute.mp hb
      exact absurd (hname ▸ mem_transformedRoutes hm ht) hroute
  · obtain ⟨order, hsort, heq⟩ := schedule_eq h hne
    refine ⟨order, ?_, fun a b hab hb => idxOf_lt_of_written h hsort hab hb⟩
    rw [heq]
    have : Std.Total fun a b : Member × MemberTransform => orderKey order a ≤ orderKey order b :=
      ⟨fun a b => Nat.le_total _ _⟩
    have : IsTrans (Member × MemberTransform) fun a b => orderKey order a ≤ orderKey order b :=
      ⟨fun _ _ _ hab hbc => Nat.le_trans hab hbc⟩
    exact List.pairwise_insertionSort (fun a b => orderKey order a ≤ orderKey order b) _

/-- In a sorted list the smaller of two entries comes first. -/
theorem related_of_key_lt {α : Type} {l : List α} {key : α → Nat} {R : α → α → Prop}
    (hsorted : l.Pairwise fun a b => key a ≤ key b) (hR : l.Pairwise R) {a b : α} (ha : a ∈ l)
    (hb : b ∈ l) (hlt : key a < key b) : R a b := by
  obtain ⟨front, back, rfl⟩ := List.append_of_mem ha
  rcases List.mem_append.mp hb with hfront | hback
  · have hle := (List.pairwise_append.mp hsorted).2.2 b hfront a List.mem_cons_self
    omega
  · rcases List.mem_cons.mp hback with rfl | hback
    · omega
    · exact (List.pairwise_cons.mp (List.pairwise_append.mp hR).2.1).1 b hback

end Order

/-- **The order of the transforms.**  `collect_transforms` returns every transform of the
    route and phase once.  No transform runs before one whose new value it reads, provided
    every reference is accounted for by references outside `address_of` and `encode`;
    where one goes against those, some transform does. -/
theorem collectTransforms_order (entity : Entity) (h : NoErrors (checkTemporalDag entity))
    (routeName : String) (phaseName : Option String) :
    ∃ transforms : List (Member × MemberTransform),
      collectTransforms lowerExpr (some (temporalOrders entity)) entity routeName phaseName =
        transforms.map (lowerTransform lowerExpr) ∧
      transforms.Perm (phaseTransforms entity routeName phaseName) ∧
      (Accounted entity routeName phaseName → transforms.Pairwise Respects) ∧
      (Contradicted entity routeName phaseName → ¬ transforms.Pairwise Respects) := by
  have hperm := schedule_perm entity routeName phaseName
  obtain ⟨order, hsorted, hbefore⟩ := @schedule_sorted entity routeName phaseName h
  refine ⟨_, collectTransforms_eq lowerExpr entity routeName phaseName, hperm, ?_, ?_⟩
  · intro hacc
    refine hsorted.imp_of_mem ?_
    intro r t hr ht hle hne hcontains
    have href : RefersTo entity routeName phaseName r t :=
      ⟨hperm.mem_iff.mp hr, hperm.mem_iff.mp ht, hne, hcontains⟩
    have hlt := hbefore _ _ (hacc r t href) (mem_membersInRoute_of_phase href.target)
    omega
  · rintro ⟨r, t, href, hchain⟩ hresp
    have hlt := hbefore _ _ hchain (mem_membersInRoute_of_phase href.source)
    have hrel := related_of_key_lt hsorted hresp (hperm.mem_iff.mpr href.source)
      (hperm.mem_iff.mpr href.target) hlt
    exact hrel href.other href.contains

/-! ### A reference inside `encode` -/

def tick (body : Expr) : MemberTransform where
  routeName := "tick"
  params := []
  body := body
  phase := none

/-- Two members; the transform of `a` is constant, the one of `b` is given. -/
def pairEntity (body : Expr) : Entity where
  name := "Pair"
  records := []
  enums := []
  typeAliases := []
  constants := []
  macros := []
  routes := []
  members := [
    { name := "a", ty := .simple "u64", isIdentity := false, defaultValue := none
      transforms := [tick (.boolLiteral true)] },
    { name := "b", ty := .simple "u64", isIdentity := false, defaultValue := none
      transforms := [tick body] }]

/-- `encode<u64>(^a)`. -/
def encodedRef : Expr := .encode (.simple "u64") (.temporalRef "a")

theorem contains_encodedRef : Contains encodedRef "a" :=
  .single List.mem_cons_self

theorem encoded_ref_misordered :
    NoErrors (checkTemporalDag (pairEntity encodedRef)) ∧
      (collectTransforms id (some (temporalOrders (pairEntity encodedRef))) (pairEntity encodedRef)
        "tick" none).map (·.member) = ["b", "a"] ∧
      ¬ (schedule (pairEntity encodedRef) "tick" none).Pairwise Respects := by
  have hschedule : ∃ r t, schedule (pairEntity encodedRef) "tick" none = [r, t] ∧
      r.2.body = encodedRef ∧ r.1.name = "b" ∧ t.1.name = "a" := ⟨_, _, rfl, rfl, rfl, rfl⟩
  refine ⟨by decide, rfl, ?_⟩
  obtain ⟨r, t, heq, hbody, hr, ht⟩ := hschedule
  rw [heq]
  intro hpair
  refine (List.pairwise_cons.mp hpair).1 t List.mem_cons_self ?_ ?_
  · rw [hr, ht]
    decide
  · rw [hbody, ht]
    exact contains_encodedRef

/-- `(^a, encode<u64>(^a))`. -/
def openRef : Expr := .tuple [.temporalRef "a", encodedRef]

theorem mem_pairTransforms {body : Expr} {rt : Member × MemberTransform}
    (h : rt ∈ phaseTransforms (pairEntity body) "tick" none) :
    (rt.1.name = "a" ∧ rt.2.body = .boolLiteral true) ∨ (rt.1.name = "b" ∧ rt.2.body = body) := by
  have hlist : ∃ x y, phaseTransforms (pairEntity body) "tick" none = [x, y] ∧
      (x.1.name = "a" ∧ x.2.body = .boolLiteral true) ∧ (y.1.name = "b" ∧ y.2.body = body) :=
    ⟨_, _, rfl, ⟨rfl, rfl⟩, ⟨rfl, rfl⟩⟩
  obtain ⟨x, y, heq, hx, hy⟩ := hlist
  rw [heq] at h
  rcases List.mem_cons.mp h with rfl | h
  · exact .inl hx
  · rw [List.mem_singleton.mp h]
    exact .inr hy

theorem not_contains_literal (b : Bool) (n : String) : ¬ Contains (.boolLiteral b) n := by
  intro h
  rcases ReflTransGen.cases_head h with heq | ⟨c, hc, -⟩
  · cases heq
  · exact absurd hc List.not_mem_nil

theorem openRef_accounted : Accounted (pairEntity openRef) "tick" none := by
  intro r t href
  rcases mem_pairTransforms href.source with ⟨-, hbody⟩ | ⟨hr, -⟩
  · exact (not_contains_literal true _ (hbody ▸ href.contains)).elim
  · rcases mem_pairTransforms href.target with ⟨ht, -⟩ | ⟨ht, -⟩
    · rw [hr, ht]
      refine .single ⟨_, List.mem_cons_of_mem _ List.mem_cons_self, rfl, _, List.mem_cons_self, rfl, ?_⟩
      exact .single List.mem_cons_self
    · exact absurd (ht.trans hr.symm) href.other

theorem open_ref_ordered : ∃ transforms : List (Member × MemberTransform),
    collectTransforms id (some (temporalOrders (pairEntity openRef))) (pairEntity openRef) "tick"
      none = transforms.map (lowerTransform id) ∧ transforms.Pairwise Respects := by
  obtain ⟨transforms, heq, -, hordered, -⟩ :=
    collectTransforms_order id (pairEntity openRef) (by decide) "tick" none
  exact ⟨transforms, heq, hordered openRef_accounted⟩

end CambrianLang.Ir
