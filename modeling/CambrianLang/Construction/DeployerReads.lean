/-
  **`msg::sender` during construction** (V62, `validate/entity.rs`).

  Under deterministic addresses the factory calls the constructor and `initialize`, and
  V62 keeps `msg::sender` out of the actions and transforms of the init route.  It does
  not look at the clauses of the route, at the defaults of members, at the bodies of
  macros or at the routes that the init route calls, all of which are evaluated as well.
-/
import CambrianLang.Construction.Probes
import CambrianLang.Solidity.AliasExpansion
import CambrianLang.Validate.EvmGate
import CambrianLang.Validate.Purity

namespace CambrianLang.Construction

open Ast Analysis Solidity StraightLine
open Validate Traversal Relation
open Semantics (Callee calls NestedIn)

/-! ### Where `msg::sender` is read -/

section Reads

variable (program : Program)

/-- Into a subexpression, or into the code of a macro or function that is called. -/
inductive Opens : Semantics.Scope × Expr → Semantics.Scope × Expr → Prop
  | child {sc : Semantics.Scope} {e c : Expr} (h : c ∈ e.children) : Opens (sc, e) (sc, c)
  | call {sc : Semantics.Scope} {e : Expr} {callee : Callee} {operands : List Expr}
      (h : calls program sc e = some (callee, operands)) : Opens (sc, e) (callee.scope, callee.body)

/-- Evaluating the expression may come to read `msg::sender`. -/
def ReadsSender (sc : Semantics.Scope) (e : Expr) : Prop :=
  ∃ sc', ReflTransGen (Opens program) (sc, e) (sc', .msgField "sender")

/-- A macro or function is called in the expression itself. -/
def CallsWithin (sc : Semantics.Scope) (e : Expr) (callee : Callee) : Prop :=
  ∃ c operands, walkExprSubtree.Reaches e c ∧ calls program sc c = some (callee, operands)

variable {program}

theorem isMsgSender_iff {e : Expr} : isMsgSender e = true ↔ e = .msgField "sender" := by
  cases e <;> simp [isMsgSender]

theorem exprReferencesMsgSender_iff {e : Expr} :
    exprReferencesMsgSender e = true ↔ walkExprSubtree.Reaches e (.msgField "sender") := by
  rw [exprReferencesMsgSender, List.any_eq_true]
  constructor
  · rintro ⟨c, hc, hsender⟩
    rw [Walker.mem_walk] at hc
    obtain ⟨b, hreach, hb⟩ := hc
    rw [List.mem_singleton.mp hb, isMsgSender_iff] at hsender
    rwa [hsender] at hreach
  · intro h
    exact ⟨_, (Walker.mem_walk _).mpr ⟨_, h, List.mem_singleton.mpr rfl⟩, rfl⟩

theorem opens_of_reaches {sc : Semantics.Scope} {e c : Expr} (h : walkExprSubtree.Reaches e c) :
    ReflTransGen (Opens program) (sc, e) (sc, c) := by
  induction h with
  | refl => exact .refl
  | tail _ hstep ih => exact ih.tail (.child hstep)

/-- **What V62 sees of an expression, and what it does not.** -/
theorem readsSender_iff {sc : Semantics.Scope} {e : Expr} :
    ReadsSender program sc e ↔ exprReferencesMsgSender e = true ∨
      ∃ callee, CallsWithin program sc e callee ∧ ReadsSender program callee.scope callee.body := by
  constructor
  · rintro ⟨sc', hpath⟩
    generalize hs : (sc, e) = s at hpath
    generalize ht : (sc', Expr.msgField "sender") = t at hpath
    induction hpath using ReflTransGen.head_induction_on generalizing sc e with
    | refl =>
      rw [← hs, Prod.mk.injEq] at ht
      rw [exprReferencesMsgSender_iff, ← ht.2]
      exact Or.inl .refl
    | @head a b hstep hrest ih =>
      subst hs
      cases hstep with
      | @child _ _ c h =>
        rcases ih rfl with hsender | ⟨callee, ⟨x, operands, hreach, hcall⟩, hreads⟩
        · rw [exprReferencesMsgSender_iff] at hsender ⊢
          exact Or.inl (.head h hsender)
        · exact Or.inr ⟨callee, ⟨x, operands, .head h hreach, hcall⟩, hreads⟩
      | @call _ _ callee operands h =>
        subst ht
        exact Or.inr ⟨callee, ⟨e, operands, .refl, h⟩, sc', hrest⟩
  · rintro (hsender | ⟨callee, ⟨c, operands, hreach, hcall⟩, sc', hpath⟩)
    · exact ⟨sc, opens_of_reaches (exprReferencesMsgSender_iff.mp hsender)⟩
    · exact ⟨sc', ((opens_of_reaches hreach).tail (.call hcall)).trans hpath⟩

end Reads

/-! ### What construction evaluates -/

section Positions

variable (entity : Entity)

/-- The init route, and the routes of the entity that it comes to call. -/
inductive ConstructionRoute : Route → Prop
  | init {r : Route} (h : findInitRoute entity = some r) : ConstructionRoute r
  | call {r r' : Route} {name : String} {args : List Expr} (h : ConstructionRoute r)
      (ha : NestedIn r (.callRoute name args)) (hr : entity.routes.find? (·.name == name) = some r') :
      ConstructionRoute r'

/-- The clauses of a route and of its phases, error arguments included. -/
def clausesOf (r : Route) : List Expr :=
  r.fromClauses.flatMap fromExprs ++ r.whereClauses.flatMap clauseExprs ++
    r.body.phaseBlocks.flatMap fun ph => ph.whereClauses.flatMap clauseExprs

/-- An expression of an action of the route, or a transform for it. -/
def InBody (r : Route) (e : Expr) : Prop :=
  (∃ a, NestedIn r a ∧ e ∈ a.exprs) ∨
    ∃ m ∈ entity.members, ∃ t ∈ m.transforms, t.routeName = r.name ∧ t.body = e

/-- An expression that is evaluated while the entity is constructed. -/
inductive ConstructionExpr : Expr → Prop
  | clause {r : Route} {e : Expr} (hr : ConstructionRoute entity r) (he : e ∈ clausesOf r) :
      ConstructionExpr e
  | body {r : Route} {e : Expr} (hr : ConstructionRoute entity r) (he : InBody entity r e) :
      ConstructionExpr e
  | default {m : Member} {e : Expr} (hm : m ∈ entity.members) (he : m.defaultValue = some e) :
      ConstructionExpr e

/-- The expressions that V62 walks. -/
def SenderChecked (e : Expr) : Prop := ∃ r, entity.routes.find? isInitRoute = some r ∧ InBody entity r e

end Positions

/-- Nothing that construction evaluates reads `msg::sender`. -/
def ConstructionIgnoresSender (program : Program) (entity : Entity) : Prop :=
  ∀ e, ConstructionExpr entity e → ¬ ReadsSender program (.entity entity) e

/-- Nothing that V62 leaves out does. -/
structure UncheckedIgnoreSender (program : Program) (entity : Entity) : Prop where
  /-- clauses, defaults, and the bodies of the routes that are called -/
  elsewhere : ∀ e, ConstructionExpr entity e → ¬ SenderChecked entity e →
    ¬ ReadsSender program (.entity entity) e
  /-- macros and functions called in the init route's actions and transforms -/
  called : ∀ e, ConstructionExpr entity e → SenderChecked entity e →
    ∀ callee, CallsWithin program (.entity entity) e callee →
      ¬ ReadsSender program callee.scope callee.body

theorem routeActionReferencesMsgSender_iff {a : RouteAction} :
    routeActionReferencesMsgSender a = true ↔
      ∃ b, Subaction a b ∧ ∃ e ∈ b.exprs, exprReferencesMsgSender e = true := by
  rw [routeActionReferencesMsgSender, List.any_eq_true]
  simp only [Walker.mem_walk, List.any_eq_true]
  constructor
  · rintro ⟨b, ⟨c, hreach, hb⟩, hsender⟩
    rw [List.mem_singleton.mp hb] at hsender
    exact ⟨c, hreach, hsender⟩
  · rintro ⟨b, hsub, hsender⟩
    exact ⟨b, ⟨b, hsub, List.mem_singleton.mpr rfl⟩, hsender⟩

/-- What an accepted entity's init route does not mention. -/
theorem checked_of_accepted {entity : Entity}
    (hacc : checkInitRouteMsgSenderUnderFactory entity = []) {e : Expr}
    (h : SenderChecked entity e) : exprReferencesMsgSender e = false := by
  obtain ⟨r, hr, hbody⟩ := h
  by_contra hsender
  rw [Bool.not_eq_false] at hsender
  have hreports : (r.body.allActions.any routeActionReferencesMsgSender ||
      entity.members.any (fun m => m.transforms.any fun t =>
        t.routeName == r.name && exprReferencesMsgSender t.body)) = true := by
    rw [Bool.or_eq_true]
    rcases hbody with ⟨a, ⟨b, hb, hsub⟩, he⟩ | ⟨m, hm, t, ht, hname, rfl⟩
    · left
      rw [List.any_eq_true]
      exact ⟨b, hb, routeActionReferencesMsgSender_iff.mpr ⟨a, hsub, e, he, hsender⟩⟩
    · right
      rw [List.any_eq_true]
      refine ⟨m, hm, ?_⟩
      rw [List.any_eq_true]
      refine ⟨t, ht, ?_⟩
      simp [hname, hsender]
  rw [checkInitRouteMsgSenderUnderFactory, hr] at hacc
  simp only [hreports, if_true] at hacc
  cases hacc

/-- For an accepted entity only what V62 leaves out matters. -/
theorem ignoresSender_iff (program : Program) {entity : Entity}
    (hacc : checkInitRouteMsgSenderUnderFactory entity = []) :
    ConstructionIgnoresSender program entity ↔ UncheckedIgnoreSender program entity := by
  constructor
  · intro h
    constructor
    · intro e he _
      exact h e he
    · intro e he _ callee hcall hreads
      exact h e he (readsSender_iff.mpr (Or.inr ⟨callee, hcall, hreads⟩))
  · intro h e he hreads
    by_cases hchecked : SenderChecked entity e
    · rcases readsSender_iff.mp hreads with hsender | ⟨callee, hcall, hbody⟩
      · rw [checked_of_accepted hacc hchecked] at hsender
        cases hsender
      · exact h.called e he hchecked callee hcall hbody
    · exact h.elsewhere e he hchecked hreads

/-! ### The deployed contract -/

section Deployments

variable (program : Program) (entity : Entity)

/-- From an action to a route that it calls, at any depth. -/
inductive Enters (a : RouteAction) : Route → Prop
  | call {r : Route} {name : String} {args : List Expr} (ha : Subaction a (.callRoute name args))
      (hr : entity.routes.find? (·.name == name) = some r) : Enters a r
  | nested {r r' : Route} {name : String} {args : List Expr} (h : Enters a r)
      (ha : NestedIn r (.callRoute name args)) (hr : entity.routes.find? (·.name == name) = some r') :
      Enters a r'

/-- Nothing that the action evaluates, or a route that it calls, reads `msg::sender`. -/
def ActionIgnoresSender (a : RouteAction) : Prop :=
  (∀ b, Subaction a b → ∀ e ∈ b.exprs, ¬ ReadsSender program (.entity entity) e) ∧
    ∀ r, Enters entity a r → ∀ e, e ∈ clausesOf r ∨ InBody entity r e →
      ¬ ReadsSender program (.entity entity) e

/-- Deployments of one entity, one for each account that `msg::sender` can be.  A part
    depends on the account only through expressions that read it. -/
structure SenderDeployments (A V W : Type) where
  deploys : A → Deployment entity (initRoute entity) V W
  zero_same : ∀ s s', (deploys s).zero = (deploys s').zero
  identity_same : ∀ s s', (deploys s).identity = (deploys s').identity
  declared_same : ∀ s s' m e, m.defaultValue = some e → ¬ ReadsSender program (.entity entity) e →
    ∀ own, (deploys s).declared own m = (deploys s').declared own m
  where_same : ∀ s s' c, ¬ ReadsSender program (.entity entity) c.condition →
    (deploys s).whereHolds c = (deploys s').whereHolds c
  computed_same : ∀ s s' phase,
    (∀ rt ∈ collectTransforms entity (initRoute entity).name phase,
      ¬ ReadsSender program (.entity entity) rt.2.body) →
    (deploys s).computed phase = (deploys s').computed phase
  act_same : ∀ s s' a, ActionIgnoresSender program entity a →
    ∀ own phase, (deploys s).act own phase a = (deploys s').act own phase a

/-- The contract is constructed in the same way whichever account `msg::sender` is. -/
def SameForAllSenders : Prop :=
  ∀ (A V W : Type) (D : SenderDeployments program entity A V W) (s s' : A) (w : W),
    (D.deploys s).run program false (deterministicConstruction entity) w =
      (D.deploys s').run program false (deterministicConstruction entity) w

end Deployments

variable {program : Program} {entity : Entity}

/-- What the parts of the construction are about. -/
def OfConstruction (entity : Entity) : Part → Prop
  | .setFactory | .factoryOnce | .setIdentity _ => True
  | .fromCheck _ => False
  | .whereCheck _ c => ∃ r, findInitRoute entity = some r ∧ c ∈ r.whereClauses
  | .updates _ => ∃ r, findInitRoute entity = some r
  | .stmt _ a => ∃ r, findInitRoute entity = some r ∧ a ∈ r.body.allActions
  | .setDefault m => m ∈ entity.members

theorem ofConstruction_defaults {ms : List Member} (h : ∀ m ∈ ms, m ∈ entity.members) {part : Part}
    (hpart : part ∈ ms.map Part.setDefault) : OfConstruction entity part := by
  obtain ⟨m, hm, rfl⟩ := mem_defaults.mp hpart
  exact h m hm

theorem ofConstruction_genUpdates {r : Route} (hr : findInitRoute entity = some r)
    {phase : Option String} {part : Part} (hpart : part ∈ genUpdates entity r phase) :
    OfConstruction entity part := by
  unfold genUpdates at hpart
  split at hpart
  · exact absurd hpart List.not_mem_nil
  · rw [List.mem_singleton.mp hpart]
    exact ⟨r, hr⟩

theorem ofConstruction_stage {r : Route} (hr : findInitRoute entity = some r) {phase : Option String}
    {actions : List RouteAction} (h : ∀ a ∈ actions, a ∈ r.body.allActions) {part : Part}
    (hpart : part ∈ genStage entity r phase actions) : OfConstruction entity part := by
  rcases List.mem_append.mp hpart with hupdates | hstmt
  · exact ofConstruction_genUpdates hr hupdates
  · obtain ⟨a, ha, rfl⟩ := List.mem_map.mp hstmt
    exact ⟨r, hr, h a ha⟩

theorem ofConstruction_updates {r : Route} (hr : findInitRoute entity = some r) {part : Part}
    (hpart : part ∈ initUpdates entity r) : OfConstruction entity part := by
  unfold initUpdates at hpart
  split at hpart
  · next actions hbody =>
    refine ofConstruction_stage hr (fun a ha => ?_) hpart
    rwa [hbody]
  · exact ofConstruction_genUpdates hr hpart

theorem ofConstruction_phases {r : Route} (hr : findInitRoute entity = some r) {part : Part}
    (hpart : part ∈ initPhases entity r) : OfConstruction entity part := by
  unfold initPhases at hpart
  split at hpart
  · exact absurd hpart List.not_mem_nil
  · next phases hbody =>
    obtain ⟨p, hp, hpart⟩ := List.mem_flatMap.mp hpart
    refine ofConstruction_stage hr (fun a ha => ?_) hpart
    rw [hbody]
    exact List.mem_flatMap.mpr ⟨p, hp, ha⟩
  · next phases actions hbody =>
    rcases List.mem_append.mp hpart with hphase | hstmt
    · obtain ⟨p, hp, hpart⟩ := List.mem_flatMap.mp hphase
      refine ofConstruction_stage hr (fun a ha => ?_) hpart
      rw [hbody]
      exact List.mem_append_left _ (List.mem_flatMap.mpr ⟨p, hp, ha⟩)
    · obtain ⟨a, ha, rfl⟩ := List.mem_map.mp hstmt
      refine ⟨r, hr, ?_⟩
      rw [hbody]
      exact List.mem_append_right _ ha

theorem mem_of_defaulted {m : Member} (h : m ∈ defaulted entity) : m ∈ entity.members :=
  List.mem_of_mem_filter h

theorem mem_of_defaultedAfter {r : Route} {m : Member} (h : m ∈ defaultedAfter entity r) :
    m ∈ entity.members :=
  mem_of_defaulted (List.mem_of_mem_filter h)

theorem ofConstruction_wheres {r : Route} (hr : findInitRoute entity = some r) {part : Part}
    (hpart : part ∈ genWhereChecks none r.whereClauses) : OfConstruction entity part := by
  obtain ⟨c, hc, rfl⟩ := mem_wheres.mp hpart
  exact ⟨r, hr, hc⟩

theorem ofConstruction_constructor {part : Part}
    (hpart : part ∈ (genConstructorDeterministic entity).parts) : OfConstruction entity part := by
  rcases List.mem_append.mp hpart with hpre | hbody
  · rcases List.mem_cons.mp hpre with rfl | hid
    · trivial
    · obtain ⟨m, -, rfl⟩ := List.mem_map.mp hid
      trivial
  · cases hr : findInitRoute entity with
    | none =>
      simp only [genConstructorDeterministic, hr] at hbody
      exact ofConstruction_defaults (fun m => mem_of_defaulted) hbody
    | some r =>
      simp only [genConstructorDeterministic, hr] at hbody
      split at hbody
      · simp only [List.mem_append] at hbody
        rcases hbody with (hwhere | hupdates) | hdefault
        · exact ofConstruction_wheres hr hwhere
        · exact ofConstruction_updates hr hupdates
        · exact ofConstruction_defaults (fun m => mem_of_defaultedAfter) hdefault
      · exact absurd hbody List.not_mem_nil

theorem ofConstruction_initialize {r : Route} (hr : findInitRoute entity = some r) {part : Part}
    (hpart : part ∈ (genInitializeFn entity r).parts) : OfConstruction entity part := by
  rcases List.mem_append.mp hpart with hpre | hbody
  · rw [List.mem_singleton.mp hpre]
    trivial
  · simp only [genInitializeFn, List.mem_append] at hbody
    rcases hbody with ((hwhere | hupdates) | hphase) | hdefault
    · exact ofConstruction_wheres hr hwhere
    · exact ofConstruction_updates hr hupdates
    · exact ofConstruction_phases hr hphase
    · exact ofConstruction_defaults (fun m => mem_of_defaultedAfter) hdefault

/-- All parts of the construction are those of the init route, or about a member. -/
theorem ofConstruction {part : Part} (hpart : part ∈ deterministicConstruction entity) :
    OfConstruction entity part := by
  rcases List.mem_append.mp hpart with hctor | hinit
  · exact ofConstruction_constructor hctor
  · cases hr : findInitRoute entity with
    | none =>
      rw [hr] at hinit
      exact absurd hinit List.not_mem_nil
    | some r =>
      rw [hr] at hinit
      dsimp only at hinit
      split at hinit
      · exact absurd hinit List.not_mem_nil
      · exact ofConstruction_initialize hr hinit

/-! ### From expressions to deployments -/

theorem constructionRoute_of_enters {r r' : Route} (hr : ConstructionRoute entity r) {a : RouteAction}
    (ha : a ∈ r.body.allActions) (h : Enters entity a r') : ConstructionRoute entity r' := by
  induction h with
  | call hsub hfind => exact .call hr ⟨a, ha, hsub⟩ hfind
  | nested _ hsub hfind ih => exact .call ih hsub hfind

/-- An action of the init route reads `msg::sender` only if an expression of the
    construction does. -/
theorem actionIgnoresSender (h : ConstructionIgnoresSender program entity) {r : Route}
    (hr : findInitRoute entity = some r) {a : RouteAction} (ha : a ∈ r.body.allActions) :
    ActionIgnoresSender program entity a := by
  constructor
  · intro b hb e he
    exact h e (.body (.init hr) (Or.inl ⟨b, ⟨a, ha, hb⟩, he⟩))
  · intro r' henters e he
    have hr' := constructionRoute_of_enters (.init hr) ha henters
    rcases he with hclause | hbody
    · exact h e (.clause hr' hclause)
    · exact h e (.body hr' hbody)

theorem step_same {A V W : Type} (D : SenderDeployments program entity A V W) (s s' : A)
    (h : ConstructionIgnoresSender program entity) {part : Part} (hpart : OfConstruction entity part)
    (site : Site V W) :
    (D.deploys s).step program false part site = (D.deploys s').step program false part site := by
  unfold Deployment.step
  congr 1
  cases part with
  | setFactory | factoryOnce => rfl
  | setIdentity m => rw [D.identity_same s s']
  | fromCheck cs => exact absurd hpart not_false
  | whereCheck phase c =>
    obtain ⟨r, hr, hc⟩ := hpart
    have hread : ¬ ReadsSender program (.entity entity) c.condition := by
      apply h
      apply ConstructionExpr.clause (.init hr)
      simp only [clausesOf, List.mem_append, List.mem_flatMap]
      exact Or.inl (Or.inr ⟨c, hc, List.mem_cons_self⟩)
    dsimp only
    rw [D.where_same s s' c hread]
  | updates phase =>
    obtain ⟨r, hr⟩ := hpart
    dsimp only
    rw [D.computed_same s s' phase]
    intro rt hrt
    obtain ⟨hm, ht, hname⟩ := Analysis.mem_collectTransforms hrt
    rw [initRoute, hr, Option.getD_some] at hname
    exact h _ (.body (.init hr) (Or.inr ⟨rt.1, hm, rt.2, ht, hname, rfl⟩))
  | stmt phase a =>
    obtain ⟨r, hr, ha⟩ := hpart
    dsimp only
    rw [D.act_same s s' a (actionIgnoresSender h hr ha)]
  | setDefault m =>
    have hvalue : (D.deploys s).value true m = (D.deploys s').value true m := by
      funext σ
      unfold Deployment.value hasOwnDefault
      cases hdefault : m.defaultValue with
      | none => simp [D.zero_same s s']
      | some e => rw [D.declared_same s s' m e hdefault (h e (.default hpart hdefault)),
          D.zero_same s s']
    dsimp only
    rw [Bool.not_false, hvalue]

/-- Construction that reads `msg::sender` nowhere is the same for all accounts. -/
theorem sameForAllSenders (h : ConstructionIgnoresSender program entity) :
    SameForAllSenders program entity := by
  intro A V W D s s' w
  have hexec : ∀ (code : List Part) (site : Site V W), (∀ part ∈ code, OfConstruction entity part) →
      exec ((D.deploys s).step program false) code site =
        exec ((D.deploys s').step program false) code site := by
    intro code
    induction code with
    | nil => exact fun _ _ => rfl
    | cons part code ih =>
      intro site hcode
      obtain ⟨hpart, hrest⟩ := List.forall_mem_cons.mp hcode
      rw [exec_cons, exec_cons, step_same D s s' h hpart]
      congr 1
      funext next
      exact ih next hrest
  unfold Deployment.run
  rw [hexec _ _ fun part hpart => ofConstruction hpart, Deployment.fresh, Deployment.fresh,
    D.zero_same s s']

/-- **`msg::sender` and construction.**  An entity that V62 accepts is constructed without
    reading `msg::sender`, and so in the same way for all accounts, exactly when nothing
    that V62 leaves out reads it. -/
theorem construction_ignores_sender_iff (program : Program) (entity : Entity)
    (hacc : checkInitRouteMsgSenderUnderFactory entity = []) :
    (ConstructionIgnoresSender program entity ∧ SameForAllSenders program entity) ↔
      UncheckedIgnoreSender program entity := by
  rw [← ignoresSender_iff program hacc]
  exact ⟨And.left, fun h => ⟨h, sameForAllSenders h⟩⟩

/-! ### An owner taken from a macro -/

/-- `#[factory_only] init constructor(owner: address)`. -/
def ownerRoute : Route where
  name := "constructor"
  params := [⟨"owner", .simple "address"⟩]
  fromClauses := []
  whereClauses := []
  returnType := none
  body := .unphased []
  isView := false
  isPure := false
  isInit := true
  isAccept := false
  isPrivate := false
  recoverTag := none
  factoryOnly := true

/-- `m_owner: address`, set by the constructor to `value`; `caller` is `msg::sender`. -/
def ownedEntity (value : Expr) : Entity where
  name := "Vault"
  records := []
  enums := []
  typeAliases := []
  constants := []
  macros := [⟨"caller", [], .simple "address", .msgField "sender"⟩]
  routes := [ownerRoute]
  members := [⟨"m_owner", .simple "address", false, none, [⟨"constructor", [.ident "owner"], value, none⟩]⟩]

def ownedProgram (value : Expr) : Program :=
  { imports := [], pureFns := [], typeAliases := [], records := [], enums := []
    entities := [ownedEntity value], externEntities := [], libraries := [] }

theorem constructionRoute_owned {value : Expr} {r : Route}
    (h : ConstructionRoute (ownedEntity value) r) : r = ownerRoute := by
  induction h with
  | init h => exact (Option.some.inj h).symm
  | call _ ha _ ih =>
    obtain ⟨b, hb, -⟩ := ha
    rw [ih] at hb
    exact absurd hb List.not_mem_nil

theorem ownerParam_unchecked :
    UncheckedIgnoreSender (ownedProgram (.ident "owner")) (ownedEntity (.ident "owner")) := by
  have hbody : ∀ r e, InBody (ownedEntity (.ident "owner")) r e → r = ownerRoute → e = .ident "owner" := by
    rintro r e (⟨a, ⟨b, hb, -⟩, -⟩ | ⟨m, hm, t, ht, -, rfl⟩) rfl
    · exact absurd hb List.not_mem_nil
    · rw [List.mem_singleton.mp hm] at ht
      rw [List.mem_singleton.mp ht]
  constructor
  · intro e he hnot
    cases he with
    | clause hr he =>
      rw [constructionRoute_owned hr] at he
      exact absurd he List.not_mem_nil
    | body hr he =>
      rw [constructionRoute_owned hr] at he
      exact absurd ⟨ownerRoute, rfl, he⟩ hnot
    | default hm he =>
      rw [List.mem_singleton.mp hm] at he
      cases he
  · intro e _ hchecked callee hcall
    obtain ⟨r, hr, he⟩ := hchecked
    rw [hbody r e he (Option.some.inj hr).symm] at hcall
    obtain ⟨c, operands, hreach, hcalls⟩ := hcall
    rcases ReflTransGen.cases_head hreach with rfl | ⟨d, hd, -⟩
    · cases hcalls
    · exact absurd hd List.not_mem_nil

/-- An owner that is a parameter. -/
theorem ownerParam_constructed :
    ConstructionIgnoresSender (ownedProgram (.ident "owner")) (ownedEntity (.ident "owner")) ∧
      SameForAllSenders (ownedProgram (.ident "owner")) (ownedEntity (.ident "owner")) :=
  (construction_ignores_sender_iff _ _ (by decide +kernel)).mpr ownerParam_unchecked

/-- The same with the macro. -/
def callerEntity : Entity := ownedEntity (.macroRef "caller" [])

def callerProgram : Program := ownedProgram (.macroRef "caller" [])

theorem callerMacro_calls : calls callerProgram (.entity callerEntity) (.macroRef "caller" []) =
    some (.ofMacro callerEntity ⟨"caller", [], .simple "address", .msgField "sender"⟩, []) := rfl

/-- The gate accepts the entity, and its construction reads `msg::sender`. -/
theorem callerMacro_reads_sender :
    NoErrors (checkEvmTargetCompatWith callerProgram true) ∧
      ¬ ConstructionIgnoresSender callerProgram callerEntity := by
  refine ⟨by decide +kernel, fun h => ?_⟩
  apply h (.macroRef "caller" [])
  · apply ConstructionExpr.body (.init rfl)
    exact Or.inr ⟨_, List.mem_cons_self, _, List.mem_cons_self, rfl, rfl⟩
  · exact ⟨_, .single (.call callerMacro_calls)⟩

end CambrianLang.Construction
