/-
  **What a constructor does and what the declarations ask for.**

  A `Deployment` says what the parts of a constructor do to the members and to
  everything else, the latter being one state that a program cannot look into.  What
  a part can depend on and what it can change is read off the source: a condition sees
  the members it names, a transform the members its body names, and an action that calls
  a route of the contract sees and changes what it likes.  The declarations ask for the
  defaults first and for the init route, run as any other route, from there.
-/
import CambrianLang.Guards.GuardedRoutes
import CambrianLang.Layout.Emitted
import CambrianLang.Solidity.StorageWrites

namespace CambrianLang.Construction

open Ast Analysis Solidity StraightLine Relation
open Layout (isDeclaredType isMappingType)

/-! ### Defaults -/

/-- The default prints as the zero that the slot starts with. -/
def isZeroDefault : Expr → Bool
  | .noneE | .emptyCollection | .boolLiteral false => true
  | .intLiteral v => v == ⟨0, 0⟩
  | .stringLiteral s => s == ""
  | _ => false

def hasOwnDefault (m : Member) : Bool :=
  match m.defaultValue with
  | some e => !isZeroDefault e
  | none => false

/-- `default_value_entity` prints nothing for an array of records or enums. -/
def printsZero (program : Program) (entity : Entity) : Ty → Bool
  | .generic name params =>
      if name == "Vec" then
        match params with
        | .simple inner :: _ => !isDeclaredType program entity inner
        | _ :: _ => true
        | [] => false
      else name != "HashMap"
  | _ => true

def printsDefault (program : Program) (entity : Entity) (m : Member) : Bool :=
  match m.defaultValue with
  | none | some .noneE | some .emptyCollection => printsZero program entity m.ty
  | some _ => true

/-- The members that a constructor assigns after the init route has run. -/
def assignedAfter (program : Program) (entity : Entity) (route : Route) : List Member :=
  (defaultedAfter entity route).filter (printsDefault program entity)

/-- The members that are to start at a value of their own. -/
def pending (entity : Entity) : List Member := (defaulted entity).filter hasOwnDefault

/-! ### What expressions and actions look at -/

section Footprints

variable (entity : Entity) (route : Route)

/-- The name occurs in the expression once its macros are expanded. -/
def Names (e : Expr) (n : String) : Prop := ReflTransGen (ExpandStep entity) e (.ident n)

/-- `action_leaves_contract`. -/
def leavesContract : RouteAction → Bool
  | .send .. | .varCall .. | .deploy .. | .effect .. | .callRoute .. | .updateCode .. => true
  | .conditional .. | .ret _ | .letA .. | .rescue .. | .throw _ | .throwCustom .. | .emit ..
  | .forA .. => false

/-- The member has a transform in the stage. -/
def Commits (phase : Option String) (d : Member) : Prop :=
  ∃ t, (d, t) ∈ collectTransforms entity route.name phase

def stageWrites (phase : Option String) : List String :=
  (collectTransforms entity route.name phase).flatMap fun rt => transformWrites entity rt.1 rt.2

/-- What the transforms of a stage compute depends on the member as it is before them. -/
def StageReads (phase : Option String) (d : Member) : Prop :=
  ∃ rt ∈ collectTransforms entity route.name phase, Names entity rt.2.body d.name ∨
    (Reads entity rt.2.body d.name ∧ ¬ Commits entity route phase d) ∨
    (rt.1 ≠ d ∧ d.name ∈ transformWrites entity rt.1 rt.2)

/-- The name occurs in what the action hands to somebody else. -/
def Sends (a : RouteAction) (n : String) : Prop :=
  ∃ b, Subaction a b ∧ leavesContract b = true ∧ ∃ e ∈ b.exprs, Names entity e n

/-- The name occurs in what the action evaluates for itself. -/
def Uses (a : RouteAction) (n : String) : Prop :=
  ∃ b, Subaction a b ∧ leavesContract b = false ∧ ∃ e ∈ b.exprs, Names entity e n

/-- A route of the contract can run while the action does: one that it calls, or any once
    the contract has its code, which it has when `initialize` runs. -/
def Reenters (a : RouteAction) : Prop :=
  ∃ b, Subaction a b ∧ ((∃ name args, b = .callRoute name args) ∨
    (route.params ≠ [] ∧ leavesContract b = true))

def MayReturn (a : RouteAction) : Prop := ∃ b values, Subaction a b ∧ b = .ret values

/-- The action looks at the member as it was before the stage's commit: what leaves the
    contract reads snapshots of members that are values or maps. -/
def SeesBefore (phase : Option String) (a : RouteAction) (d : Member) : Prop :=
  Sends entity a d.name ∧ Commits entity route phase d ∧ isVecType d.ty = false

/-- The action looks at the member as it finds it. -/
def SeesAfter (phase : Option String) (a : RouteAction) (d : Member) : Prop :=
  Reenters route a ∨ d.name ∈ (actionCode entity a).writes ∨ Uses entity a d.name ∨
    (Sends entity a d.name ∧
      (Commits entity route phase d → isVecType d.ty = true ∨ isMappingType d.ty = true))

/-! ### Locals -/

/-- The names that `collect_nested_hoist_locals` declares in front of the function. -/
def binds : RouteAction → List String
  | .letA (.ident x) _ => [x]
  | .varCall x _ _ _ _ => [x]
  | _ => []

def BindsNested (a : RouteAction) (x : String) : Prop :=
  ∃ c ∈ a.children, ∃ b, Subaction c b ∧ x ∈ binds b

mutual
/-- The name is used where the actions do not bind it. -/
def FreeIn (x : String) : RouteAction → Prop
  | .conditional c thenActions elseActions =>
      Names entity c x ∨ FreeInAll x thenActions ∨ FreeInAll x elseActions
  | .forA p iter body => Names entity iter x ∨ (x ∉ p.names ∧ FreeInAll x body)
  | .rescue _ action => FreeIn x action
  | .ret values => ∃ e ∈ values, Names entity e x
  | .letA _ value => Names entity value x
  | .emit _ args | .throwCustom _ args | .effect _ _ args | .callRoute _ args =>
      ∃ e ∈ args, Names entity e x
  | .send m args dest opts => ∃ e ∈ RouteAction.exprs (.send m args dest opts), Names entity e x
  | .varCall v m args dest opts =>
      ∃ e ∈ RouteAction.exprs (.varCall v m args dest opts), Names entity e x
  | .deploy e opts args => ∃ e' ∈ RouteAction.exprs (.deploy e opts args), Names entity e' x
  | .updateCode args r cbArgs =>
      ∃ e ∈ RouteAction.exprs (.updateCode args r cbArgs), Names entity e x
  | .throw _ => False
def FreeInAll (x : String) : List RouteAction → Prop
  | [] => False
  | a :: as => FreeIn x a ∨ (x ∉ binds a ∧ FreeInAll x as)
end

mutual
/-- A name bound in a nested block is used behind the block, or a name is bound twice. -/
def Escapes : RouteAction → Prop
  | .conditional _ thenActions elseActions => EscapesIn thenActions ∨ EscapesIn elseActions
  | .forA _ _ body => EscapesIn body
  | .rescue _ action => Escapes action
  | .send .. | .ret _ | .letA .. | .effect .. | .deploy .. | .throw _ | .throwCustom .. | .emit ..
  | .callRoute .. | .varCall .. | .updateCode .. => False
def EscapesIn : List RouteAction → Prop
  | [] => False
  | a :: as =>
      (∃ x, BindsNested a x ∧ FreeInAll entity x as) ∨ (∃ x ∈ binds a, ∃ b ∈ as, x ∈ binds b) ∨
        Escapes a ∨ EscapesIn as
end

end Footprints

/-! ### Stages -/

/-- A phase of a route, or the whole of an unphased one. -/
structure Stage where
  phase : Option String
  wheres : List WhereClause
  actions : List RouteAction

def stagesOf : RouteBody → List Stage
  | .unphased actions => [⟨none, [], actions⟩]
  | .phased phases => phases.map fun p => ⟨some p.name, p.whereClauses, p.actions⟩
  | .mixed phases actions =>
      (phases.map fun p => ⟨some p.name, p.whereClauses, p.actions⟩) ++ [⟨none, [], actions⟩]

/-- A local means something else where nothing is declared in front of the function: it is
    bound in a block, or in an earlier phase, and used outside. -/
def LocalsEscape (entity : Entity) (body : RouteBody) : Prop :=
  (∃ st ∈ stagesOf body, EscapesIn entity st.actions) ∨
    ∃ earlier st later, stagesOf body = earlier ++ st :: later ∧ ∃ q ∈ earlier, ∃ a ∈ q.actions,
      ∃ x, (x ∈ binds a ∨ BindsNested a x) ∧ FreeInAll entity x st.actions

/-- A name in the default is also that of a parameter or local of the constructor. -/
def Captured (entity : Entity) (route : Route) (m : Member) : Prop :=
  ∃ e, m.defaultValue = some e ∧ ∃ x, Names entity e x ∧
    (x ∈ route.params.map (·.name) ∨ ∃ as, route.body = .unphased as ∧ ∃ a ∈ as, x ∈ binds a)

def NamedByDefault (entity : Entity) (m : Member) (n : String) : Prop :=
  ∃ e, m.defaultValue = some e ∧ Names entity e n

/-! ### Deployments -/

/-- The members during construction, everything else, and whether the code has returned. -/
structure Site (V W : Type) where
  mem : Member → V
  /-- the members before the last commit -/
  before : Member → V
  world : W
  left : Bool

/-- What the parts do.  What is computed by transforms and changed by actions is given as the
    new values of the members concerned. -/
structure Deployment (entity : Entity) (route : Route) (V W : Type) where
  zero : Member → V
  identity : Member → V
  /-- a declared default, evaluated among the declarations or in the constructor -/
  declared : Bool → Member → (Member → V) → V
  fromHolds : List FromClause → (Member → V) → W → Bool
  whereHolds : WhereClause → (Member → V) → W → Bool
  computed : Option String → (Member → V) → W → Option (Member → Option V)
  /-- an action as a route of its own or the constructor prints it -/
  act : Bool → Option String → RouteAction → (Member → V) → (Member → V) → W →
    Option ((Member → Option V) × W × Bool)
  declared_scope : ∀ m σ, ¬ Captured entity route m → declared true m σ = declared false m σ
  declared_congr : ∀ inConstructor m σ τ, (∀ d : Member, NamedByDefault entity m d.name → σ d = τ d) →
    declared inConstructor m σ = declared inConstructor m τ
  where_congr : ∀ c σ τ w, (∀ d : Member, Names entity c.condition d.name → σ d = τ d) →
    whereHolds c σ w = whereHolds c τ w
  computed_congr : ∀ phase σ τ w, (∀ d, StageReads entity route phase d → σ d = τ d) →
    computed phase σ w = computed phase τ w
  computed_frame : ∀ phase σ w δ, computed phase σ w = some δ →
    ∀ d, δ d ≠ none → d.name ∈ stageWrites entity route phase
  computed_commits : ∀ phase σ w δ, computed phase σ w = some δ →
    ∀ d, Commits entity route phase d → isMappingType d.ty = false → δ d ≠ none
  act_congr : ∀ own phase a σ σ' τ τ' w, (∀ d, SeesAfter entity route phase a d → σ d = τ d) →
    (∀ d, SeesBefore entity route phase a d → σ' d = τ' d) →
    act own phase a σ σ' w = act own phase a τ τ' w
  act_frame : ∀ own phase a σ σ' w δ w' left, act own phase a σ σ' w = some (δ, w', left) →
    ∀ d, δ d ≠ none → Reenters route a ∨ d.name ∈ (actionCode entity a).writes
  act_stays : ∀ own phase a σ σ' w δ w', act own phase a σ σ' w = some (δ, w', true) → MayReturn a
  act_scope : ¬ LocalsEscape entity route.body → act true = act false

section Runs

variable {entity : Entity} {route : Route} {V W : Type} (program : Program)
  (D : Deployment entity route V W)

/-- The members with some of them changed. -/
def update (δ : Member → Option V) (σ : Member → V) : Member → V := fun d => (δ d).getD (σ d)

open Classical in
noncomputable def assign (m : Member) (v : V) (σ : Member → V) : Member → V :=
  fun d => if d = m then v else σ d

def Deployment.value (inConstructor : Bool) (m : Member) (σ : Member → V) : V :=
  if hasOwnDefault m then D.declared inConstructor m σ else D.zero m

/-- `own` tells a route of its own, with the defaults among the declarations, from a
    constructor. -/
noncomputable def Deployment.step (own : Bool) (part : Part) (s : Site V W) : Option (Site V W) :=
  if s.left then some s
  else match part with
    | .setFactory | .factoryOnce => some s
    | .setIdentity m => some { s with mem := assign m (D.identity m) s.mem }
    | .fromCheck cs => if D.fromHolds cs s.mem s.world then some s else none
    | .whereCheck _ c => if D.whereHolds c s.mem s.world then some s else none
    | .updates phase =>
        (D.computed phase s.mem s.world).map fun δ =>
          { s with mem := update δ s.mem, before := s.mem }
    | .stmt phase a =>
        (D.act own phase a s.mem s.before s.world).map fun r =>
          ⟨update r.1 s.mem, s.before, r.2.1, r.2.2⟩
    | .setDefault m =>
        if printsDefault program entity m then
          some { s with mem := assign m (D.value (!own) m s.mem) s.mem }
        else some s

/-- A new contract: every slot is zero. -/
def Deployment.fresh (w : W) : Site V W := ⟨D.zero, D.zero, w, false⟩

/-- The members and everything else once the code has run. -/
noncomputable def Deployment.run (own : Bool) (code : List Part) (w : W) :
    Option ((Member → V) × W) :=
  (exec (D.step program own) code (D.fresh w)).map fun s => (s.mem, s.world)

end Runs

/-! ### Construction -/

/-- The parts that a build without deterministic addresses runs. -/
def plainConstruction (entity : Entity) : List Part := (genConstructorImpl entity).parts

/-- The constructor, and `initialize` where the factory calls it. -/
def deterministicConstruction (entity : Entity) : List Part :=
  (genConstructorDeterministic entity).parts ++
    match findInitRoute entity with
    | some route => if route.params.isEmpty then [] else (genInitializeFn entity route).parts
    | none => []

/-- Every member at its default, and then the init route as any other route is run. -/
def declaredConstruction (entity : Entity) : List Part :=
  assignIdentity entity ++ (defaulted entity).map .setDefault ++
    match findInitRoute entity with
    | some route => (genRouteImpl entity route).body
    | none => []

/-- What is constructed without an init route. -/
def noInit : Route :=
  { name := "", params := [], fromClauses := [], whereClauses := [], returnType := none
    body := .unphased [], isView := false, isPure := false, isInit := false, isAccept := false
    isPrivate := false, recoverTag := none, factoryOnly := false }

def initRoute (entity : Entity) : Route := (findInitRoute entity).getD noInit

/-- Both builds construct by the same route, and as the declarations ask for. -/
def ConstructedAsDeclared (program : Program) (entity : Entity) : Prop :=
  constructorRoute entity = findInitRoute entity ∧
  ∀ (V W : Type) (D : Deployment entity (initRoute entity) V W) (w : W),
    D.run program false (plainConstruction entity) w =
      D.run program true (declaredConstruction entity) w ∧
    D.run program false (deterministicConstruction entity) w =
      D.run program true (declaredConstruction entity) w

/-! ### Init routes that the order does not matter to -/

section Settled

variable (program : Program) (entity : Entity) (route : Route)

/-- The route comes before the defaults, and is not told apart from one that comes after. -/
structure SettledInit : Prop where
  sender : route.fromClauses = []
  /-- the route's conditions look at no member that is to start at a value of its own -/
  entry : ∀ c ∈ route.whereClauses, ∀ d ∈ pending entity, ¬ Names entity c.condition d.name
  /-- the conditions of phases are the route's own, and nothing before the phase affects them -/
  phases : ∀ earlier st later, stagesOf route.body = earlier ++ st :: later → ∀ c ∈ st.wheres,
    c ∈ route.whereClauses ∧ ∀ q ∈ earlier, q.actions = [] ∧
      ∀ n ∈ stageWrites entity route q.phase, ¬ Names entity c.condition n
  /-- nothing looks at such a member, returns or lets go of control before its transform -/
  stages : ∀ earlier st later, stagesOf route.body = earlier ++ st :: later →
    ∀ d ∈ pending entity, (∀ q ∈ earlier, ¬ Commits entity route q.phase d) →
      ¬ StageReads entity route st.phase d ∧ ∀ a ∈ st.actions,
        ¬ SeesBefore entity route st.phase a d ∧
        (¬ Commits entity route st.phase d → ¬ SeesAfter entity route st.phase a d ∧ ¬ MayReturn a)
  /-- the members assigned at the end are not changed before -/
  kept : ∀ d ∈ assignedAfter program entity route,
    (∀ w ∈ functionWrites entity route, w.target ≠ d.name) ∧
      ∀ a ∈ route.body.allActions, ¬ Reenters route a
  /-- their defaults mean the same at the end -/
  defaults : ∀ d ∈ assignedAfter program entity route, hasOwnDefault d = true →
    ¬ Captured entity route d ∧ ∀ n, NamedByDefault entity d n →
      ∀ w ∈ functionWrites entity route, w.target ≠ n
  locals : ¬ LocalsEscape entity route.body
  /-- a deterministic constructor without parameters has no phases to run -/
  dropped : route.params = [] → ∀ p ∈ route.body.phaseBlocks,
    collectTransforms entity route.name (some p.name) = [] ∧ p.actions = []

end Settled

end CambrianLang.Construction
