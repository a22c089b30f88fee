/-
  **Entities, routes and actions** (`ast.rs`).

  Positions in the source text and the declarations that no modelled pass reads
  (events, tests, properties, invariants) are left out.
-/
import CambrianLang.Ast.Expr

namespace CambrianLang.Ast

open Relation

structure Param where
  name : String
  ty : Ty

/-- `FromClauseKind`: an entity with identity arguments, or an address member. -/
inductive FromClauseKind where
  | entity
  | member
deriving DecidableEq

structure FromClause where
  entityName : String
  args : List Expr
  withParams : Option Expr
  kind : FromClauseKind
  errorCode : Option Nat
  errorName : Option String
  errorArgs : List Expr

structure WhereClause where
  condition : Expr
  errorCode : Nat
  errorName : Option String
  errorArgs : List Expr

inductive RouteAction where
  | send (message : Option String) (args : List Expr) (dest : Expr) (sendOptions : Option Expr)
  | conditional (condition : Expr) (thenActions elseActions : List RouteAction)
  | ret (values : List Expr)
  | letA (pattern : Pattern) (value : Expr)
  | effect (ns name : String) (args : List Expr)
  | deploy (entity : String) (sendOptions : Option Expr) (constructorArgs : List Expr)
  | rescue (tag : String) (action : RouteAction)
  | throw (errorCode : Nat)
  | throwCustom (name : String) (args : List Expr)
  | emit (eventName : String) (args : List Expr)
  | callRoute (name : String) (args : List Expr)
  | varCall (name message : String) (args : List Expr) (dest : Expr) (sendOptions : Option Expr)
  | updateCode (updateArgs : List Expr) (callbackRoute : String) (callbackArgs : List Expr)
  | forA (pattern : Pattern) (iter : Expr) (body : List RouteAction)

structure PhaseBlock where
  name : String
  whereClauses : List WhereClause
  actions : List RouteAction

inductive RouteBody where
  | unphased (actions : List RouteAction)
  | phased (phases : List PhaseBlock)
  | mixed (phases : List PhaseBlock) (actions : List RouteAction)

structure Route where
  name : String
  params : List Param
  fromClauses : List FromClause
  whereClauses : List WhereClause
  returnType : Option Ty
  body : RouteBody
  isView : Bool
  isPure : Bool
  isInit : Bool
  isAccept : Bool
  isPrivate : Bool
  recoverTag : Option String
  factoryOnly : Bool

structure MemberTransform where
  routeName : String
  params : List Pattern
  body : Expr
  phase : Option String

structure Member where
  name : String
  ty : Ty
  isIdentity : Bool
  defaultValue : Option Expr
  transforms : List MemberTransform

structure Field where
  name : String
  ty : Ty

structure Record where
  name : String
  fields : List Field

structure EnumVariant where
  name : String
  fields : List Ty

structure EnumDecl where
  name : String
  variants : List EnumVariant

structure TypeAlias where
  name : String
  ty : Ty

structure Const where
  name : String
  ty : Ty
  value : Expr

structure Macro where
  name : String
  params : List Param
  returnType : Ty
  body : Expr

structure Entity where
  name : String
  records : List Record
  enums : List EnumDecl
  typeAliases : List TypeAlias
  constants : List Const
  macros : List Macro
  routes : List Route
  members : List Member

structure PureFn where
  name : String
  params : List Param
  returnType : Ty
  body : Expr

structure LibraryDecl where
  name : String
  pureFns : List PureFn
  constants : List Const
  typeAliases : List TypeAlias

structure ExternRoute where
  name : String
  params : List Param
  returnType : Option Ty
  isView : Bool
  isPayable : Bool

structure ExternEntity where
  name : String
  routes : List ExternRoute

/-- `use <ns>`. -/
structure Import where
  ns : String

structure Program where
  imports : List Import
  pureFns : List PureFn
  typeAliases : List TypeAlias
  records : List Record
  enums : List EnumDecl
  entities : List Entity
  externEntities : List ExternEntity
  libraries : List LibraryDecl

/-- `is_init_route`. -/
def isInitRoute (route : Route) : Bool := route.isInit || route.name == "constructor"

/-! ### Route bodies -/

/-- `RouteBody::all_actions`. -/
def RouteBody.allActions : RouteBody → List RouteAction
  | .unphased actions => actions
  | .phased phases => phases.flatMap PhaseBlock.actions
  | .mixed phases actions => phases.flatMap PhaseBlock.actions ++ actions

/-- The phases of a phased or mixed body. -/
def RouteBody.phaseBlocks : RouteBody → List PhaseBlock
  | .unphased _ => []
  | .phased phases => phases
  | .mixed phases _ => phases

/-! ### Nested actions -/

/-- The actions nested in an action. -/
def RouteAction.children : RouteAction → List RouteAction
  | .conditional _ thenActions elseActions => thenActions ++ elseActions
  | .rescue _ action => [action]
  | .forA _ _ body => body
  | .send .. | .ret _ | .letA .. | .effect .. | .deploy .. | .throw _ | .throwCustom .. | .emit ..
  | .callRoute .. | .varCall .. | .updateCode .. => []

/-- The expressions an action evaluates itself. -/
def RouteAction.exprs : RouteAction → List Expr
  | .send _ args dest opts => args ++ dest :: opts.toList
  | .conditional c _ _ => [c]
  | .ret values => values
  | .letA _ value => [value]
  | .effect _ _ args => args
  | .deploy _ opts args => opts.toList ++ args
  | .rescue _ _ => []
  | .throw _ => []
  | .throwCustom _ args => args
  | .emit _ args => args
  | .callRoute _ args => args
  | .varCall _ _ args dest opts => args ++ dest :: opts.toList
  | .updateCode args _ cbArgs => args ++ cbArgs
  | .forA _ iter _ => [iter]

mutual
/-- A size that decreases into nested actions. -/
def RouteAction.rank : RouteAction → Nat
  | .conditional _ thenActions elseActions => 1 + rankActions thenActions + rankActions elseActions
  | .rescue _ action => 1 + action.rank
  | .forA _ _ body => 1 + rankActions body
  | .send .. | .ret _ | .letA .. | .effect .. | .deploy .. | .throw _ | .throwCustom .. | .emit ..
  | .callRoute .. | .varCall .. | .updateCode .. => 0
def rankActions : List RouteAction → Nat
  | [] => 0
  | a :: as => a.rank + rankActions as
end

theorem rank_le_rankActions {a : RouteAction} {as : List RouteAction} (h : a ∈ as) :
    a.rank ≤ rankActions as := by
  induction as with
  | nil => exact absurd h List.not_mem_nil
  | cons x xs ih =>
    simp only [rankActions]
    rcases List.mem_cons.mp h with rfl | hx
    · exact Nat.le_add_right _ _
    · exact (ih hx).trans (Nat.le_add_left _ _)

theorem rank_nested_lt {a b : RouteAction} (h : b ∈ a.children) : b.rank < a.rank := by
  cases a with
  | conditional c thenActions elseActions =>
    simp only [RouteAction.rank]
    rcases List.mem_append.mp h with hthen | helse
    · have hle := rank_le_rankActions hthen
      omega
    · have hle := rank_le_rankActions helse
      omega
  | rescue tag action =>
    rw [List.mem_singleton.mp h]
    simp only [RouteAction.rank]
    omega
  | forA p it body =>
    have hle : b.rank ≤ rankActions body := rank_le_rankActions h
    simp only [RouteAction.rank]
    omega
  | send | ret | letA | effect | deploy | throw | throwCustom | emit | callRoute | varCall
  | updateCode => exact absurd h List.not_mem_nil

/-- `b` is `a` or nested in it. -/
def Subaction : RouteAction → RouteAction → Prop := ReflTransGen fun a b => b ∈ a.children

end CambrianLang.Ast
