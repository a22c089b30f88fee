/-
  **What in a route can fail, and what needs the world**, as the Lean back end decides
  it (`codegen/lean/expr.rs`, `codegen/lean/route.rs`, `analysis/route_facts.rs`).
-/
import CambrianLang.Analysis.Temporal
import CambrianLang.Validate.EvmRules

namespace CambrianLang.Analysis

open Ast Traversal Validate

/-- The numeric mode of a project (`lean.numerics`). -/
structure LeanProfile where
  overflowPanic : Bool
  natNumerics : Bool

/-! ### Expressions -/

/-- `expr_is_nonzero_int_literal`. -/
def exprIsNonzeroIntLiteral : Expr → Bool
  | .intLiteral n => !decide (n = .zero)
  | .cast inner _ => exprIsNonzeroIntLiteral inner
  | _ => false

def isDiv0Node : Expr → Bool
  | .binOp _ .div r | .binOp _ .mod r => !exprIsNonzeroIntLiteral r
  | .namespacedCall ns name _ _ =>
      ns == "std::math" && ["divc", "divr", "divmod", "muldiv", "muldivmod"].contains name
  | _ => false

/-- `expr_has_div0_op`. -/
def exprHasDiv0Op (e : Expr) : Bool := (walkExprSubtree.walk e).any isDiv0Node

/-- `is_narrow_int_target`. -/
def isNarrowIntTarget : Ty → Bool
  | .simple n =>
      ["u8", "u16", "u32", "u64", "u128", "i8", "i16", "i32", "i64", "i128", "uint8", "uint16",
        "uint32", "uint64", "uint128", "int8", "int16", "int32", "int64", "int128"].contains n
  | _ => false

/-- `is_bare_numeric_literal`. -/
def isBareNumericLiteral : Expr → Bool
  | .intLiteral _ => true
  | _ => false

def isNarrowNode : Expr → Bool
  | .cast inner ty => isNarrowIntTarget ty && !isBareNumericLiteral inner
  | _ => false

/-- `expr_has_narrow_cast`. -/
def exprHasNarrowCast (e : Expr) : Bool := (walkExprSubtree.walk e).any isNarrowNode

def isCheckedNode : Expr → Bool
  | .binOp _ .add _ | .binOp _ .sub _ | .binOp _ .mul _ => true
  | _ => false

/-- `expr_has_checked_binop`. -/
def exprHasCheckedBinop (e : Expr) : Bool := (walkExprSubtree.walk e).any isCheckedNode

/-- The subexpressions `expr_forces_fail_surface` follows to find calls. -/
def visitedForSurface : Expr → List Expr
  | .matchE _ arms => arms.map Prod.snd
  | .unaryOp .. | .index .. | .fieldAccess .. | .macroRef .. | .enumVariantWithData .. | .range ..
  | .forE .. | .addressOf .. | .encode .. => []
  | e => e.children

theorem visitedForSurface_sub {e c : Expr} (h : c ∈ visitedForSurface e) : c ∈ e.children := by
  unfold visitedForSurface at h
  split at h
  · rw [Expr.children, Expr.parts, List.map_cons, List.map_map]
    exact List.mem_cons_of_mem _ h
  all_goals first | exact absurd h List.not_mem_nil | exact h

/-- The bodies of the pure functions, as bare calls reach them. -/
def pureFnCalls (pureFns : List PureFn) : Calls Expr where
  bodies := pureFns.map fun f => (f.name, f.body)
  called
    | .fnCall name _ => (pureFns.filter (·.name == name)).map fun f => (f.name, f.body)
    | _ => []
  known {a c} h := by
    split at h
    · obtain ⟨f, hf, rfl⟩ := List.mem_map.mp h
      exact List.mem_map.mpr ⟨f, List.mem_of_mem_filter hf, rfl⟩
    · exact absurd h List.not_mem_nil

def surfaceWalker : Walker Expr Expr where
  own e := [e]
  visited := visitedForSurface
  rank := Expr.rank
  rank_lt h := rank_child_lt (visitedForSurface_sub h)

/-- `expr_forces_fail_surface`. -/
def exprForcesFailSurface (pureFns : List PureFn) (profile : LeanProfile) (e : Expr) : Bool :=
  (surfaceWalker.walkInto (pureFnCalls pureFns) e).any fun x =>
    !profile.natNumerics && (exprHasDiv0Op x || exprHasNarrowCast x)

/-! ### Routes -/

section Routes

variable (profile : LeanProfile) (pureFns : List PureFn) (entity : Entity) (route : Route)

/-- The transforms of the members in the route, of whatever phase. -/
def transformBodies : List Expr :=
  entity.members.flatMap fun m =>
    (m.transforms.filter (·.routeName == route.name)).map MemberTransform.body

/-- The expressions `route_has_checked_arith` looks at in an action. -/
def letsAndReturns : RouteAction → List Expr
  | .letA _ value => [value]
  | .ret values => values
  | _ => []

/-- `route_has_checked_arith`. -/
def routeHasCheckedArith : Bool :=
  (transformBodies entity route).any exprHasCheckedBinop ||
    (route.body.allActions.flatMap letsAndReturns).any exprHasCheckedBinop

/-- The expressions `action_has_div0_or_narrow` looks at in an action itself. -/
def surfaceExprs : RouteAction → List Expr
  | .letA _ value => [value]
  | .ret values => values
  | .conditional c _ _ => [c]
  | .send _ args dest _ | .varCall _ _ args dest _ => args ++ [dest]
  | _ => []

/-- The actions it goes into. -/
def surfaceNested : RouteAction → List RouteAction
  | .rescue .. => []
  | a => a.children

theorem surfaceNested_sub {a b : RouteAction} (h : b ∈ surfaceNested a) : b ∈ a.children := by
  unfold surfaceNested at h
  split at h
  · exact absurd h List.not_mem_nil
  · exact h

theorem rank_surfaceNested_lt {a b : RouteAction} (h : b ∈ surfaceNested a) : b.rank < a.rank :=
  rank_nested_lt (surfaceNested_sub h)

def surfaceActions : Walker RouteAction Expr where
  own := surfaceExprs
  visited := surfaceNested
  rank := RouteAction.rank
  rank_lt := rank_surfaceNested_lt

/-- `route_has_div0_or_narrow`. -/
def routeHasDiv0OrNarrow : Bool :=
  (transformBodies entity route).any (exprForcesFailSurface pureFns profile) ||
    (route.body.allActions.flatMap surfaceActions.walk).any (exprForcesFailSurface pureFns profile)

/-- `transform_body_checked`. -/
def transformBodyChecked (body : Expr) : Bool :=
  exprForcesFailSurface pureFns profile body ||
    (profile.overflowPanic && !profile.natNumerics && exprHasCheckedBinop body)

/-- `transforms_use_checked_arith`, for the transforms of a phase. -/
def transformsUseCheckedArith (phase : Option String) : Bool :=
  (collectTransforms entity route.name phase).any fun t => transformBodyChecked profile pureFns t.2.body

end Routes

/-! ### Reading the world -/

/-- `sys_field_needs_world`. -/
def sysFieldNeedsWorld (field : String) : Bool :=
  ["balance", "blockNumber", "block_number", "number", "chainid", "chainId"].contains field

def isWorldField : Expr → Bool
  | .sysField f => sysFieldNeedsWorld f
  | _ => false

/-- The macros of an entity, as references reach them. -/
def macroCalls (entity : Entity) : Calls Expr where
  bodies := entity.macros.map fun m => (m.name, m.body)
  called
    | .macroRef name _ => ((entity.macros.find? (·.name == name)).map fun m => (m.name, m.body)).toList
    | _ => []
  known {a c} h := by
    split at h
    · obtain ⟨m, hm, rfl⟩ := Option.map_eq_some_iff.mp (Option.mem_toList.mp h)
      exact List.mem_map.mpr ⟨m, List.mem_of_find?_eq_some hm, rfl⟩
    · exact absurd h List.not_mem_nil

/-- `expr_needs_world`; the source does not come back from macros that call each other. -/
def exprNeedsWorld (entity : Entity) (e : Expr) : Bool :=
  (walkExprSubtree.walkInto (macroCalls entity) e).any isWorldField

/-- `expr_requires_world`. -/
def exprRequiresWorld (e : Expr) : Bool := (walkExprSubtree.walk e).any isWorldField

/-- `action_needs_world_thread`, `action_exprs_require_world`. -/
def actionNeedsWorldThread (a : RouteAction) : Bool :=
  (match a with
    | .send .. | .varCall .. | .deploy .. | .emit .. | .callRoute .. => true
    | _ => false) || a.exprs.any exprRequiresWorld

/-- `actions_need_world_thread`. -/
def actionsNeedWorldThread (actions : List RouteAction) : Bool :=
  (actions.flatMap walkActionSubtree.walk).any actionNeedsWorldThread

/-- `route_has_unphased_sends`. -/
def routeHasUnphasedSends (route : Route) : Bool :=
  match route.body with
  | .unphased actions | .mixed _ actions => actionsNeedWorldThread actions
  | .phased _ => false

/-- `route_phased_needs_world_thread`. -/
def routePhasedNeedsWorldThread (route : Route) : Bool :=
  match route.body with
  | .phased phases => phases.any fun p => actionsNeedWorldThread p.actions
  | _ => false

end CambrianLang.Analysis
