/-
  **Which sidecars a HashMap member gets** (`codegen/solidity/evm/analysis.rs`).

  Hand-written searches look for the methods that read a sidecar.  They agree on the
  places of an entity they start from and differ in the expressions they go into.
-/
import CambrianLang.Solidity.HelperDetection

namespace CambrianLang.Analysis

open Ast Validate Solidity Relation

/-! ### Where the searches start -/

/-- `action_walks_any`: the expressions of an action and of the actions nested in it. -/
def actionRoots (a : RouteAction) : List Expr := (walkActionSubtree.walk a).flatMap RouteAction.exprs

def routeRoots (r : Route) : List Expr :=
  r.body.allActions.flatMap actionRoots ++ r.whereClauses.map WhereClause.condition

def memberRoots (m : Member) : List Expr := m.defaultValue.toList ++ m.transforms.map MemberTransform.body

/-- The expressions that `entity_walks_any` hands to a search. -/
def entityRoots (entity : Entity) : List Expr :=
  entity.routes.flatMap routeRoots ++ entity.members.flatMap memberRoots ++
    entity.macros.map Macro.body

/-- `entity_walks_any`. -/
def entityWalksAny (entity : Entity) (walk : Expr → Bool) : Bool := (entityRoots entity).any walk

/-! ### Reads of `_exists` -/

/-- `name.method(..)` for one of the methods. -/
def isCallOn (methods : List String) (name : String) : Expr → Bool
  | .methodCall (.ident n) method _ => n == name && methods.contains method
  | _ => false

/-- `transforms_use_exists`: goes into operands, bindings, branches and call arguments. -/
def transformsDescent : Descent where
  visited
    | .methodCall b method args => if method = "exists" then [] else b :: args
    | .binOp l _ r => [l, r]
    | .letE _ v b => [v, b]
    | .ifE c t e => c :: t :: e.toList
    | .fnCall _ args => args
    | _ => []
  defaults := false
  sub {e c} h := by
    cases e with
    | methodCall b method args =>
      simp only at h
      split at h
      · cases h
      · simpa [Expr.children, Expr.parts, unbound] using h
    | binOp | letE | ifE | fnCall => simpa [Expr.children, Expr.parts, unbound] using h
    | _ => cases h

/-- `transforms_use_exists`. -/
def transformsUseExists (members : List Member) (name : String) : Bool :=
  members.any fun m => m.transforms.any fun t =>
    transformsDescent.usedInExpr (isCallOn ["exists"] name) t.body

/-- `param_uses_exists_in_pure_fn`. -/
def pureExistsDescent : Descent where
  visited
    | .arrayLit _ | .macroRef .. | .closure .. | .recordConstruct .. | .recordUpdate .. | .forE ..
    | .enumVariantWithData .. | .namespacedCall .. | .addressOf .. | .encode .. => []
    | e => e.children
  defaults := false
  sub {e c} h := by
    cases e with
    | arrayLit | macroRef | closure | recordConstruct | recordUpdate | forE | enumVariantWithData
    | namespacedCall | addressOf | encode => cases h
    | _ => exact h

def paramUsesExistsInPureFn (pf : PureFn) (paramName : String) : Bool :=
  pureExistsDescent.usedInExpr (isCallOn ["exists"] paramName) pf.body

/-- `pure_fn_uses_exists_on_member`. -/
def pureFnUsesExistsOnMember (program : Program) (fnName : String) (args : List Expr)
    (memberName : String) : Bool :=
  match program.pureFns.find? (·.name == fnName) with
  | none => false
  | some pf =>
      (args.zip pf.params).any fun a =>
        (match a.1 with
          | .ident n => n == memberName
          | _ => false) && paramUsesExistsInPureFn pf a.2.name

/-- What `member_uses_exists` looks for. -/
def readsExists (program : Program) (memberName : String) : Expr → Bool
  | .fnCall name args => pureFnUsesExistsOnMember program name args memberName
  | e => isCallOn ["exists", "contains"] memberName e

/-- `member_uses_exists` goes into everything but array literals. -/
def memberExistsDescent : Descent where
  visited
    | .arrayLit _ => []
    | e => e.children
  defaults := true
  sub {e c} h := by
    cases e with
    | arrayLit => cases h
    | _ => exact h

/-- `member_uses_exists`. -/
def memberUsesExists (entity : Entity) (program : Program) (memberName : String) : Bool :=
  entityWalksAny entity (memberExistsDescent.usedInExpr (readsExists program memberName))

/-! ### The layout's question is the narrower one -/

theorem mem_entityRoots_transform {entity : Entity} {m : Member} {t : MemberTransform}
    (hm : m ∈ entity.members) (ht : t ∈ m.transforms) : t.body ∈ entityRoots entity := by
  have hroot : t.body ∈ memberRoots m :=
    List.mem_append.mpr (Or.inr (List.mem_map.mpr ⟨t, ht, rfl⟩))
  rw [entityRoots, List.mem_append, List.mem_append]
  exact Or.inl (Or.inr (List.mem_flatMap.mpr ⟨m, hm, hroot⟩))

theorem transformsDescent_visited_subset {e c : Expr} (h : c ∈ transformsDescent.visited e) :
    c ∈ memberExistsDescent.visited e := by
  have hchild := transformsDescent.sub h
  cases e with
  | arrayLit => cases h
  | _ => exact hchild

/-- Whatever `transforms_use_exists` finds, `member_uses_exists` finds too. -/
theorem memberUsesExists_of_transforms {entity : Entity} {program : Program} {name : String}
    (h : transformsUseExists entity.members name = true) :
    memberUsesExists entity program name = true := by
  obtain ⟨m, hm, h⟩ := List.any_eq_true.mp h
  obtain ⟨t, ht, h⟩ := List.any_eq_true.mp h
  obtain ⟨c, hreach, hlook⟩ := transformsDescent.usedInExpr_iff.mp h
  refine List.any_eq_true.mpr ⟨t.body, mem_entityRoots_transform hm ht, ?_⟩
  refine memberExistsDescent.usedInExpr_iff.mpr ⟨c, ?_, ?_⟩
  · exact ReflTransGen.mono (fun _ _ hst => transformsDescent_visited_subset hst) _ _ hreach
  · cases c with
    | methodCall b method args =>
      cases b with
      | ident n =>
        simp only [isCallOn, List.contains_cons, List.contains_nil, Bool.or_false, Bool.and_eq_true]
          at hlook
        simp [readsExists, isCallOn, hlook.1, beq_iff_eq.mp hlook.2]
      | _ => cases hlook
    | _ => cases hlook

end CambrianLang.Analysis
