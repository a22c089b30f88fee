/-
  **Bindings hoisted for `assume`** (`codegen/lean/evm/spec_steps.rs`,
  `codegen/evm_test_codegen.rs`).

  The statement of a property and its fuzz test put the `assume` steps first and, before them,
  the `let`s they mention, directly or through other `let`s.  The two passes find these with
  walkers of their own.  The statement has them in depth-first order of their mentions, the
  fuzz test in the order of the body.  What a pass does to a body is to reorder its steps:
  `statementOrder` and `fuzzOrder`.

  The early exits for a body without `let`s or without mentions are not spelt out; the general
  case gives the same.
-/
import CambrianLang.Analysis.DeclOrder
import CambrianLang.Lib.Reordering
import CambrianLang.Lib.Saturation
import CambrianLang.Lib.Worklist
import CambrianLang.Project.Desugar

namespace CambrianLang.Spec.Hoist

open Ast Analysis DepthFirst
  Saturation Traversal Worklist Relation

/-! ### The walkers -/

/-- `expr_free_idents`; it does not look at what is bound on the way. -/
def exprFreeIdents : Walker Expr String where
  own
    | .ident name | .fnCall name _ | .temporalRef name => [name]
    | .traceCall _ route => [route]
    | _ => []
  visited := Expr.children
  rank := Expr.rank
  rank_lt := rank_child_lt

/-- The forms that `expr_idents_for_assume_hoist` descends into. -/
def walkedForAssumeHoist : Expr → Bool
  | .binOp .. | .range .. | .unaryOp .. | .fieldAccess .. | .cast .. | .someE _ | .ifE ..
  | .methodCall .. | .fnCall .. | .macroRef .. | .index .. => true
  | _ => false

/-- `expr_idents_for_assume_hoist`. -/
def exprIdentsForAssumeHoist : Walker Expr String where
  own
    | .ident name => [name]
    | _ => []
  visited e := if walkedForAssumeHoist e then e.children else []
  rank := Expr.rank
  rank_lt {a b} h := by
    split at h
    · exact rank_child_lt h
    · exact absurd h List.not_mem_nil

/-! ### What is needed -/

/-- A `let` step, as its name, type and value. -/
def letOf : TestStep → Option (String × Option Ty × Expr)
  | .letS name ty value => some (name, ty, value)
  | _ => none

def letBindings (steps : List TestStep) : List (String × Option Ty × Expr) := steps.filterMap letOf

def letNames (steps : List TestStep) : List String := (letBindings steps).map Prod.fst

/-- The condition of an `assume` step. -/
def assumedOf : TestStep → Option Expr
  | .assume cond => some cond
  | _ => none

section Needed

variable (walk : Expr → List String) (value : String → Option Expr) (steps : List TestStep)

/-- The `let`s that the value of a name mentions. -/
def letDeps (name : String) : List String :=
  ((value name).elim [] walk).filter (letNames steps).contains

/-- The `let`s that some `assume` mentions. -/
def assumeRefs : List String :=
  (steps.filterMap assumedOf).flatMap fun cond => (walk cond).filter (letNames steps).contains

/-- `needed`, grown until a round adds nothing. -/
def neededNames : Option (List String) :=
  rounds (letDeps walk value steps) ((letNames steps).length + 1)
    ((assumeRefs walk steps).foldl (fun set d => set.insert d) [])

end Needed

/-- `let_map`: the last `let` of a name. -/
def letMap (steps : List TestStep) (name : String) : Option (Option Ty × Expr) :=
  (letBindings steps).reverse.lookup name

/-- The first `let` of a name. -/
def firstLet (steps : List TestStep) (name : String) : Option (Option Ty × Expr) :=
  (letBindings steps).lookup name

/-! ### The statement -/

/-- `HoistLetsForAssumes`. -/
structure HoistLetsForAssumes where
  prefixLets : List (String × Option Ty × Expr)
  hoistedNames : List String

/-- What the value of a needed name mentions of the others, in the order its hash set is gone
    through. -/
def neededDeps (iterate : Shuffle String) (steps : List TestStep) (needed : List String)
    (name : String) : List String :=
  iterate.apply ((((letMap steps name).elim [] fun b => exprFreeIdents.walk b.2).filter
    fun d => needed.contains d && d != name).dedup)

/-- `hoist_lets_for_assume_hypotheses`. -/
def hoistLetsForAssumeHypotheses (iterate : Shuffle String) (steps : List TestStep) :
    Option HoistLetsForAssumes := do
  let needed ← neededNames exprFreeIdents.walk (fun n => (letMap steps n).map Prod.snd) steps
  let neededVec := (letNames steps).filter needed.contains
  let order ← dfsTopo (neededVec.length + 1) neededVec.length
    (indexDeps id neededVec (neededDeps iterate steps needed))
  some
    { prefixLets := (order.filterMap (neededVec[·]?)).filterMap fun n =>
        (letMap steps n).map (n, ·)
      hoistedNames := needed }

/-- `filter_property_body_after_hoist`. -/
def filterPropertyBodyAfterHoist (steps : List TestStep) (hoisted : List String) : List TestStep :=
  steps.filter fun
    | .assume _ => false
    | .letS name _ _ => !hoisted.contains name
    | _ => true

def isAssume : TestStep → Bool
  | .assume _ => true
  | _ => false

/-- The steps as `gen_property_theorem` puts them into a statement: hoisted `let`s, hypotheses,
    body. -/
def statementOrder (steps : List TestStep) (hoist : HoistLetsForAssumes) : List TestStep :=
  hoist.prefixLets.map (fun b => .letS b.1 b.2.1 b.2.2) ++ steps.filter isAssume ++
    filterPropertyBodyAfterHoist steps hoist.hoistedNames

/-! ### The fuzz test -/

/-- `lets_to_hoist_before_assumes`. -/
def letsToHoistBeforeAssumes (body : List TestStep) : Option (List String) :=
  neededNames exprIdentsForAssumeHoist.walk (fun n => (firstLet body n).map Prod.snd) body

def isHoisted (hoisted : List String) : TestStep → Bool
  | .letS name _ _ => hoisted.contains name
  | _ => false

def isBound : TestStep → Bool
  | .bound .. => true
  | _ => false

/-- The steps as `gen_fuzz_fn` emits them: hoisted `let`s, bounds, assumptions, the rest. -/
def fuzzOrder (body : List TestStep) (hoisted : List String) : List TestStep :=
  body.filter (isHoisted hoisted) ++ body.filter isBound ++ body.filter isAssume ++
    body.filter fun step => !isHoisted hoisted step && !isBound step && !isAssume step

/-- The steps in source order.  A sampling range says what values a parameter takes, so a
    parameter is narrowed before the body begins. -/
def sourceOrder (body : List TestStep) : List TestStep :=
  body.filter isBound ++ body.filter fun step => !isBound step

end CambrianLang.Spec.Hoist
