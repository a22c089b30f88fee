/-
  **Iterator chains and the loops they are lowered to** (`codegen/solidity/core/iter.rs`).

  A chain is a source, stages and a terminator.  The lowering keeps track of where
  the current element can be read (`IterElem`) and emits one loop; what it cannot
  lower becomes a `revert`.  Solidity types, and the statements closure bodies are
  hoisted into, are left out: a body is evaluated as an expression that may revert.
-/
import CambrianLang.Ast.Entity
import CambrianLang.Lib.Fusion

namespace CambrianLang.Solidity

open Ast

/-! ### Chains -/

inductive ChainStage where
  | iter
  | keys
  | values
  | enumerate
  | filter (pat : Pattern) (body : Expr)
  | map (pat : Pattern) (body : Expr)
  | take (n : Expr)

inductive ChainTerminator where
  | collect
  | fold (init : Expr) (accPat varPat : Pattern) (body : Expr)

/-- The stage a method call is peeled as. -/
def chainStage (receiver : Expr) (method : String) (args : List Expr) : Option ChainStage :=
  match method, args with
  | "iter", [] => some .iter
  | "keys", [] =>
      match receiver with
      | .index (.ident _) _ => some .keys
      | _ => none
  | "values", [] => some .values
  | "enumerate", [] => some .enumerate
  | "filter", [.closure [pat] body] => some (.filter pat body)
  | "map", [.closure [pat] body] => some (.map pat body)
  | "take", [n] => some (.take n)
  | _, _ => none

/-- The source below the stages, and the stages in order. -/
def peelStages : Expr → Expr × List ChainStage
  | .methodCall receiver method args =>
      match chainStage receiver method args with
      | some stage => ((peelStages receiver).1, (peelStages receiver).2 ++ [stage])
      | none => (.methodCall receiver method args, [])
  | e => (e, [])

/-- A `fold` with a closure of two parameters, and what it folds. -/
def foldCall : Expr → Option (ChainTerminator × Expr)
  | .methodCall base "fold" [init, .closure [accPat, varPat] body] =>
      some (.fold init accPat varPat body, base)
  | _ => none

def chainTerminator : Expr → Option (ChainTerminator × Expr)
  | .methodCall base "collect" [] => some (.collect, base)
  | e => foldCall e

/-- `parse_iter_chain`. -/
def parseIterChain (e : Expr) : Option (Expr × List ChainStage × ChainTerminator) :=
  (chainTerminator e).bind fun t =>
    if (peelStages t.2).2.isEmpty then none else some ((peelStages t.2).1, (peelStages t.2).2, t.1)

/-! ### Sources and elements -/

/-- What `resolve_iter_source` finds. -/
inductive IterSource where
  | range (start stop : Expr)
  | entries (member : String)
  | memberValues (member : String)
  | nestedSlot (member : String) (outer : Expr)
  | vec (e : Expr)

/-- The member is a `HashMap` with both type parameters. -/
def isMapMember (entity : Entity) (name : String) : Bool :=
  match entity.members.find? (·.name == name) with
  | some m =>
      match m.ty with
      | .generic "HashMap" (_ :: _ :: _) => true
      | _ => false
  | none => false

/-- `nested_hashmap_inner_key_type` finds a type. -/
def isNestedMapMember (entity : Entity) (name : String) : Bool :=
  match entity.members.find? (·.name == name) with
  | some m =>
      match m.ty with
      | .generic "HashMap" [_, .generic "HashMap" (_ :: _)] => true
      | _ => false
  | none => false

/-- `resolve_iter_source`. -/
def resolveIterSource (entity : Entity) : Expr → IterSource
  | .range start stop => .range start stop
  | .ident x => if isMapMember entity x then .entries x else .vec (.ident x)
  | .methodCall (.ident x) "iter" [] =>
      if isMapMember entity x then .entries x else .vec (.methodCall (.ident x) "iter" [])
  | .methodCall (.ident x) "values" [] =>
      if isMapMember entity x then .memberValues x else .vec (.methodCall (.ident x) "values" [])
  | .index (.ident x) outer =>
      if isNestedMapMember entity x then .nestedSlot x outer else .vec (.index (.ident x) outer)
  | e => .vec e

/-- What the loop body reads: the element (`start + i`, `xs[i]`), key or value of the
    current row, the zero of a nested slot, the loop index or a local of the body. -/
inductive Rhs where
  | element
  | key
  | value
  | zero
  | index
  | temp (n : Nat)

inductive IterElem where
  | scalar (rhs : Rhs)
  | tuple (components : List Rhs)

/-- The element factory of a source. -/
def IterSource.elem : IterSource → IterElem
  | .range .. | .vec _ => .scalar .element
  | .entries _ => .tuple [.key, .value]
  | .memberValues _ => .scalar .value
  | .nestedSlot .. => .scalar .zero

/-! ### Binding closure parameters -/

/-- `bind_loop_pattern` on a scalar. -/
def bindScalar : Pattern → Rhs → Except String (List (String × Rhs))
  | .ident x, rhs => .ok [(x, rhs)]
  | .wildcard, _ => .ok []
  | .deref inner, rhs => bindScalar inner rhs
  | .tuple _, _ =>
      .error ("EVM: tuple destructuring requires a tuple-yielding iterator " ++
        "(e.g. `m.iter()`, `xs.enumerate()`)")
  | _, _ => .error "EVM: unsupported loop pattern"

def bindScalars : List Pattern → List Rhs → Except String (List (String × Rhs))
  | p :: ps, r :: rs => do
      let decls ← bindScalar p r
      let rest ← bindScalars ps rs
      return decls ++ rest
  | _, _ => .ok []

/-- `bind_loop_pattern`. -/
def bindLoopPattern : Pattern → IterElem → Except String (List (String × Rhs))
  | .deref inner, elem => bindLoopPattern inner elem
  | pat, .scalar rhs => bindScalar pat rhs
  | .tuple ps, .tuple rs =>
      if ps.length = rs.length then bindScalars ps rs else .error "EVM: unsupported loop pattern"
  | .ident _, .tuple _ | .wildcard, .tuple _ =>
      .error ("EVM: tuple-yielding iterator must be destructured with a tuple pattern " ++
        "(e.g. `for (k, v) in m.iter()`)")
  | _, .tuple _ => .error "EVM: unsupported loop pattern"

/-! ### Lowering -/

abbrev Decls := List (String × Rhs)

/-- A statement of the loop body. -/
inductive BodyOp where
  | declare (temp : Nat) (rhs : Rhs)
  /-- a block that binds, and continues the loop unless the condition holds -/
  | filter (decls : Decls) (body : Expr)
  /-- a block that binds and assigns the local declared before it -/
  | map (temp : Nat) (decls : Decls) (body : Expr)
  /-- break when the counter has reached the bound, else count -/
  | take (n : Expr)

/-- The end of the loop body. -/
inductive Finish where
  | push (rhs : Rhs)
  | accumulate (acc : Option String) (init : Expr) (decls : Decls) (body : Expr)

structure ChainLoop where
  source : IterSource
  body : List BodyOp
  finish : Finish

/-- The stages of `lower_iter_chain`, from stage number `k` on. -/
def lowerStages : Nat → List ChainStage → IterElem → Except String (List BodyOp × IterElem)
  | _, [], cur => .ok ([], cur)
  | k, .iter :: ss, cur | k, .keys :: ss, cur => lowerStages (k + 1) ss cur
  | k, .values :: ss, .tuple (_ :: v :: _) => lowerStages (k + 1) ss (.scalar v)
  | _, .values :: _, _ =>
      .error "EVM: `.values()` is only supported on HashMap iterators (use `m.values()` directly)"
  | k, .enumerate :: ss, .scalar rhs => do
      let (ops, cur) ← lowerStages (k + 1) ss (.tuple [.index, .temp k])
      return (.declare k rhs :: ops, cur)
  | _, .enumerate :: _, .tuple _ =>
      .error "EVM: enumerate over a tuple-yielding iterator is unsupported"
  | k, .filter pat body :: ss, cur => do
      let decls ← bindLoopPattern pat cur
      let (ops, cur) ← lowerStages (k + 1) ss cur
      return (.filter decls body :: ops, cur)
  | k, .map pat body :: ss, cur => do
      let decls ← bindLoopPattern pat cur
      let (ops, cur) ← lowerStages (k + 1) ss (.scalar (.temp k))
      return (.map k decls body :: ops, cur)
  | k, .take n :: ss, cur => do
      let (ops, cur) ← lowerStages (k + 1) ss cur
      return (.take n :: ops, cur)

/-- The accumulator: an identifier, or nothing for `_`. -/
def accumulatorName : Pattern → Option (Option String)
  | .ident x => some (some x)
  | .wildcard => some none
  | _ => none

section Lowering

-- the Solidity type inferred for the expression is a mapping
variable (inferredMapping : Expr → Bool) (entity : Entity)

/-- `is_hashmap_acc_init`. -/
def isHashMapAccInit (init : Expr) : Bool :=
  inferredMapping init ||
    match init with
    | .emptyCollection => true
    | _ => false

/-- `lower_iter_chain`. -/
def lowerIterChain (source : Expr) (stages : List ChainStage) :
    ChainTerminator → Except String ChainLoop
  | .collect => do
      let src := resolveIterSource entity source
      let (ops, cur) ← lowerStages 0 stages src.elem
      match cur with
      | .scalar rhs => return ⟨src, ops, .push rhs⟩
      | .tuple _ =>
          .error ("EVM: .collect() over a tuple-yielding chain (e.g. .enumerate().collect()) " ++
            "requires a record/tuple element type - pending EVM-12 Batch C")
  | .fold init accPat varPat body => do
      if isHashMapAccInit inferredMapping init then
        throw ("EVM: HashMap accumulator in `.fold` is not supported (Solidity has no in-memory " ++
          "mappings); use a per-entity storage staging map and write into it from the loop body, " ++
          "then read at the end")
      match accumulatorName accPat with
      | none =>
          .error ("EVM: chain `.fold` accumulator pattern must be an identifier or `_`; use a " ++
            "record-typed acc and reference fields via `acc.field` instead of destructuring")
      | some acc =>
          let src := resolveIterSource entity source
          let (ops, cur) ← lowerStages 0 stages src.elem
          let decls ← bindLoopPattern varPat cur
          return ⟨src, ops, .accumulate acc init decls body⟩

/-- `gen_fold_loop`. -/
def genFoldLoop (iter init : Expr) (accPat varPat : Pattern) (body : Expr) :
    Except String ChainLoop := do
  if isHashMapAccInit inferredMapping init then
    throw ("EVM: HashMap accumulator in `.fold` is not supported (Solidity has no in-memory " ++
      "mappings); use a per-entity storage staging map and write into it from the loop body, " ++
      "then read at the end")
  match accumulatorName accPat with
  | none =>
      .error ("EVM: `.fold` accumulator pattern must be an identifier or `_`; use a record-typed " ++
        "acc and reference fields via `acc.field` instead of destructuring")
  | some acc =>
      let src := resolveIterSource entity iter
      let decls ← bindLoopPattern varPat src.elem
      return ⟨src, [], .accumulate acc init decls body⟩

/-- The part of `gen_expr_hoisted` for iterations: chains, then a `fold` without stages. -/
def lowerIteration (e : Expr) : Option (Except String ChainLoop) :=
  match parseIterChain e with
  | some (source, stages, term) => some (lowerIterChain inferredMapping entity source stages term)
  | none =>
      match foldCall e with
      | some (.fold init accPat varPat body, base) =>
          some (genFoldLoop inferredMapping entity base init accPat varPat body)
      | _ => none

/-- The source, stages and terminator of an iteration. -/
def iterationParts (e : Expr) : Option (Expr × List ChainStage × ChainTerminator) :=
  (parseIterChain e).or ((foldCall e).map fun t => (t.2, [], t.1))

end Lowering

/-! ### Running the loop -/

/-- What expressions mean where the loop stands: their value, or a revert, from the
    locals that occur free in them, and the contents of the maps in storage. -/
structure Meaning (V : Type) where
  eval : Expr → List (String × V) → Option V
  truth : V → Bool
  toNat : V → Nat
  ofNat : Nat → V
  elems : V → List V
  tuple : List V → V
  untuple : V → Option (List V)
  entries : String → List (V × V)
  innerEntries : String → V → List (V × V)
  untuple_tuple : ∀ vs, untuple (tuple vs) = some vs
  eval_congr : ∀ e ρ ρ', (∀ x, OccursFree x e → ρ.lookup x = ρ'.lookup x) → eval e ρ = eval e ρ'

/-- What the loop reads at one index. -/
inductive Row (V : Type) where
  | scalar (v : V)
  | entry (k v : V)

/-- How an iteration of the body ends. -/
inductive BodyEnd (V : Type) where
  | fall (temps : List (Nat × V)) (taken : Nat)
  | continue (taken : Nat)
  | break

section Running

variable {V : Type} (L : Meaning V) (ρ : List (String × V))

/-- The rows up to the loop bound; the bound of a range is `stop - start`, checked. -/
def sourceRows : IterSource → Option (List (Row V))
  | .range start stop =>
      (L.eval start ρ).bind fun a => (L.eval stop ρ).bind fun b =>
        if L.toNat b < L.toNat a then none
        else some ((List.range (L.toNat b - L.toNat a)).map fun i => .scalar (L.ofNat (L.toNat a + i)))
  | .entries m | .memberValues m => some ((L.entries m).map fun kv => .entry kv.1 kv.2)
  | .nestedSlot _ outer => (L.eval outer ρ).map fun _ => []
  | .vec e => (L.eval e ρ).map fun v => (L.elems v).map .scalar

def Rhs.eval (row : Row V) (i : Nat) (temps : List (Nat × V)) : Rhs → Option V
  | .element =>
      match row with
      | .scalar v => some v
      | .entry _ _ => none
  | .key =>
      match row with
      | .entry k _ => some k
      | .scalar _ => none
  | .value =>
      match row with
      | .entry _ v => some v
      | .scalar _ => none
  | .zero => some (L.ofNat 0)
  | .index => some (L.ofNat i)
  | .temp n => temps.lookup n

def bindDecls (row : Row V) (i : Nat) (temps : List (Nat × V)) : Decls → Option (List (String × V))
  | [] => some []
  | (x, rhs) :: decls =>
      (rhs.eval L row i temps).bind fun v => (bindDecls row i temps decls).map ((x, v) :: ·)

def runBody (row : Row V) (i : Nat) : List BodyOp → List (Nat × V) → Nat → Option (BodyEnd V)
  | [], temps, taken => some (.fall temps taken)
  | .declare n rhs :: ops, temps, taken =>
      (rhs.eval L row i temps).bind fun v => runBody row i ops ((n, v) :: temps) taken
  | .filter decls body :: ops, temps, taken =>
      (bindDecls L row i temps decls).bind fun bs => (L.eval body (bs ++ ρ)).bind fun c =>
        if L.truth c then runBody row i ops temps taken else some (.continue taken)
  | .map n decls body :: ops, temps, taken =>
      (bindDecls L row i temps decls).bind fun bs => (L.eval body (bs ++ ρ)).bind fun v =>
        runBody row i ops ((n, v) :: temps) taken
  | .take n :: ops, temps, taken =>
      (L.eval n ρ).bind fun k =>
        if L.toNat k ≤ taken then some .break else runBody row i ops temps (taken + 1)

/-- The loop that fills the result array; a write past its end panics. -/
def collectLoop (body : List BodyOp) (rhs : Rhs) :
    Nat → Nat → List V → Nat → List (Row V) → Option (List V)
  | _, _, cells, pos, [] => some (cells.take pos)
  | i, taken, cells, pos, row :: rows =>
      match runBody L ρ row i body [] taken with
      | some (.fall temps taken) =>
          (rhs.eval L row i temps).bind fun v =>
            if pos < cells.length then collectLoop body rhs (i + 1) taken (cells.set pos v) (pos + 1) rows
            else none
      | some (.continue taken) => collectLoop body rhs (i + 1) taken cells pos rows
      | some .break => some (cells.take pos)
      | none => none

/-- The accumulator is declared outside the loop, under its own name. -/
def accLocals (acc : Option String) (a : V) : List (String × V) := acc.toList.map (·, a)

/-- The loop that updates the accumulator; a parameter of its name takes the update. -/
def foldLoop (body : List BodyOp) (acc : Option String) (decls : Decls) (update : Expr) :
    Nat → Nat → V → List (Row V) → Option V
  | _, _, a, [] => some a
  | i, taken, a, row :: rows =>
      match runBody L (accLocals acc a ++ ρ) row i body [] taken with
      | some (.fall temps taken) =>
          (bindDecls L row i temps decls).bind fun bs =>
            (L.eval update (bs ++ (accLocals acc a ++ ρ))).bind fun a' =>
              foldLoop body acc decls update (i + 1) taken
                (if acc.any fun x => (decls.map Prod.fst).contains x then a else a') rows
      | some (.continue taken) => foldLoop body acc decls update (i + 1) taken a rows
      | some .break => some a
      | none => none

inductive ChainValue (V : Type) where
  | array (vs : List V)
  | value (v : V)

def ChainLoop.run (loop : ChainLoop) : Option (ChainValue V) :=
  (sourceRows L ρ loop.source).bind fun rows =>
    match loop.finish with
    | .push rhs =>
        (collectLoop L ρ loop.body rhs 0 0 (List.replicate rows.length (L.ofNat 0)) 0 rows).map .array
    | .accumulate acc init decls update =>
        (L.eval init ρ).bind fun a => (foldLoop L ρ loop.body acc decls update 0 0 a rows).map .value

end Running

end CambrianLang.Solidity
