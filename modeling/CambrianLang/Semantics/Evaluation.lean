/-
  **Evaluating expressions and running routes**, with everything a run can learn
  about the outside kept apart.

  What an operator computes from its parts is left to a `Language`; what state,
  message and chain answer is left to a `Platform`.  Names are resolved statically,
  as the lowering does.  A subexpression or callee that never asks the platform for
  anything then has the same value in every world.
-/
import CambrianLang.Semantics.Effects
import CambrianLang.Validate.EvmRules

namespace CambrianLang.Semantics

open Ast Validate Relation

/-! ### What an expression asks for -/

/-- What lies outside the arguments of a call. -/
inductive Source where
  | member (name : String)
  | temporal (name : String)
  | msg (field : String)
  | sys (field : String)
  | trace (field : String)
  | platform (ns name : String)
  | address (entity : String)
deriving DecidableEq

/-- The code a name is looked up from: an entity's, or that of a pure function,
    which may belong to a library. -/
inductive Scope where
  | entity (e : Entity)
  | pureFn (lib : Option LibraryDecl)

/-- The code a call runs. -/
structure Callee where
  scope : Scope
  params : List String
  body : Expr

def Callee.ofFn (lib : Option LibraryDecl) (f : PureFn) : Callee :=
  ⟨.pureFn lib, f.params.map (·.name), f.body⟩

def Callee.ofMacro (e : Entity) (m : Macro) : Callee := ⟨.entity e, m.params.map (·.name), m.body⟩

section Resolution

variable (program : Program)

/-- `pure_fn_state_names`: members of any entity that are not also constants. -/
def pureFnStateNames : List String :=
  let consts := (program.libraries.flatMap fun l => l.constants.map (·.name)) ++
    program.entities.flatMap fun e => e.constants.map (·.name)
  (program.entities.flatMap fun e => e.members.map (·.name)).filter fun n => !consts.contains n

def stateNames : Scope → List String
  | .entity e => e.members.map (·.name)
  | .pureFn _ => pureFnStateNames program

/-- A call of the platform that looks at the chain; the other `evm` intrinsics hash or
    recover a signer (`gen_evm_ns`). -/
def readsPlatform (ns name : String) : Bool :=
  ns == "gosh" || (ns == "evm" && ["balance", "blockhash"].contains name)

/-- The entity whose instance address is computed, with the identity arguments. -/
def addressQuery : Expr → Option (String × List Expr)
  | .addressOf entity args _ => some (entity, args)
  | .methodCall (.ident entity) "address" args =>
      if startsUpper entity then some (entity, args) else none
  | .fnCall "addressOf" (.methodCall (.ident entity) "state" args :: rest) =>
      if startsUpper entity && decide (rest.length ≤ 1) then some (entity, args) else none
  | _ => none

/-- What an expression itself asks the outside for, and with which operands. -/
def asks (sc : Scope) (bound : List String) : Expr → Option (Source × List Expr)
  | .ident x => if x ∉ bound ∧ x ∈ stateNames program sc then some (.member x, []) else none
  | .temporalRef x => some (.temporal x, [])
  | .msgField f => some (.msg f, [])
  | .sysField f => some (.sys f, [])
  | .traceField f => some (.trace f, [])
  | .traceCall name _ => some (.trace name, [])
  | .enumVariantWithData ns name args | .namespacedCall ns name args _ =>
      if readsPlatform ns name then some (.platform ns name, args) else none
  | e => (addressQuery e).map fun q => (.address q.1, q.2)

def libraryFn (lib name : String) : Option Callee :=
  (program.libraries.find? (·.name == lib)).bind fun l =>
    (l.pureFns.find? (·.name == name)).map (.ofFn (some l))

/-- A pure function by its bare name; inside a library its siblings come first. -/
def bareFn (sc : Scope) (name : String) : Option Callee :=
  let sibling : Option Callee := match sc with
    | .pureFn (some l) => (l.pureFns.find? (·.name == name)).map (.ofFn (some l))
    | _ => none
  sibling.or ((program.pureFns.find? (·.name == name)).map (.ofFn none))

/-- The code an expression itself calls, with the operands. -/
def calls (sc : Scope) : Expr → Option (Callee × List Expr)
  | .macroRef name args =>
      match sc with
      | .entity e => (e.macros.find? (·.name == name)).map fun m => (.ofMacro e m, args)
      | .pureFn _ => none
  | .fnCall name args => (bareFn program sc name).map (·, args)
  | .enumVariantWithData lib name args => (libraryFn program lib name).map (·, args)
  | .methodCall (.ident lib) name args => (libraryFn program lib name).map (·, args)
  | _ => none

/-- How an expression is evaluated. -/
inductive Kind where
  | ask (source : Source) (operands : List Expr)
  | call (callee : Callee) (operands : List Expr)
  | local (name : String)
  | compute

def kind (sc : Scope) (bound : List String) (e : Expr) : Kind :=
  match asks program sc bound e with
  | some (source, operands) => .ask source operands
  | none =>
      match calls program sc e with
      | some (callee, operands) => .call callee operands
      | none =>
          match e with
          | .ident x => if x ∈ bound then .local x else .compute
          | _ => .compute

end Resolution

/-! ### Evaluation -/

/-- A computation: without a result when it runs out of fuel, else failing or done. -/
abbrev Run (F α : Type) := ExceptT F Option α

def Run.outOfFuel {F α : Type} : Run F α := ExceptT.mk none

abbrev Locals (V : Type) := List (String × V)

/-- The meaning of operators, builtins, patterns and failures. -/
structure Language (V F : Type) where
  /-- the value of an expression from what its immediate subexpressions denote -/
  compute : Expr → List (Locals V → Run F V) → Locals V → Run F V
  bind : Pattern → V → Locals V → Locals V
  truth : V → Bool
  elems : V → List V
  same : V → V → Bool
  unboundName : String → F
  thrown : Nat → F
  custom : String → List V → F
  fromFailed : F

/-- What the outside answers and does, in a world `W` of state and environment. -/
structure Platform (V F W : Type) where
  answer : Source → List V → W → Run F V
  perform : RouteAction → Locals V → W → Run F (Locals V × W)
  transform : Entity → Route → Option String → Locals V → W → Run F W

section Evaluation

variable {V F W : Type} (program : Program) (L : Language V F) (M : Platform V F W)

def eval (w : W) : Nat → Scope → List String → Expr → Locals V → Run F V
  | 0, _, _, _, _ => .outOfFuel
  | n + 1, sc, bound, e, ρ =>
      match kind program sc bound e with
      | .ask source operands => do
          let vs ← operands.mapM (eval w n sc bound · ρ)
          M.answer source vs w
      | .call callee operands => do
          let vs ← operands.mapM (eval w n sc bound · ρ)
          eval w n callee.scope callee.params callee.body (callee.params.zip vs)
      | .local x =>
          match ρ.lookup x with
          | some v => pure v
          | none => throw (L.unboundName x)
      | .compute => L.compute e (e.parts.map fun p => eval w n sc (bound ++ p.1) p.2) ρ

/-- A call of a pure function with the given arguments. -/
def runPureFn (w : W) (n : Nat) (lib : Option LibraryDecl) (f : PureFn) (args : List V) : Run F V :=
  eval program L M w n (.pureFn lib) (f.params.map (·.name)) f.body ((f.params.map (·.name)).zip args)

/-! ### Actions -/

/-- Where an action leaves the run. -/
inductive Flow (V W : Type) where
  | go (ρ : Locals V) (w : W)
  | ret (values : List V)

def Flow.andThen (x : Run F (Flow V W)) (k : Locals V → W → Run F (Flow V W)) : Run F (Flow V W) := do
  match ← x with
  | .go ρ w => k ρ w
  | .ret values => pure (.ret values)

/-- The names an action binds for the actions after it. -/
def boundBy : RouteAction → List String
  | .letA p _ => p.names
  | .varCall x _ _ _ _ => [x]
  | _ => []

mutual
def execAction (n : Nat) (sc : Scope) :
    RouteAction → List String → Locals V → W → Run F (Flow V W)
  | .ret values, bound, ρ, w => do
      let vs ← values.mapM (eval program L M w n sc bound · ρ)
      pure (.ret vs)
  | .letA p value, bound, ρ, w => do
      let v ← eval program L M w n sc bound value ρ
      pure (.go (L.bind p v ρ) w)
  | .conditional c thenActions elseActions, bound, ρ, w => do
      let v ← eval program L M w n sc bound c ρ
      -- what a branch binds ends with it
      if L.truth v then Flow.andThen (execActions n sc thenActions bound ρ w) fun _ w => pure (.go ρ w)
      else Flow.andThen (execActions n sc elseActions bound ρ w) fun _ w => pure (.go ρ w)
  | .forA p iter body, bound, ρ, w => do
      let v ← eval program L M w n sc bound iter ρ
      (L.elems v).foldl
        (fun x elem => Flow.andThen x fun _ w => Flow.andThen
          (execActions n sc body (bound ++ p.names) (L.bind p elem ρ) w) fun _ w => pure (.go ρ w))
        (pure (.go ρ w))
  | .throw code, _, _, _ => throw (L.thrown code)
  | .throwCustom name args, bound, ρ, w => do
      let vs ← args.mapM (eval program L M w n sc bound · ρ)
      throw (L.custom name vs)
  | a, _, ρ, w => do
      let (ρ, w) ← M.perform a ρ w
      pure (.go ρ w)
def execActions (n : Nat) (sc : Scope) :
    List RouteAction → List String → Locals V → W → Run F (Flow V W)
  | [], _, ρ, w => pure (.go ρ w)
  | a :: as, bound, ρ, w =>
      Flow.andThen (execAction n sc a bound ρ w) (execActions n sc as (bound ++ boundBy a))
end

/-! ### Clauses and routes -/

/-- `where` clauses, in order. -/
def checkWheres (w : W) (n : Nat) (sc : Scope) (bound : List String) (ρ : Locals V) :
    List WhereClause → Run F Unit
  | [] => pure ()
  | c :: cs => do
      let v ← eval program L M w n sc bound c.condition ρ
      if L.truth v then checkWheres w n sc bound ρ cs
      else match c.errorName with
        | some name => do
            let vs ← c.errorArgs.mapM (eval program L M w n sc bound · ρ)
            throw (L.custom name vs)
        | none => throw (L.thrown c.errorCode)

/-- The entity is declared with as many identity members as the clause has arguments. -/
def namesInstance (c : FromClause) : Bool :=
  (program.entities.find? (·.name == c.entityName)).any fun e =>
    c.args.length == (e.members.filter (·.isIdentity)).length

/-- The sender is the one the clause names. -/
def sentFrom (w : W) (n : Nat) (sc : Scope) (bound : List String) (ρ : Locals V) (c : FromClause) :
    Run F Bool := do
  let sender ← M.answer (.msg "sender") [] w
  match c.kind with
  | .member => return L.same sender (← M.answer (.member c.entityName) [] w)
  | .entity =>
      let vs ← c.args.mapM (eval program L M w n sc bound · ρ)
      if namesInstance program c then return L.same sender (← M.answer (.address c.entityName) vs w)
      else match vs with
        | [v] => return L.same sender v
        | _ => return false

/-- The annotation that all the clauses have in common. -/
def shared {α : Type} [BEq α] (f : FromClause → Option α) (cs : List FromClause) : Option α :=
  (cs.head?.bind f).filter fun x => cs.all fun c => f c == some x

/-- The failure of a list of `from` clauses: their common error, if there is one. -/
def fromFailure (w : W) (n : Nat) (sc : Scope) (bound : List String) (ρ : Locals V)
    (cs : List FromClause) : Run F Unit :=
  match shared (·.errorName) cs with
  | some name => do
      let vs ← (cs.head?.toList.flatMap (·.errorArgs)).mapM (eval program L M w n sc bound · ρ)
      throw (L.custom name vs)
  | none =>
      match shared (·.errorCode) cs with
      | some code => throw (L.thrown code)
      | none => throw L.fromFailed

/-- `from` clauses: the sender is one of those named. -/
def checkFroms (w : W) (n : Nat) (sc : Scope) (bound : List String) (ρ : Locals V)
    (cs : List FromClause) : Run F Unit := do
  if cs.isEmpty then return
  let passed ← cs.anyM (sentFrom program L M w n sc bound ρ)
  if passed then return
  fromFailure program L M w n sc bound ρ cs

/-- The phases of a body, each with its `where` clauses and actions. -/
def stages : RouteBody → List (Option String × List WhereClause × List RouteAction)
  | .unphased actions => [(none, [], actions)]
  | .phased phases => phases.map fun p => (some p.name, p.whereClauses, p.actions)
  | .mixed phases actions =>
      (phases.map fun p => (some p.name, p.whereClauses, p.actions)) ++ [(none, [], actions)]

def execStages (n : Nat) (e : Entity) (r : Route) :
    List (Option String × List WhereClause × List RouteAction) → List String → Locals V → W →
      Run F (Flow V W)
  | [], _, ρ, w => pure (.go ρ w)
  | (phase, wheres, actions) :: rest, bound, ρ, w => do
      checkWheres program L M w n (.entity e) bound ρ wheres
      let w ← if hasTransforms e r.name then M.transform e r phase ρ w else pure w
      Flow.andThen (execActions program L M n (.entity e) actions bound ρ w)
        (execStages n e r rest (bound ++ actions.flatMap boundBy))

/-- A call of a route: what it returns, or how it fails. -/
def runRoute (w : W) (n : Nat) (e : Entity) (r : Route) (args : List V) : Run F (List V) := do
  let bound := r.params.map (·.name)
  let ρ := bound.zip args
  checkFroms program L M w n (.entity e) bound ρ r.fromClauses
  checkWheres program L M w n (.entity e) bound ρ r.whereClauses
  match ← execStages program L M n e r (stages r.body) bound ρ w with
  | .go _ _ => return []
  | .ret values => return values

end Evaluation

/-! ### Expressions that ask for nothing -/

/-- An expression with the code it belongs to and the names bound around it. -/
structure Node where
  scope : Scope
  bound : List String
  expr : Expr

section Static

variable (program : Program)

/-- From an expression to one that its evaluation may evaluate. -/
inductive Evaluates : Node → Node → Prop
  | part {sc : Scope} {bound bs : List String} {e c : Expr} (h : (bs, c) ∈ e.parts) :
      Evaluates ⟨sc, bound, e⟩ ⟨sc, bound ++ bs, c⟩
  | call {sc : Scope} {bound : List String} {e : Expr} {callee : Callee} {operands : List Expr}
      (h : calls program sc e = some (callee, operands)) :
      Evaluates ⟨sc, bound, e⟩ ⟨callee.scope, callee.params, callee.body⟩

/-- The node itself asks the outside for something. -/
def Asks (n : Node) : Prop := (asks program n.scope n.bound n.expr).isSome = true

/-- Evaluating the node may come to ask the outside for something. -/
def MayAsk (n : Node) : Prop := ∃ m, ReflTransGen (Evaluates program) n m ∧ Asks program m

end Static

section Insulation

variable {V F W : Type} {program : Program} {L : Language V F} {M : Platform V F W}

theorem MayAsk.of_step {n m : Node} (hstep : Evaluates program n m) (h : MayAsk program m) :
    MayAsk program n := by
  obtain ⟨k, hpath, hk⟩ := h
  exact ⟨k, .head hstep hpath, hk⟩

/-- A class of expressions closed under evaluation, none of which asks. -/
theorem not_mayAsk_of_closed {S : Node → Prop}
    (hstep : ∀ n m, S n → Evaluates program n m → S m) (hasks : ∀ n, S n → ¬ Asks program n)
    {n : Node} (hn : S n) : ¬ MayAsk program n := by
  rintro ⟨m, hpath, hm⟩
  induction hpath using ReflTransGen.head_induction_on with
  | refl => exact hasks _ hn hm
  | head hfirst _ ih => exact ih (hstep _ _ hn hfirst)

theorem calls_operands {sc : Scope} {e : Expr} {callee : Callee} {operands : List Expr}
    (h : calls program sc e = some (callee, operands)) {o : Expr} (ho : o ∈ operands) :
    ([], o) ∈ e.parts := by
  have hargs : ∀ (x : Option Callee) (args : List Expr), x.map (·, args) = some (callee, operands) →
      args = operands := by
    intro x args hx
    obtain ⟨c, -, heq⟩ := Option.map_eq_some_iff.mp hx
    exact (Prod.mk.inj heq).2
  cases e with
  | macroRef name args =>
    cases sc with
    | entity en =>
      obtain ⟨m, -, heq⟩ := Option.map_eq_some_iff.mp h
      obtain ⟨-, rfl⟩ := Prod.mk.inj heq
      exact List.mem_map.mpr ⟨o, ho, rfl⟩
    | pureFn lib => cases h
  | fnCall name args =>
    obtain rfl := hargs _ args h
    exact List.mem_map.mpr ⟨o, ho, rfl⟩
  | enumVariantWithData lib name args =>
    obtain rfl := hargs _ args h
    exact List.mem_map.mpr ⟨o, ho, rfl⟩
  | methodCall b name args =>
    cases b with
    | ident lib =>
      obtain rfl := hargs _ args h
      exact List.mem_cons_of_mem _ (List.mem_map.mpr ⟨o, ho, rfl⟩)
    | _ => cases h
  | _ => cases h

theorem mapM_eq {α β : Type} {f g : α → Run F β} {xs : List α} (h : ∀ x ∈ xs, f x = g x) :
    xs.mapM f = xs.mapM g := by
  induction xs with
  | nil => rfl
  | cons x xs ih =>
    obtain ⟨hx, hxs⟩ := List.forall_mem_cons.mp h
    simp only [List.mapM_cons, hx, ih hxs]

/-- **An expression that cannot ask for anything has one value in all worlds.** -/
theorem eval_eq (w w' : W) (n : Nat) {sc : Scope} {bound : List String} {e : Expr}
    (h : ¬ MayAsk program ⟨sc, bound, e⟩) (ρ : Locals V) :
    eval program L M w n sc bound e ρ = eval program L M w' n sc bound e ρ := by
  induction n generalizing sc bound e ρ with
  | zero => rfl
  | succ n ih =>
    have hnone : asks program sc bound e = none := by
      rw [← Option.not_isSome_iff_eq_none]
      exact fun hsome => h ⟨_, .refl, hsome⟩
    have hoperands : ∀ {callee operands}, calls program sc e = some (callee, operands) →
        operands.mapM (eval program L M w n sc bound · ρ) =
          operands.mapM (eval program L M w' n sc bound · ρ) := by
      intro callee operands hcall
      refine mapM_eq fun o ho => ih ?_ ρ
      have hstep : Evaluates program ⟨sc, bound, e⟩ ⟨sc, bound ++ [], o⟩ := .part (calls_operands hcall ho)
      rw [List.append_nil] at hstep
      exact fun hmay => h (.of_step hstep hmay)
    have hparts : (e.parts.map fun p => eval program L M w n sc (bound ++ p.1) p.2) =
        e.parts.map fun p => eval program L M w' n sc (bound ++ p.1) p.2 := by
      refine List.map_congr_left fun p hp => funext fun ρ' => ih ?_ ρ'
      exact fun hmay => h (.of_step (.part hp) hmay)
    have hcompute : kind program sc bound e = .compute →
        eval program L M w (n + 1) sc bound e ρ = eval program L M w' (n + 1) sc bound e ρ := by
      intro hkind
      simp only [eval, hkind, hparts]
    cases hcall : calls program sc e with
    | some call =>
      obtain ⟨callee, operands⟩ := call
      have hkind : kind program sc bound e = .call callee operands := by simp only [kind, hnone, hcall]
      have hbody : ∀ ρ', eval program L M w n callee.scope callee.params callee.body ρ' =
          eval program L M w' n callee.scope callee.params callee.body ρ' :=
        ih fun hmay => h (.of_step (.call hcall) hmay)
      simp only [eval, hkind, hoperands hcall, hbody]
    | none =>
      by_cases hident : ∃ x, e = .ident x ∧ x ∈ bound
      · obtain ⟨x, rfl, hx⟩ := hident
        have hkind : kind program sc bound (.ident x) = .local x := by
          simp only [kind, hnone, hcall, if_pos hx]
        simp only [eval, hkind]
      · refine hcompute ?_
        simp only [kind, hnone, hcall]
        cases e with
        | ident x => exact if_neg fun hx => hident ⟨x, rfl, hx⟩
        | _ => rfl

/-- The same expression with fewer names bound around it. -/
def Node.Opens (n m : Node) : Prop := n.scope = m.scope ∧ n.expr = m.expr ∧ n.bound ⊆ m.bound

theorem Node.Opens.asks {n m : Node} (h : n.Opens m) (hm : Asks program m) : Asks program n := by
  obtain ⟨sc, bound, e⟩ := n
  obtain ⟨sc', bound', e'⟩ := m
  obtain ⟨rfl, rfl, hsub⟩ := h
  cases e with
  | ident x =>
    simp only [Asks, Semantics.asks] at hm ⊢
    split at hm
    · rename_i hx
      rw [if_pos ⟨fun hmem => hx.1 (hsub hmem), hx.2⟩]
      rfl
    · cases hm
  | _ => exact hm

theorem Node.Opens.step {n m m' : Node} (h : n.Opens m) (hstep : Evaluates program m m') :
    ∃ n', Evaluates program n n' ∧ n'.Opens m' := by
  obtain ⟨sc, bound, e⟩ := n
  cases hstep with
  | part hpart =>
    obtain ⟨rfl, rfl, hsub⟩ := h
    refine ⟨_, .part hpart, rfl, rfl, ?_⟩
    exact List.append_subset.mpr
      ⟨List.subset_append_of_subset_left _ hsub, List.subset_append_right _ _⟩
  | call hcall =>
    obtain ⟨rfl, rfl, -⟩ := h
    exact ⟨_, .call hcall, rfl, rfl, fun _ hx => hx⟩

/-- Binding more names takes reads away. -/
theorem mayAsk_of_opens {n m : Node} (h : n.Opens m) (hm : MayAsk program m) : MayAsk program n := by
  obtain ⟨k, hpath, hk⟩ := hm
  induction hpath using ReflTransGen.head_induction_on generalizing n with
  | refl => exact ⟨n, .refl, h.asks hk⟩
  | head hstep _ ih =>
    obtain ⟨n', hn', hopens⟩ := h.step hstep
    exact .of_step hn' (ih hopens)

/-! ### Routes that ask for nothing -/

/-- Actions whose doing is left to the platform. -/
def reachesOut : RouteAction → Bool
  | .send .. | .effect .. | .deploy .. | .rescue .. | .emit .. | .callRoute .. | .varCall ..
  | .updateCode .. => true
  | _ => false

/-- Wherever more names are bound, the expression asks for nothing. -/
def Mute (program : Program) (sc : Scope) (bound : List String) (e : Expr) : Prop :=
  ¬ MayAsk program ⟨sc, bound, e⟩

def MuteAction (program : Program) (sc : Scope) (bound : List String) (a : RouteAction) : Prop :=
  ∀ b, Subaction a b → reachesOut b = false ∧ ∀ x ∈ b.exprs, Mute program sc bound x

structure MuteRoute (program : Program) (e : Entity) (r : Route) : Prop where
  froms : r.fromClauses = []
  wheres : ∀ c ∈ r.whereClauses ++ r.body.phaseBlocks.flatMap (·.whereClauses),
    ∀ x ∈ c.condition :: c.errorArgs, Mute program (.entity e) (r.params.map (·.name)) x
  transforms : hasTransforms e r.name = false
  actions : ∀ a ∈ r.body.allActions, MuteAction program (.entity e) (r.params.map (·.name)) a

/-- Two runs, from the worlds `w` and `w'`, that go the same way and change neither. -/
inductive SameFlow (w w' : W) : Run F (Flow V W) → Run F (Flow V W) → Prop
  | outOfFuel : SameFlow w w' .outOfFuel .outOfFuel
  | failed (f : F) : SameFlow w w' (throw f) (throw f)
  | ret (values : List V) : SameFlow w w' (pure (.ret values)) (pure (.ret values))
  | go (ρ : Locals V) : SameFlow w w' (pure (.go ρ w)) (pure (.go ρ w'))

theorem SameFlow.bind {α : Type} {w w' : W} (x : Run F α) {k k' : α → Run F (Flow V W)}
    (h : ∀ a, SameFlow w w' (k a) (k' a)) : SameFlow w w' (x >>= k) (x >>= k') := by
  match x with
  | none => exact .outOfFuel
  | some (.error f) => exact .failed f
  | some (.ok a) => exact h a

theorem SameFlow.andThen {w w' : W} {x x' : Run F (Flow V W)} (hx : SameFlow w w' x x')
    {k k' : Locals V → W → Run F (Flow V W)} (h : ∀ ρ, SameFlow w w' (k ρ w) (k' ρ w')) :
    SameFlow w w' (Flow.andThen x k) (Flow.andThen x' k') := by
  cases hx with
  | outOfFuel => exact .outOfFuel
  | failed f => exact .failed f
  | ret values => exact .ret values
  | go ρ => exact h ρ

theorem Mute.eval_eq {sc : Scope} {params bound : List String} {e : Expr}
    (h : Mute program sc params e) (hsub : params ⊆ bound) (w w' : W) (n : Nat) (ρ : Locals V) :
    eval program L M w n sc bound e ρ = eval program L M w' n sc bound e ρ := by
  have hopens : Node.Opens ⟨sc, params, e⟩ ⟨sc, bound, e⟩ := ⟨rfl, rfl, hsub⟩
  exact Semantics.eval_eq w w' n (fun hmay => h (mayAsk_of_opens hopens hmay)) ρ

theorem Mute.evalAll_eq {sc : Scope} {params bound : List String} {es : List Expr}
    (h : ∀ e ∈ es, Mute program sc params e) (hsub : params ⊆ bound) (w w' : W) (n : Nat)
    (ρ : Locals V) :
    es.mapM (eval program L M w n sc bound · ρ) = es.mapM (eval program L M w' n sc bound · ρ) :=
  mapM_eq fun e he => (h e he).eval_eq hsub w w' n ρ

theorem MuteAction.child {sc : Scope} {params : List String} {a b : RouteAction}
    (h : MuteAction program sc params a) (hb : b ∈ a.children) : MuteAction program sc params b :=
  fun c hc => h c (.head hb hc)

mutual
theorem execAction_same (w w' : W) (n : Nat) {sc : Scope} {params : List String} :
    ∀ (a : RouteAction), MuteAction program sc params a → ∀ (bound : List String),
      params ⊆ bound → ∀ (ρ : Locals V),
      SameFlow w w' (execAction program L M n sc a bound ρ w) (execAction program L M n sc a bound ρ w')
  | .ret values, h, bound, hsub, ρ => by
    have heq : values.mapM (eval program L M w n sc bound · ρ) =
        values.mapM (eval program L M w' n sc bound · ρ) :=
      Mute.evalAll_eq (h _ .refl).2 hsub w w' n ρ
    simp only [execAction, heq]
    exact .bind _ fun vs => .ret vs
  | .letA p value, h, bound, hsub, ρ => by
    have hvalue : Mute program sc params value := (h _ .refl).2 _ List.mem_cons_self
    simp only [execAction, hvalue.eval_eq hsub w w' n ρ]
    exact .bind _ fun v => .go _
  | .conditional c thenActions elseActions, h, bound, hsub, ρ => by
    have hc : Mute program sc params c := (h _ .refl).2 _ List.mem_cons_self
    have hthen := execActions_same w w' n thenActions
      (fun b hb => h.child (List.mem_append_left _ hb)) bound hsub ρ
    have helse := execActions_same w w' n elseActions
      (fun b hb => h.child (List.mem_append_right _ hb)) bound hsub ρ
    simp only [execAction, hc.eval_eq hsub w w' n ρ]
    refine .bind _ fun v => ?_
    split
    · exact hthen.andThen fun _ => .go ρ
    · exact helse.andThen fun _ => .go ρ
  | .forA p iter body, h, bound, hsub, ρ => by
    have hiter : Mute program sc params iter := (h _ .refl).2 _ List.mem_cons_self
    have hbody := execActions_same w w' n body (fun b hb => h.child hb) (bound ++ p.names)
      (List.subset_append_of_subset_left _ hsub)
    simp only [execAction, hiter.eval_eq hsub w w' n ρ]
    refine .bind _ fun v => ?_
    generalize L.elems v = elems
    have hround : ∀ {x x' : Run F (Flow V W)}, SameFlow w w' x x' → SameFlow w w'
        (elems.foldl (fun x elem => Flow.andThen x fun _ w => Flow.andThen
          (execActions program L M n sc body (bound ++ p.names) (L.bind p elem ρ) w)
          fun _ w => pure (.go ρ w)) x)
        (elems.foldl (fun x elem => Flow.andThen x fun _ w => Flow.andThen
          (execActions program L M n sc body (bound ++ p.names) (L.bind p elem ρ) w)
          fun _ w => pure (.go ρ w)) x') := by
      induction elems with
      | nil => exact fun hx => hx
      | cons elem elems ih =>
        intro x x' hx
        refine ih (hx.andThen fun _ => ?_)
        exact (hbody _).andThen fun _ => .go ρ
    exact hround (.go ρ)
  | .throw code, _, _, _, _ => .failed _
  | .throwCustom name args, h, bound, hsub, ρ => by
    have heq : args.mapM (eval program L M w n sc bound · ρ) =
        args.mapM (eval program L M w' n sc bound · ρ) :=
      Mute.evalAll_eq (h _ .refl).2 hsub w w' n ρ
    simp only [execAction, heq]
    exact .bind _ fun vs => .failed _
  | .send .., h, _, _, _ => nomatch (h _ .refl).1
  | .effect .., h, _, _, _ => nomatch (h _ .refl).1
  | .deploy .., h, _, _, _ => nomatch (h _ .refl).1
  | .rescue .., h, _, _, _ => nomatch (h _ .refl).1
  | .emit .., h, _, _, _ => nomatch (h _ .refl).1
  | .callRoute .., h, _, _, _ => nomatch (h _ .refl).1
  | .varCall .., h, _, _, _ => nomatch (h _ .refl).1
  | .updateCode .., h, _, _, _ => nomatch (h _ .refl).1
theorem execActions_same (w w' : W) (n : Nat) {sc : Scope} {params : List String} :
    ∀ (as : List RouteAction), (∀ a ∈ as, MuteAction program sc params a) →
      ∀ (bound : List String), params ⊆ bound → ∀ (ρ : Locals V),
      SameFlow w w' (execActions program L M n sc as bound ρ w)
        (execActions program L M n sc as bound ρ w')
  | [], _, _, _, ρ => .go ρ
  | a :: as, h, bound, hsub, ρ => by
    obtain ⟨ha, has⟩ := List.forall_mem_cons.mp h
    simp only [execActions]
    refine (execAction_same w w' n a ha bound hsub ρ).andThen fun ρ' => ?_
    exact execActions_same w w' n as has (bound ++ boundBy a)
      (List.subset_append_of_subset_left _ hsub) ρ'
end

theorem checkFroms_nil (w : W) (n : Nat) (sc : Scope) (bound : List String) (ρ : Locals V) :
    checkFroms program L M w n sc bound ρ [] = pure () := rfl

theorem checkWheres_eq (w w' : W) (n : Nat) {sc : Scope} {params bound : List String}
    (hsub : params ⊆ bound) (ρ : Locals V) {cs : List WhereClause}
    (h : ∀ c ∈ cs, ∀ x ∈ c.condition :: c.errorArgs, Mute program sc params x) :
    checkWheres program L M w n sc bound ρ cs = checkWheres program L M w' n sc bound ρ cs := by
  induction cs with
  | nil => rfl
  | cons c cs ih =>
    obtain ⟨hc, hcs⟩ := List.forall_mem_cons.mp h
    obtain ⟨hcond, hargs⟩ := List.forall_mem_cons.mp hc
    simp only [checkWheres, hcond.eval_eq hsub w w' n ρ, ih hcs, Mute.evalAll_eq hargs hsub w w' n ρ]

theorem execStages_same (w w' : W) (n : Nat) {e : Entity} {r : Route} {params : List String}
    (htransforms : hasTransforms e r.name = false)
    {ss : List (Option String × List WhereClause × List RouteAction)}
    (hwheres : ∀ s ∈ ss, ∀ c ∈ s.2.1, ∀ x ∈ c.condition :: c.errorArgs,
      Mute program (.entity e) params x)
    (hactions : ∀ s ∈ ss, ∀ a ∈ s.2.2, MuteAction program (.entity e) params a)
    {bound : List String} (hsub : params ⊆ bound) (ρ : Locals V) :
    SameFlow w w' (execStages program L M n e r ss bound ρ w)
      (execStages program L M n e r ss bound ρ w') := by
  induction ss generalizing bound ρ with
  | nil => exact .go ρ
  | cons s ss ih =>
    obtain ⟨phase, wheres, actions⟩ := s
    obtain ⟨hwhere, hwheres⟩ := List.forall_mem_cons.mp hwheres
    obtain ⟨haction, hactions⟩ := List.forall_mem_cons.mp hactions
    simp only [execStages, checkWheres_eq w w' n hsub ρ hwhere, htransforms]
    refine .bind _ fun _ => ?_
    refine (execActions_same w w' n actions haction bound hsub ρ).andThen fun ρ' => ?_
    exact ih hwheres hactions (List.subset_append_of_subset_left _ hsub) ρ'

theorem mem_stages {body : RouteBody} {s : Option String × List WhereClause × List RouteAction}
    (hs : s ∈ stages body) : (∀ c ∈ s.2.1, c ∈ body.phaseBlocks.flatMap (·.whereClauses)) ∧
      ∀ a ∈ s.2.2, a ∈ body.allActions := by
  cases body with
  | unphased actions =>
    rw [List.mem_singleton.mp hs]
    exact ⟨fun c hc => absurd hc List.not_mem_nil, fun a ha => ha⟩
  | phased phases =>
    obtain ⟨p, hp, rfl⟩ := List.mem_map.mp hs
    exact ⟨fun c hc => List.mem_flatMap.mpr ⟨p, hp, hc⟩, fun a ha => List.mem_flatMap.mpr ⟨p, hp, ha⟩⟩
  | mixed phases actions =>
    rcases List.mem_append.mp hs with hphase | hlast
    · obtain ⟨p, hp, rfl⟩ := List.mem_map.mp hphase
      exact ⟨fun c hc => List.mem_flatMap.mpr ⟨p, hp, hc⟩,
        fun a ha => List.mem_append_left _ (List.mem_flatMap.mpr ⟨p, hp, ha⟩)⟩
    · rw [List.mem_singleton.mp hlast]
      exact ⟨fun c hc => absurd hc List.not_mem_nil, fun a ha => List.mem_append_right _ ha⟩

/-- **A route that asks for nothing has the same outcome in all worlds.** -/
theorem runRoute_eq {e : Entity} {r : Route} (h : MuteRoute program e r) (w w' : W) (n : Nat)
    (args : List V) : runRoute program L M w n e r args = runRoute program L M w' n e r args := by
  have hsub : r.params.map (·.name) ⊆ r.params.map (·.name) := fun _ hx => hx
  have hwheres : ∀ c ∈ r.whereClauses, ∀ x ∈ c.condition :: c.errorArgs,
      Mute program (.entity e) (r.params.map (·.name)) x :=
    fun c hc => h.wheres c (List.mem_append_left _ hc)
  have hstages : ∀ s ∈ stages r.body, ∀ c ∈ s.2.1, ∀ x ∈ c.condition :: c.errorArgs,
      Mute program (.entity e) (r.params.map (·.name)) x :=
    fun s hs c hc => h.wheres c (List.mem_append_right _ ((mem_stages hs).1 c hc))
  have hflow := execStages_same (L := L) (M := M) w w' n h.transforms hstages
    (fun s hs a ha => h.actions a ((mem_stages hs).2 a ha)) hsub ((r.params.map (·.name)).zip args)
  simp only [runRoute, h.froms, checkFroms_nil, checkWheres_eq w w' n hsub _ hwheres]
  have hend : ∀ {x x' : Run F (Flow V W)}, SameFlow w w' x x' →
      (x >>= fun flow => match flow with
        | .go _ _ => pure []
        | .ret values => pure values) =
      (x' >>= fun flow => match flow with
        | .go _ _ => pure []
        | .ret values => pure values : Run F (List V)) := by
    intro x x' hx
    cases hx <;> rfl
  exact bind_congr fun _ => bind_congr fun _ => hend hflow

theorem runPureFn_eq {lib : Option LibraryDecl} {f : PureFn}
    (h : Mute program (.pureFn lib) (f.params.map (·.name)) f.body) (w w' : W) (n : Nat)
    (args : List V) : runPureFn program L M w n lib f args = runPureFn program L M w' n lib f args :=
  h.eval_eq (fun _ hx => hx) w w' n _

end Insulation

end CambrianLang.Semantics
