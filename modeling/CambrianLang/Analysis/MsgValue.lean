/-
  **Which routes read `msg::value`** (`route_uses_msg_value`, `analysis/route_facts.rs`).

  A function of the emitted contract is payable when its route reads the value it is called
  with.  The reads are looked for by a walk of its own, which goes through the actions of the
  body, the `where` conditions of the route and the transforms of the members.  It does not
  go into `encode`, `address_of` and closures, and it leaves out the guards of the phases and
  the arguments of `from` clauses and custom errors.
-/
import CambrianLang.Analysis.FailSurface

namespace CambrianLang.Analysis

open Ast Traversal Validate Relation

/-! ### The walk -/

def isMsgValue : Expr → Bool
  | .msgField f => f == "value"
  | _ => false

/-- The subexpressions `walk` goes into. -/
def visitedForValue : Expr → List Expr
  | .encode .. | .addressOf .. | .closure .. => []
  | e => e.children

theorem visitedForValue_sub {e c : Expr} (h : c ∈ visitedForValue e) : c ∈ e.children := by
  unfold visitedForValue at h
  split at h
  all_goals first | exact absurd h List.not_mem_nil | exact h

def valueWalker : Walker Expr Expr where
  own e := [e]
  visited := visitedForValue
  rank := Expr.rank
  rank_lt h := rank_child_lt (visitedForValue_sub h)

/-- `walk`. -/
def walkForValue (e : Expr) : Bool := (valueWalker.walk e).any isMsgValue

/-- `walk_action`. -/
def walkActionForValue (a : RouteAction) : Bool :=
  (walkActionSubtree.walk a).any fun b => b.exprs.any walkForValue

/-- `route_uses_msg_value_inner`. -/
def routeUsesMsgValue (route : Route) (entity : Entity) : Bool :=
  route.body.allActions.any walkActionForValue ||
    route.whereClauses.any (walkForValue ·.condition) ||
    (transformBodies entity route).any walkForValue

/-! ### What a route evaluates -/

/-- The expressions of the actions of a body, at whatever depth. -/
def actionExprs (body : RouteBody) : List Expr :=
  (body.allActions.flatMap walkActionSubtree.walk).flatMap RouteAction.exprs

/-- The expressions the walk starts from. -/
def walkedExprs (route : Route) (entity : Entity) : List Expr :=
  actionExprs route.body ++ route.whereClauses.map (·.condition) ++ transformBodies entity route

/-- The others: the guards of the phases, the arguments of the `from` clauses and those of
    the errors that clauses throw. -/
def routeClauseExprs (route : Route) : List Expr :=
  route.whereClauses.flatMap (·.errorArgs) ++
    route.fromClauses.flatMap (fun c => c.args ++ c.errorArgs) ++
    (route.body.phaseBlocks.flatMap (·.whereClauses)).flatMap fun w => w.condition :: w.errorArgs

/-- What the route evaluates. -/
def evaluatedExprs (route : Route) (entity : Entity) : List Expr :=
  walkedExprs route entity ++ routeClauseExprs route

/-- `msg::value` is the expression or is nested in it. -/
def ReadsValue (e : Expr) : Prop := ReflTransGen (fun a b => b ∈ a.children) e (.msgField "value")

/-- The route evaluates `msg::value`. -/
def UsesMsgValue (route : Route) (entity : Entity) : Prop :=
  ∃ e ∈ evaluatedExprs route entity, ReadsValue e

/-- The expressions that the walk does not go into. -/
def Sealed : Expr → Prop
  | .encode .. | .addressOf .. | .closure .. => True
  | _ => False

/-- `msg::value` is the expression or is nested in it, and under nothing sealed. -/
def OpenRead (e : Expr) : Prop :=
  ReflTransGen (fun a b => b ∈ a.children ∧ ¬ Sealed a) e (.msgField "value")

/-- `msg::value` is nested in it, under something sealed. -/
def SealedRead (e : Expr) : Prop :=
  ∃ a, ReflTransGen (fun a b => b ∈ a.children) e a ∧ Sealed a ∧ ReadsValue a

/-- A read where the walk comes by. -/
def PlainlyUsed (route : Route) (entity : Entity) : Prop :=
  ∃ e ∈ walkedExprs route entity, OpenRead e

/-- A read in a clause that is left out or under something sealed. -/
def SecretlyUsed (route : Route) (entity : Entity) : Prop :=
  (∃ e ∈ routeClauseExprs route, ReadsValue e) ∨ ∃ e ∈ walkedExprs route entity, SealedRead e

/-! ### What the walk finds -/

theorem isMsgValue_iff {e : Expr} : isMsgValue e = true ↔ e = .msgField "value" := by
  unfold isMsgValue
  split
  · simp
  · rename_i hother
    simp only [Bool.false_eq_true, false_iff]
    rintro rfl
    exact hother "value" rfl

theorem mem_visitedForValue {e c : Expr} :
    c ∈ visitedForValue e ↔ c ∈ e.children ∧ ¬ Sealed e := by
  unfold visitedForValue Sealed
  split <;> simp

theorem walkForValue_iff {e : Expr} : walkForValue e = true ↔ OpenRead e := by
  have hsteps : valueWalker.Visits = fun a b => b ∈ a.children ∧ ¬ Sealed a :=
    funext fun _ => funext fun _ => propext mem_visitedForValue
  rw [walkForValue, List.any_eq_true, OpenRead, ← hsteps]
  constructor
  · rintro ⟨d, hd, hval⟩
    obtain ⟨b, hreach, hmem⟩ := valueWalker.mem_walk.mp hd
    rw [List.mem_singleton.mp hmem, isMsgValue_iff] at hval
    exact hval ▸ hreach
  · intro hreach
    exact ⟨_, valueWalker.mem_walk.mpr ⟨_, hreach, List.mem_singleton.mpr rfl⟩,
      isMsgValue_iff.mpr rfl⟩

theorem routeUsesMsgValue_iff {route : Route} {entity : Entity} :
    routeUsesMsgValue route entity = true ↔ PlainlyUsed route entity := by
  have hactions : route.body.allActions.any walkActionForValue = true ↔
      ∃ e ∈ actionExprs route.body, OpenRead e := by
    simp only [List.any_eq_true, walkActionForValue, walkForValue_iff, actionExprs,
      List.mem_flatMap]
    grind
  have hwhere : route.whereClauses.any (walkForValue ·.condition) = true ↔
      ∃ e ∈ route.whereClauses.map (·.condition), OpenRead e := by
    simp only [List.any_eq_true, walkForValue_iff, List.mem_map, exists_exists_and_eq_and]
  have htransforms : (transformBodies entity route).any walkForValue = true ↔
      ∃ e ∈ transformBodies entity route, OpenRead e := by
    simp only [List.any_eq_true, walkForValue_iff]
  rw [routeUsesMsgValue, Bool.or_eq_true, Bool.or_eq_true, hactions, hwhere, htransforms,
    PlainlyUsed, walkedExprs]
  simp only [List.mem_append, or_and_right, exists_or]

theorem OpenRead.reads {e : Expr} (h : OpenRead e) : ReadsValue e :=
  ReflTransGen.mono (fun _ _ hstep => hstep.1) _ _ h

/-- A read is open or under something sealed. -/
theorem readsValue_iff {e : Expr} : ReadsValue e ↔ OpenRead e ∨ SealedRead e := by
  constructor
  · intro h
    rcases path_split (V := fun a _ => ¬ Sealed a) h with hopen | ⟨a, b, hpre, hstep, hsealed, hpost⟩
    · exact Or.inl hopen
    · rw [not_not] at hsealed
      exact Or.inr ⟨a, ReflTransGen.mono (fun _ _ hstep => hstep.1) _ _ hpre, hsealed,
        .head hstep hpost⟩
  · rintro (hopen | ⟨a, hpre, -, hread⟩)
    · exact hopen.reads
    · exact hpre.trans hread

theorem usesMsgValue_iff {route : Route} {entity : Entity} :
    UsesMsgValue route entity ↔ PlainlyUsed route entity ∨ SecretlyUsed route entity := by
  simp only [UsesMsgValue, evaluatedExprs, List.mem_append, readsValue_iff, PlainlyUsed,
    SecretlyUsed]
  grind

/-- **The walk is exact where no read is only in what it leaves out.** -/
theorem routeUsesMsgValue_exact_iff (route : Route) (entity : Entity) :
    (routeUsesMsgValue route entity = true ↔ UsesMsgValue route entity) ↔
      (SecretlyUsed route entity → PlainlyUsed route entity) := by
  rw [routeUsesMsgValue_iff, usesMsgValue_iff]
  constructor
  · exact fun h hsecret => h.mpr (.inr hsecret)
  · exact fun h => ⟨.inl, fun hused => hused.elim id h⟩

/-! ### A guard of a phase -/

/-- `pay() => [ charge: where (msg::value > 0) : throw 1 [] ]`. -/
def payRoute : Route where
  name := "pay"
  params := []
  fromClauses := []
  whereClauses := []
  returnType := none
  body := .phased [
    { name := "charge"
      whereClauses := [
        { condition := .binOp (.msgField "value") .gt (.intLiteral .zero), errorCode := 1
          errorName := none, errorArgs := [] }]
      actions := [] }]
  isView := false
  isPure := false
  isInit := false
  isAccept := false
  isPrivate := false
  recoverTag := none
  factoryOnly := false

def tollEntity : Entity where
  name := "Toll"
  records := []
  enums := []
  typeAliases := []
  constants := []
  macros := []
  routes := [payRoute]
  members := []

/-- The guard of the phase reads the value, and the function is not payable. -/
theorem pay_reads_unseen :
    routeUsesMsgValue payRoute tollEntity = false ∧ UsesMsgValue payRoute tollEntity := by
  refine ⟨by decide, .binOp (.msgField "value") .gt (.intLiteral .zero), List.mem_cons_self, ?_⟩
  exact .single List.mem_cons_self

end CambrianLang.Analysis
