/-
  **Scripts of calls and expectations**: the steps of a test over any state, and what it
  means that a run of them meets every expectation at its own place.

  A call may fail with a code. It has to, with each code the steps up to the next call
  refuse it with, and has to succeed when they refuse it with none.
-/
import Mathlib.Data.List.Basic

namespace CambrianLang.Scripts

variable {σ V L E : Type}

/-- An expectation reads the instance under test, what the last call returned and the
    state; an announcement is about the state after the next call. -/
inductive Step (σ V L E : Type) where
  | update (f : σ → σ)
  | rebind (subject : String) (f : σ → σ)
  | call (label : L) (f : σ → Except Nat (σ × Option V)) (refused : σ → σ)
  | expect (label : E) (p : String → Option V → σ → Prop)
  | announce (label : E) (p : String → σ → Prop)
  | refuse (code : Nat)

/-- A step without what it computes. -/
inductive Shape (L E : Type) where
  | update
  | rebind
  | call (label : L)
  | expect (label : E)
  | announce (label : E)
  | refuse (code : Nat)
deriving DecidableEq

@[simp] def Step.shape : Step σ V L E → Shape L E
  | .update _ => .update
  | .rebind _ _ => .rebind
  | .call label _ _ => .call label
  | .expect label _ => .expect label
  | .announce label _ => .announce label
  | .refuse code => .refuse code

/-- The codes with which the steps up to the next call refuse the call before them. -/
def refusals : List (Shape L E) → List Nat
  | [] => []
  | .refuse code :: steps => code :: refusals steps
  | .call _ :: _ => []
  | .update :: steps | .rebind :: steps => refusals steps
  | .expect _ :: steps | .announce _ :: steps => refusals steps

/-- What the steps see besides the state: the instance under test, the value of the last
    call and the announcements the next one has to meet. -/
structure View (σ V : Type) where
  subject : String
  result : Option V
  announced : List (String → σ → Prop)

/-- Every call does what is expected of it and every expectation holds where it stands. -/
def Executes : List (Step σ V L E) → View σ V → σ → Prop
  | [], v, _ => v.announced = []
  | .update f :: steps, v, s => Executes steps v (f s)
  | .rebind subject f :: steps, v, s => Executes steps { v with subject := subject } (f s)
  | .expect _ p :: steps, v, s => p v.subject v.result s ∧ Executes steps v s
  | .announce _ p :: steps, v, s => Executes steps { v with announced := p :: v.announced } s
  | .refuse _ :: steps, v, s => Executes steps v s
  | .call _ f refused :: steps, v, s =>
      match f s with
      | .ok (s', result) =>
          refusals (steps.map Step.shape) = [] ∧ (∀ p ∈ v.announced, p v.subject s') ∧
            Executes steps { v with result := result, announced := [] } s'
      | .error code =>
          refusals (steps.map Step.shape) ≠ [] ∧
            (∀ c ∈ refusals (steps.map Step.shape), code = c) ∧ v.announced = [] ∧
            Executes steps { v with result := none } (refused s)

end CambrianLang.Scripts
