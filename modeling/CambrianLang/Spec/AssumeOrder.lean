/-
  **Runs of the steps of a property, in source order and as hoisted.**

  An expression is evaluated in the scope and on the machine (state, context, contracts) that
  the steps before it have left.  How it is evaluated and what a call does are a parameter;
  what is used of it is that a value depends on the names that occur free, and on the machine
  only where the expression asks it or mentions a name that is not bound.  A body keeps its
  meaning under a reordering when the two runs end alike for every such meaning: the same runs
  are admitted, every `let` has the value of its own position, and every other step is
  performed on the same arguments and the same machine.
-/
import CambrianLang.Spec.AssumeHoist

namespace CambrianLang.Spec.Hoist

open Ast Reordering Relation

/-! ### Steps -/

/-- The names a step gives a value to. -/
def binds : TestStep → List String
  | .letS name _ _ | .bound name _ _ _ => [name]
  | _ => []

/-- The contract a step deploys. -/
def deploys : TestStep → List String
  | .deployPeer binding _ _ _ => [binding]
  | _ => []

def gives (s : TestStep) : List String := binds s ++ deploys s

/-- The contract a call is to, when it is not the one under test. -/
def callTarget : TestStep → Option String
  | .call target _ _ => target
  | _ => none

/-- The steps that change state or context. -/
def changes : TestStep → Bool
  | .setContext .. | .setRegistry .. | .call .. | .deployPeer .. | .advanceTime _ => true
  | _ => false

def Mentions (s : TestStep) (x : String) : Prop := ∃ e ∈ s.exprs, OccursFree x e

section Asks

variable (views : Expr → Bool)

/-- The form itself reads state or context; for a call `views` says whether it does. -/
def asks (e : Expr) : Bool :=
  match e with
  | .msgField _ | .sysField _ | .traceField _ | .traceCall .. | .temporalRef _ => true
  | .fnCall .. | .macroRef .. | .methodCall .. | .namespacedCall .. | .addressOf .. => views e
  | _ => false

/-- Some part of the expression reads state or context. -/
def Asks (e : Expr) : Prop := ∃ d, ReflTransGen (fun a b => b ∈ a.children) e d ∧ asks views d = true

def StepAsks (s : TestStep) : Prop := ∃ e ∈ s.exprs, Asks views e

end Asks

/-! ### Runs -/

/-- What the names mean at a point of a run. -/
structure Scope (V : Type) where
  values : String → Option V
  deployed : String → Option V

def Scope.Has {V : Type} (sc : Scope V) (x : String) : Prop :=
  (sc.values x).isSome = true ∨ (sc.deployed x).isSome = true

/-- A meaning of expressions and of the steps that are performed. -/
structure Meaning (views : Expr → Bool) (V M : Type) where
  value : Expr → Scope V → M → V
  holds : V → Prop
  narrow : Bool → V → V → Option V → V
  perform : TestStep → Option V → List V → M → M × V
  value_congr : ∀ e sc sc' m, (∀ x, OccursFree x e →
    sc.values x = sc'.values x ∧ sc.deployed x = sc'.deployed x) → value e sc m = value e sc' m
  value_const : ∀ e sc m m', (∀ x, OccursFree x e → sc.Has x) → ¬ Asks views e →
    value e sc m = value e sc m'
  perform_const : ∀ s target args m, changes s = false → (perform s target args m).1 = m

/-- A run so far; `performed` has the steps performed, each with the contract it is to, its
    arguments and the machine it finds. -/
structure RunState (V M : Type) where
  scope : Scope V
  machine : M
  admitted : Prop
  performed : List (TestStep × Option V × List V × M)

section Exec

variable {views : Expr → Bool} {V M : Type} (μ : Meaning views V M)

def RunState.val (x : RunState V M) (e : Expr) : V := μ.value e x.scope x.machine

def RunState.bind (x : RunState V M) (name : String) (v : V) : RunState V M :=
  { x with scope := { x.scope with values := Function.update x.scope.values name (some v) } }

def RunState.act (x : RunState V M) (s : TestStep) : RunState V M :=
  let target := (callTarget s).bind x.scope.deployed
  let args := s.exprs.map (x.val μ)
  let out := μ.perform s target args x.machine
  { scope := { x.scope with
      deployed := (deploys s).foldl (fun d b => Function.update d b (some out.2)) x.scope.deployed }
    machine := out.1
    admitted := x.admitted
    performed := x.performed ++ [(s, target, args, x.machine)] }

/-- One step. -/
def exec (s : TestStep) (x : RunState V M) : RunState V M :=
  match s with
  | .letS name _ e => x.bind name (x.val μ e)
  | .assume cond => { x with admitted := x.admitted ∧ μ.holds (x.val μ cond) }
  | .bound name lo hi inclusive =>
    x.bind name (μ.narrow inclusive (x.val μ lo) (x.val μ hi) (x.scope.values name))
  | s => x.act μ s

end Exec

/-- The parameters have values, and nothing is deployed. -/
def Starts {V M : Type} (params : List String) (x : RunState V M) : Prop :=
  (∀ y, (x.scope.values y).isSome = true ↔ y ∈ params) ∧ ∀ y, x.scope.deployed y = none

/-- **The reordered steps mean what the source means**: all runs end alike, and where the
    source binds every name before it is mentioned, so does the reordering. -/
def KeepsMeaning (views : Expr → Bool) (params : List String) (source order : List TestStep) :
    Prop :=
  (∀ (V M : Type) (μ : Meaning views V M) (x : RunState V M), Starts params x →
    run (exec μ) order x = run (exec μ) source x) ∧
  (Scoped (fun s => {y | Mentions s y ∧ ∃ d ∈ source, y ∈ gives d}) (fun s => {y | y ∈ gives s})
      {y | y ∈ params} source →
    Scoped (fun s => {y | Mentions s y ∧ ∃ d ∈ source, y ∈ gives d}) (fun s => {y | y ∈ gives s})
      {y | y ∈ params} order)

/-! ### What a step leaves alone -/

section Frame

variable {views : Expr → Bool} {V M : Type} {μ : Meaning views V M} {x : RunState V M}
  {s : TestStep}

theorem bind_values (name y : String) (v : V) :
    (x.bind name v).scope.values y = if y = name then some v else x.scope.values y :=
  Function.update_apply _ _ _ _

theorem act_deployed (y : String) : (x.act μ s).scope.deployed y =
    if y ∈ deploys s then
      some (μ.perform s ((callTarget s).bind x.scope.deployed) (s.exprs.map (x.val μ)) x.machine).2
    else x.scope.deployed y := by
  cases s with
  | deployPeer binding entity args initState =>
    simp only [RunState.act, deploys, List.foldl_cons, List.foldl_nil, List.mem_singleton]
    exact Function.update_apply _ _ _ _
  | _ => rfl

theorem exec_values {y : String} (hy : y ∉ binds s) :
    (exec μ s x).scope.values y = x.scope.values y := by
  cases s with
  | letS name ty e =>
    rw [exec, bind_values, if_neg fun heq => hy (List.mem_singleton.mpr heq)]
  | bound name lo hi inclusive =>
    rw [exec, bind_values, if_neg fun heq => hy (List.mem_singleton.mpr heq)]
  | _ => rfl

theorem exec_binds {y : String} (hy : y ∈ binds s) :
    ((exec μ s x).scope.values y).isSome = true := by
  cases s with
  | letS name ty e =>
    rw [exec, bind_values, if_pos (List.mem_singleton.mp hy)]
    rfl
  | bound name lo hi inclusive =>
    rw [exec, bind_values, if_pos (List.mem_singleton.mp hy)]
    rfl
  | _ => exact absurd hy List.not_mem_nil

theorem exec_deployed {y : String} (hy : y ∉ deploys s) :
    (exec μ s x).scope.deployed y = x.scope.deployed y := by
  cases s with
  | letS | assume | bound => rfl
  | _ => exact (act_deployed y).trans (if_neg hy)

theorem exec_deploys {y : String} (hy : y ∈ deploys s) :
    ((exec μ s x).scope.deployed y).isSome = true := by
  cases s with
  | deployPeer binding entity args initState =>
    exact Option.isSome_iff_exists.mpr ⟨_, (act_deployed y).trans (if_pos hy)⟩
  | _ => exact absurd hy List.not_mem_nil

theorem exec_machine (hs : changes s = false) : (exec μ s x).machine = x.machine := by
  cases s with
  | letS | assume | bound => rfl
  | _ => exact μ.perform_const _ _ _ _ hs

theorem exec_has {y : String} (hy : x.scope.Has y) : (exec μ s x).scope.Has y := by
  rcases hy with hy | hy
  · refine Or.inl ?_
    by_cases hbinds : y ∈ binds s
    · exact exec_binds hbinds
    · rwa [exec_values hbinds]
  · refine Or.inr ?_
    by_cases hdeploys : y ∈ deploys s
    · exact exec_deploys hdeploys
    · rwa [exec_deployed hdeploys]

theorem exec_gives {y : String} (hy : y ∈ gives s) : (exec μ s x).scope.Has y :=
  (List.mem_append.mp hy).imp exec_binds exec_deploys

/-- A value that neither mentions what a step gives nor reads what it changes. -/
theorem val_exec {e : Expr} (hfresh : ∀ y ∈ gives s, ¬ OccursFree y e)
    (hmachine : changes s = true → ¬ Asks views e ∧ ∀ y, OccursFree y e → x.scope.Has y) :
    (exec μ s x).val μ e = x.val μ e := by
  have hscope : ∀ m, μ.value e (exec μ s x).scope m = μ.value e x.scope m := by
    refine fun m => μ.value_congr e _ _ m fun y hy => ⟨exec_values ?_, exec_deployed ?_⟩
    · exact fun hbinds => hfresh y (List.mem_append_left _ hbinds) hy
    · exact fun hdeploys => hfresh y (List.mem_append_right _ hdeploys) hy
  rw [RunState.val, hscope, RunState.val]
  cases hs : changes s with
  | true =>
    obtain ⟨hasks, hbound⟩ := hmachine hs
    exact μ.value_const e _ _ _ hbound hasks
  | false => rw [exec_machine hs]

theorem val_bind {e : Expr} {y : String} {v : V} (hy : ¬ OccursFree y e) :
    (x.bind y v).val μ e = x.val μ e := by
  refine μ.value_congr e _ _ _ fun z hz => ⟨?_, rfl⟩
  have hne : z ≠ y := fun heq => hy (heq ▸ hz)
  rw [bind_values, if_neg hne]

/-! ### Two steps that commute -/

theorem bind_comm {y z : String} {v w : V} (hne : y ≠ z) :
    (x.bind y v).bind z w = (x.bind z w).bind y v := by
  have heq : Function.update (Function.update x.scope.values y (some v)) z (some w) =
      Function.update (Function.update x.scope.values z (some w)) y (some v) :=
    Function.update_comm hne _ _ _
  simp only [RunState.bind, heq]

/-- A binding that a step does not mention can be made before or after it. -/
theorem exec_bind {y : String} {v : V} (hmention : ¬ Mentions s y) (hy : y ∉ binds s) :
    exec μ s (x.bind y v) = (exec μ s x).bind y v := by
  have hval : ∀ e ∈ s.exprs, (x.bind y v).val μ e = x.val μ e :=
    fun e he => val_bind fun hfree => hmention ⟨e, he, hfree⟩
  have hact : (x.bind y v).act μ s = (x.act μ s).bind y v := by
    have hargs : s.exprs.map ((x.bind y v).val μ) = s.exprs.map (x.val μ) :=
      List.map_congr_left hval
    simp only [RunState.act, hargs]
    rfl
  cases s with
  | letS name ty e =>
    rw [exec, exec, hval e List.mem_cons_self]
    exact bind_comm fun heq => hy (heq ▸ List.mem_singleton_self _)
  | assume cond =>
    rw [exec, exec, hval cond List.mem_cons_self]
    rfl
  | bound name lo hi inclusive =>
    have hne : y ≠ name := fun heq => hy (heq ▸ List.mem_singleton_self _)
    rw [exec, exec, hval lo List.mem_cons_self, hval hi (List.mem_cons_of_mem _ List.mem_cons_self),
      bind_values, if_neg (Ne.symm hne)]
    exact bind_comm hne
  | _ => exact hact

/-- Whether a run is admitted does not matter to the other steps. -/
theorem exec_admit {p : Prop} : exec μ s { x with admitted := x.admitted ∧ p } =
    { exec μ s x with admitted := (exec μ s x).admitted ∧ p } := by
  cases s with
  | assume cond =>
    have heq : ((x.admitted ∧ p) ∧ μ.holds (x.val μ cond)) =
        ((x.admitted ∧ μ.holds (x.val μ cond)) ∧ p) := propext and_right_comm
    simp only [exec, RunState.val] at heq ⊢
    rw [heq]
  | _ => rfl

end Frame

/-- `s` can be put behind `a`, a `let` or an assumption, where the names in `known` are
    bound. -/
structure Independent (views : Expr → Bool) (known : List String) (s a : TestStep) : Prop where
  moved : (letOf a).isSome = true ∨ isAssume a = true
  fresh : ∀ y ∈ gives s, ¬ Mentions a y
  unread : ∀ y ∈ binds a, ¬ Mentions s y ∧ y ∉ binds s
  machine : changes s = true → ¬ StepAsks views a ∧ ∀ y, Mentions a y → y ∈ known

theorem exec_comm {views : Expr → Bool} {V M : Type} {μ : Meaning views V M} {known : List String}
    {s a : TestStep} {x : RunState V M} (hknown : ∀ y ∈ known, x.scope.Has y)
    (h : Independent views known s a) : exec μ a (exec μ s x) = exec μ s (exec μ a x) := by
  have hval : ∀ e ∈ a.exprs, (exec μ s x).val μ e = x.val μ e := by
    refine fun e he => val_exec (fun y hy hfree => h.fresh y hy ⟨e, he, hfree⟩) fun hs => ?_
    obtain ⟨hasks, hbound⟩ := h.machine hs
    exact ⟨fun hask => hasks ⟨e, he, hask⟩, fun y hy => hknown y (hbound y ⟨e, he, hy⟩)⟩
  cases a with
  | letS name ty e =>
    obtain ⟨hmention, hbinds⟩ := h.unread name (List.mem_singleton_self _)
    calc exec μ (.letS name ty e) (exec μ s x)
        = (exec μ s x).bind name (x.val μ e) := by rw [exec, hval e List.mem_cons_self]
      _ = exec μ s (x.bind name (x.val μ e)) := (exec_bind hmention hbinds).symm
  | assume cond =>
    rw [exec, hval cond List.mem_cons_self]
    exact exec_admit.symm
  | _ => rcases h.moved with h | h <;> cases h

end CambrianLang.Spec.Hoist
