/-
  **The clauses of a statement**: what each event adds to the proposition and what it
  says by itself.

  The proposition is computed once more, along the list of clauses and without names,
  and shown to be what the emitted term denotes in either profile.
-/
import CambrianLang.Lib.Scripts
import CambrianLang.Spec.Statements

namespace CambrianLang.Spec

open Ast Scripts

variable {σ V : Type}

/-! ### Kinds of clauses -/

structure CallKind where
  fallible : Bool
  view : Bool
deriving DecidableEq

/-- What an expectation reads; one without content says nothing, and one that cannot be
    modelled is `False`. -/
inductive Reading where
  | nothing
  | absurd
  | reads (result state : Bool)
deriving DecidableEq

def Reading.readsResult   : Reading → Bool
  | .reads result _ => result
  | .nothing | .absurd => false

def Reading.readsState   : Reading → Bool
  | .reads _ state => state
  | .nothing | .absurd => false

abbrev Clause (σ V : Type) := Step σ V CallKind Reading
abbrev Kind := Shape CallKind Reading

structure Reading.Allows (reading : Reading) (p : String → Option V → σ → Prop) : Prop where
  nothing : reading = .nothing → ∀ i v s, p i v s
  absurd : reading = .absurd → ∀ i v s, ¬ p i v s
  result : reading.readsResult = false → ∀ i v v' s, p i v s ↔ p i v' s
  state : reading.readsState = false → ∀ i i' v s, p i v s ↔ p i' v s

/-- A clause computes what its kind allows. -/
def Lawful : Clause σ V → Prop
  | .update _ | .rebind _ _ | .refuse _ => True
  | .call kind f _ => ∀ s, (kind.fallible = false → ∃ r, f s = .ok r) ∧
      ∀ r, f s = .ok r → r.2.isSome = kind.view
  | .expect reading p => reading.Allows p
  | .announce reading p => reading.readsState = false → ∀ i i' s, p i s ↔ p i' s

/-- `expect throw` is next but for expectations, and more follows. -/
def continues : List Kind → Bool
  | .expect _ :: ks => continues ks
  | .refuse _ :: ks => !ks.isEmpty
  | _ => false

/-- The code of the throw paired with a call that may fail. -/
def paired (kind : CallKind) (ks : List Kind) : Option Nat :=
  if kind.fallible then (refusals ks).head? else none

/-! ### The proposition, clause by clause -/

/-- What the emitted binders stand for where a clause is reached; `skipping` is on the way
    to the throw of a failed call. -/
structure Binders (σ V : Type) where
  skipping : Bool
  held : Option V
  names : List Prop
  pending : Option (String → σ → Prop)

/-- A pending `expect emit` becomes a binder. -/
def Binders.flush (b : Binders σ V) (s : σ) : Binders σ V :=
  { b with names := b.names ++ (b.pending.map fun p => p "inst" s).toList, pending := none }

/-- The proposition `emit_body` builds. -/
def stated : List (Clause σ V) → Binders σ V → σ → Prop
  | [], b, _ => ∀ p ∈ b.names, p
  | .update f :: cs, b, s => stated cs b (f s)
  | .rebind _ f :: cs, b, s => stated cs b (f s)
  | .expect _ p :: cs, b, s =>
      if b.skipping then stated cs b s
      else stated cs { b.flush s with names := (b.flush s).names ++ [p "inst" b.held s] } s
  | .announce _ p :: cs, b, s => stated cs { b with pending := some p } s
  | .refuse _ :: cs, b, s =>
      if b.skipping then stated cs { b.flush s with skipping := false } s else stated cs b s
  | .call kind f refused :: cs, b, s =>
      match paired kind (cs.map Step.shape) with
      | some code =>
          match f s with
          | .ok _ => False
          | .error n => n = code ∧ if continues (cs.map Step.shape) then
              stated cs { b with skipping := true } (refused s) else True
      | none =>
          match f s with
          | .ok (s', r) =>
              stated cs { b.flush s' with held := if kind.fallible then r.or b.held else r } s'
          | .error _ => False

/-! ### Events as clauses -/

/-- The state of a test, with the value that waits for the next call. -/
structure State (W C V : Type) extends Scope W C V where
  value : Option Expr

variable {W C : Type} {entity : Entity}

def Expectation.reading (entity : Entity) : Expectation → Reading
  | .state fields => if fields.isEmpty then .nothing else .reads false true
  | .transfers dests =>
      if dests.isEmpty then .nothing else .reads false (dests.any (readsEntity entity))
  | .effectsUnmodelable => .absurd
  | e => .reads e.readsResult (e.exprs.any (readsEntity entity))

/-- The kind of an event's clause. -/
def kindOf (entity : Entity) : SpecEvent → Kind
  | .letE _ _ _ | .setMsgCtx _ | .setSysCtx _ | .comment _ => .update
  | .installPeer peer _ _ _ => if peer == entity.name then .rebind else .update
  | .rawCall call => .call ⟨false, call.isView⟩
  | .wrappedCall call => .call ⟨true, call.isView⟩
  | .expectEmit _ args => .announce (.reads false (args.any (readsEntity entity)))
  | .expect e => .expect (e.reading entity)
  | .expectThrow code => .refuse code

def Meaning.callCtx (M : Meaning W C V entity) (s : State W C V) : C :=
  match s.value with
  | some value => M.valueWith value s.toScope
  | none => s.ctx

def called (call : RouteCall) (s : State W C V) (r : W × V) : State W C V × Option V :=
  ({ s with world := r.1, value := none }, if call.isView then some r.2 else none)

/-- The clause of an event.  A deploy of the entity under test rebinds the instance the
    expectations after it are about. -/
def Meaning.clause (M : Meaning W C V entity) : SpecEvent → Clause (State W C V) V
  | .letE name ty value =>
      .update fun s =>
        { s with lets := (leanSafeIdent name, M.value ty value s.toScope) :: s.lets }
  | .setMsgCtx fields =>
      .update fun s =>
        { s with
          ctx := if (stickyFields fields).isEmpty then s.ctx
            else M.ctxWith (stickyFields fields) s.toScope
          value := (msgValue fields).or s.value }
  | .setSysCtx fields =>
      .update fun s =>
        { s with
          world := if (blockFields fields).isEmpty then s.world
            else M.block (blockFields fields) s.toScope }
  | .comment _ => .update id
  | .installPeer peer inst _ initState =>
      let f := fun s : State W C V =>
        let r := M.install peer initState s.toScope
        { s with lets := (inst, r.1) :: s.lets, world := r.2 }
      if peer == entity.name then .rebind inst f else .update f
  | .rawCall call =>
      .call ⟨false, call.isView⟩
        (fun s => .ok (called call s (M.total call s.toScope (M.callCtx s))))
        fun s => { s with value := none }
  | .wrappedCall call =>
      .call ⟨true, call.isView⟩
        (fun s =>
          match M.outcome call s.toScope (M.callCtx s) with
          | .ok r => .ok (called call s r)
          | .error (.ofNat n) => .error n)
        fun s => { s with value := none }
  | .expectEmit name args =>
      .announce (.reads false (args.any (readsEntity entity))) fun inst s =>
        M.emitted name args inst s.toScope
  | .expect e => .expect (e.reading entity) fun inst v s => M.holds e inst v s.toScope
  | .expectThrow code => .refuse code

variable (M : Meaning W C V entity)

theorem shape_clause (e : SpecEvent) : (M.clause e).shape = kindOf entity e := by
  cases e with
  | installPeer peer inst args initState =>
    rw [Meaning.clause, kindOf]
    split <;> rfl
  | _ => rfl

theorem shapes_clauses (events : List SpecEvent) :
    (events.map M.clause).map Step.shape = events.map (kindOf entity) := by
  rw [List.map_map]
  exact List.map_congr_left fun e _ => shape_clause M e

theorem allows_of_empty {p : String → Option V → σ → Prop} (h : ∀ i v s, p i v s) :
    Reading.nothing.Allows p := by
  refine ⟨fun _ => h, nofun, fun _ i v v' s => ?_, fun _ i i' v s => ?_⟩
  · exact iff_of_true (h i v s) (h i v' s)
  · exact iff_of_true (h i v s) (h i' v s)

theorem allows_reading (e : Expectation) :
    (e.reading entity).Allows fun inst v (s : State W C V) => M.holds e inst v s.toScope := by
  have hassertion : (Reading.reads e.readsResult (e.exprs.any (readsEntity entity))).Allows
      fun inst v (s : State W C V) => M.assertion e inst v s.toScope :=
    ⟨nofun, nofun, fun h i v v' s => M.assertion_result e h i v v' s.toScope,
      fun h i i' v s => M.assertion_state e h i i' v s.toScope⟩
  cases e with
  | ret | retTuple | retLens | pred => exact hassertion
  | effectsUnmodelable =>
    exact ⟨nofun, fun _ _ _ _ => id, fun _ _ _ _ _ => Iff.rfl, fun _ _ _ _ _ => Iff.rfl⟩
  | state fields =>
    cases fields with
    | nil => exact allows_of_empty fun _ _ _ _ hf => absurd hf List.not_mem_nil
    | cons f fields => exact ⟨nofun, nofun, fun _ _ _ _ _ => Iff.rfl, nofun⟩
  | transfers dests =>
    cases dests with
    | nil => exact allows_of_empty fun _ _ _ _ hf => absurd hf List.not_mem_nil
    | cons dest dests =>
      refine ⟨nofun, nofun, fun _ _ _ _ _ => Iff.rfl, ?_⟩
      intro h i i' v s
      apply forall₂_congr
      intro d hd
      exact M.transfer_state d (Bool.eq_false_iff.mpr (List.any_eq_false.mp h d hd)) i i' s.toScope

theorem lawful_clause (e : SpecEvent) : Lawful (M.clause e) := by
  have hview (call : RouteCall) (s : State W C V) (r : W × V) :
      (called call s r).2.isSome = call.isView := by
    unfold called
    cases call.isView <;> rfl
  cases e with
  | letE | setMsgCtx | setSysCtx | comment | expectThrow => trivial
  | installPeer peer inst args initState =>
    rw [Meaning.clause]
    split <;> trivial
  | expect e => exact allows_reading M e
  | expectEmit name args =>
    exact fun h i i' s => M.emitted_state name args h i i' s.toScope
  | rawCall call =>
    refine fun s => ⟨fun _ => ⟨_, rfl⟩, ?_⟩
    intro r hr
    cases hr
    exact hview call s _
  | wrappedCall call =>
    refine fun s => ⟨nofun, ?_⟩
    intro r hr
    dsimp only at hr
    split at hr
    · cases hr
      exact hview call s _
    · cases hr

/-! ### The emitted term and its clauses -/

variable {M} {env env' : Env W C V} {st st' : EmitState}

/-- The numbers of the binders in use are taken. -/
structure Fresh (st : EmitState) : Prop where
  expects : ∀ n ∈ st.expectNames, n < st.expectIdx
  result : ∀ n, st.currentResult = some n → n < st.resultIdx

def stateOf (env : Env W C V) (st : EmitState) : State W C V :=
  { env.toScope with value := st.pendingMsgValue }

def bindersOf (M : Meaning W C V entity) (env : Env W C V) (st : EmitState) :
    Binders (State W C V) V where
  skipping := false
  held := st.currentResult.bind env.results
  names := st.expectNames.map env.expects
  pending := st.pendingExpectEmit.map fun p inst s => M.emitted p.1 p.2 inst s.toScope

theorem map_update_of_fresh {names : List Nat} {n : Nat} (h : ∀ k ∈ names, k < n)
    (f : Nat → Prop) (p : Prop) : names.map (Function.update f n p) = names.map f := by
  apply List.map_congr_left
  intro k hk
  exact Function.update_of_ne (Nat.ne_of_lt (h k hk)) p f

theorem denote_bindExpect {prop : Assertion} {k : EmitState → Goal} {P : Prop} (hfresh : Fresh st)
    (h : ∀ env' st', Fresh st' → stateOf env' st' = stateOf env st →
      bindersOf M env' st' =
        { bindersOf M env st with names := (bindersOf M env st).names ++ [prop.denote M env] } →
      ((k st').denote M env' ↔ P)) :
    (st.bindExpect prop k).denote M env ↔ P := by
  apply h
  · refine ⟨?_, hfresh.result⟩
    intro n hn
    rcases List.mem_append.mp hn with hn | hn
    · exact Nat.lt_succ_of_lt (hfresh.expects n hn)
    · rw [List.mem_singleton.mp hn]
      exact Nat.lt_succ_self _
  · rfl
  · simp only [bindersOf, List.map_append, List.map_singleton, Function.update_self,
      map_update_of_fresh hfresh.expects]

theorem denote_flushPending {k : EmitState → Goal} {P : Prop} (hfresh : Fresh st)
    (h : ∀ env' st', Fresh st' → stateOf env' st' = stateOf env st →
      bindersOf M env' st' = (bindersOf M env st).flush (stateOf env st) →
      ((k st').denote M env' ↔ P)) :
    (st.flushPending k).denote M env ↔ P := by
  unfold EmitState.flushPending
  split
  · next name args hpending =>
    have hdrop : Fresh { st with pendingExpectEmit := none } := ⟨hfresh.1, hfresh.2⟩
    refine denote_bindExpect hdrop ?_
    intro env' st' hfresh' hstate hbinders
    refine h env' st' hfresh' hstate (hbinders.trans ?_)
    simp [bindersOf, Binders.flush, hpending, Assertion.denote, stateOf]
  · next hpending =>
    refine h env st hfresh rfl ?_
    simp [bindersOf, Binders.flush, hpending]

theorem denote_bindOneShotMsgCtx {k : CtxVar → EmitState → Goal} {P : Prop}
    (hfresh : Fresh st)
    (h : ∀ cv env' st', Fresh st' → stateOf env' st' = { stateOf env st with value := none } →
      env'.context cv = M.callCtx (stateOf env st) →
      bindersOf M env' st' = bindersOf M env st → ((k cv st').denote M env' ↔ P)) :
    (st.bindOneShotMsgCtx k).denote M env ↔ P := by
  unfold EmitState.bindOneShotMsgCtx
  split
  · next value hvalue =>
    refine h .ctxCall _ _ ⟨hfresh.1, hfresh.2⟩ rfl ?_ rfl
    simp [Meaning.callCtx, stateOf, hvalue, Env.context]
  · next hvalue =>
    refine h .ctx env st hfresh ?_ ?_ rfl
    · simp [stateOf, hvalue]
    · simp [Meaning.callCtx, stateOf, hvalue, Env.context]

/-! ### Throw targets -/

theorem lookup_collectFrom_lt {i k : Nat} {pending : Option Nat} {es : List SpecEvent}
    (hk : k < i) (hpending : pending ≠ some k) : (collectFrom i pending es).lookup k = none := by
  induction es generalizing i pending with
  | nil => rfl
  | cons e es ih =>
    have hk' : k < i + 1 := Nat.lt_succ_of_lt hk
    have hnone : (none : Option Nat) ≠ some k := nofun
    cases e with
    | wrappedCall call =>
      refine ih hk' ?_
      rw [ne_eq, Option.some_inj]
      exact Nat.ne_of_gt hk
    | rawCall call => exact ih hk' hnone
    | expectThrow code =>
      cases pending with
      | none => exact ih hk' hnone
      | some p =>
        have hp : (k == p) = false := beq_eq_false_iff_ne.mpr fun h => hpending (by rw [h])
        simp only [collectFrom, Option.map_some, Option.toList_some, List.singleton_append,
          List.lookup_cons, hp, ih hk' hnone]
    | letE | setMsgCtx | setSysCtx | installPeer | expectEmit | expect | comment =>
      exact ih hk' hpending

/-- A pending call matters only to its own entry. -/
theorem lookup_collectFrom_pending {i p k : Nat} {es : List SpecEvent} (hne : k ≠ p) :
    (collectFrom i (some p) es).lookup k = (collectFrom i none es).lookup k := by
  induction es generalizing i with
  | nil => rfl
  | cons e es ih =>
    cases e with
    | wrappedCall call | rawCall call => rfl
    | expectThrow code =>
      have hp : (k == p) = false := beq_eq_false_iff_ne.mpr hne
      simp only [collectFrom, Option.map_some, Option.toList_some, List.singleton_append,
        List.lookup_cons, hp, Option.map_none, Option.toList_none, List.nil_append]
    | letE | setMsgCtx | setSysCtx | installPeer | expectEmit | expect | comment => exact ih

theorem lookup_collectFrom_self (entity : Entity) {i p : Nat} {es : List SpecEvent} (hp : p < i) :
    (collectFrom i (some p) es).lookup p = (refusals (es.map (kindOf entity))).head? := by
  induction es generalizing i with
  | nil => rfl
  | cons e es ih =>
    have hp' : p < i + 1 := Nat.lt_succ_of_lt hp
    cases e with
    | wrappedCall call =>
      change (collectFrom (i + 1) (some i) es).lookup p = none
      refine lookup_collectFrom_lt hp' ?_
      rw [ne_eq, Option.some_inj]
      exact Nat.ne_of_gt hp
    | rawCall call =>
      change (collectFrom (i + 1) none es).lookup p = none
      exact lookup_collectFrom_lt hp' nofun
    | expectThrow code => simp [collectFrom, kindOf, refusals]
    | installPeer peer inst args initState =>
      refine (ih hp').trans ?_
      rw [List.map_cons, kindOf]
      split <;> rfl
    | letE | setMsgCtx | setSysCtx | expectEmit | expect | comment => exact ih hp'

theorem collectFrom_afterThrowPair {i j : Nat} {es rest : List SpecEvent}
    (h : indexAfterThrowPair i es = some (j, rest)) :
    i < j ∧ collectFrom i none es = collectFrom j none rest := by
  induction es generalizing i with
  | nil => cases h
  | cons e es ih =>
    cases e with
    | expect e =>
      obtain ⟨hlt, heq⟩ := ih h
      exact ⟨Nat.lt_of_succ_lt hlt, heq⟩
    | expectThrow code =>
      cases h
      exact ⟨Nat.lt_succ_self i, rfl⟩
    | letE | setMsgCtx | setSysCtx | rawCall | wrappedCall | installPeer | expectEmit | comment =>
      cases h

/-- The targets of the events from a position on are those of all events. -/
def TargetsFrom (targets : List (Nat × Nat)) (i : Nat) (es : List SpecEvent) : Prop :=
  ∀ k, i ≤ k → targets.lookup k = (collectFrom i none es).lookup k

variable {targets : List (Nat × Nat)} {i : Nat}

theorem TargetsFrom.tail {e : SpecEvent} {es : List SpecEvent}
    (h : TargetsFrom targets i (e :: es)) : TargetsFrom targets (i + 1) es := by
  intro k hk
  rw [h k (Nat.le_of_succ_le hk)]
  cases e with
  | wrappedCall call => exact lookup_collectFrom_pending (Nat.ne_of_gt hk)
  | letE | setMsgCtx | setSysCtx | installPeer | expectEmit | expect | comment | rawCall
  | expectThrow => rfl

theorem TargetsFrom.paired (entity : Entity) {call : RouteCall} {es : List SpecEvent}
    (h : TargetsFrom targets i (.wrappedCall call :: es)) :
    targets.lookup i = paired ⟨true, call.isView⟩ (es.map (kindOf entity)) := by
  rw [h i (Nat.le_refl i), Spec.paired, if_pos rfl]
  exact lookup_collectFrom_self entity (Nat.lt_succ_self i)

theorem TargetsFrom.after {j : Nat} {es rest : List SpecEvent} (h : TargetsFrom targets i es)
    (hpair : indexAfterThrowPair i es = some (j, rest)) : TargetsFrom targets j rest := by
  obtain ⟨hlt, heq⟩ := collectFrom_afterThrowPair hpair
  intro k hk
  rw [h k (Nat.le_trans (Nat.le_of_lt hlt) hk), heq]

/-- The way to the throw of a failed call. -/
theorem stated_skipping {j : Nat} {es rest : List SpecEvent}
    (h : indexAfterThrowPair i es = some (j, rest)) (b : Binders (State W C V) V)
    (hb : b.skipping = true) (s : State W C V) :
    stated (es.map M.clause) b s ↔
      stated (rest.map M.clause) { b.flush s with skipping := false } s := by
  induction es generalizing i with
  | nil => cases h
  | cons e es ih =>
    cases e with
    | expect e =>
      rw [List.map_cons, Meaning.clause, stated, if_pos hb]
      exact ih h
    | expectThrow code =>
      cases h
      rw [List.map_cons, Meaning.clause, stated, if_pos hb]
    | letE | setMsgCtx | setSysCtx | rawCall | wrappedCall | installPeer | expectEmit | comment =>
      cases h

theorem continues_iff {es : List SpecEvent} :
    continues (es.map (kindOf entity)) = true ↔
      ∃ j e rest, indexAfterThrowPair i es = some (j, e :: rest) := by
  induction es generalizing i with
  | nil => simp [continues, indexAfterThrowPair]
  | cons e es ih =>
    cases e with
    | expect e => exact ih
    | expectThrow code =>
      cases es with
      | nil => simp [continues, kindOf, indexAfterThrowPair]
      | cons e es => simp [continues, kindOf, indexAfterThrowPair]
    | installPeer peer inst args initState =>
      rw [List.map_cons, kindOf]
      split <;> simp [continues, indexAfterThrowPair]
    | letE | setMsgCtx | setSysCtx | rawCall | wrappedCall | expectEmit | comment =>
      simp [continues, kindOf, indexAfterThrowPair]

/-! ### Denotation -/

theorem stateOf_bindResult (env : Env W C V) (st : EmitState) (result : Option Nat) (r : W × V) :
    stateOf (env.bindResult result r) st = { stateOf env st with world := r.1 } := by
  cases result <;> rfl

theorem bindersOf_view (env : Env W C V) (st : EmitState) (r : W × V) :
    bindersOf M (env.bindResult (some st.resultIdx) r) st.allocResult =
      { bindersOf M env st with held := some r.2 } := by
  simp [bindersOf, Env.bindResult, EmitState.allocResult]

theorem Fresh.allocResult (h : Fresh st) : Fresh st.allocResult := by
  refine ⟨h.expects, ?_⟩
  intro n hn
  cases hn
  exact Nat.lt_succ_self _

/-- The state right after a call. -/
theorem stateOf_called {call : RouteCall} {s : State W C V}
    (hstate : stateOf env st = { s with value := none }) (st₂ : EmitState)
    (hvalue : st₂.pendingMsgValue = st.pendingMsgValue) (result : Option Nat) (r : W × V) :
    stateOf (env.bindResult result r) st₂ = (called call s r).1 := by
  rw [stateOf_bindResult, stateOf, hvalue]
  exact congrArg (fun s : State W C V => { s with world := r.1 }) hstate

/-- What is emitted after a call says what the clauses after it do. -/
def Continues (M : Meaning W C V entity) (k : EmitState → Goal) (es : List SpecEvent) : Prop :=
  ∀ (st : EmitState) (env : Env W C V), Fresh st → ((st.flushPending k).denote M env ↔
    stated (es.map M.clause) ((bindersOf M env st).flush (stateOf env st)) (stateOf env st))

variable {call : RouteCall} {es : List SpecEvent} {k : EmitState → Goal} {s : State W C V}

theorem denote_rawCall (hfresh : Fresh st) (hk : Continues M k es) :
    (emitRawCall st call fun st => st.flushPending k).denote M env ↔
      stated ((SpecEvent.rawCall call :: es).map M.clause) (bindersOf M env st)
        (stateOf env st) := by
  refine denote_bindOneShotMsgCtx hfresh ?_
  intro cv env₁ st₁ hfresh₁ hstate hctx hbinders
  have hscope : env₁.toScope = env.toScope := congrArg State.toScope hstate
  rw [List.map_cons, Meaning.clause, stated, shapes_clauses]
  change _ ↔ stated (es.map M.clause)
    { (bindersOf M env st).flush
        (called call (stateOf env st) (M.total call env.toScope (M.callCtx _))).1 with
      held := (called call (stateOf env st) (M.total call env.toScope (M.callCtx _))).2 }
    (called call (stateOf env st) (M.total call env.toScope (M.callCtx _))).1
  rw [← hctx, ← hscope, ← hbinders]
  by_cases hview : call.isView = true
  · rw [if_pos hview, Goal.denote, hk _ _ hfresh₁.allocResult, bindersOf_view,
      stateOf_called hstate st₁.allocResult rfl, called, if_pos hview]
    rfl
  · have hfresh₂ : Fresh { st₁ with currentResult := none } := ⟨hfresh₁.1, nofun⟩
    rw [if_neg hview, Goal.denote, hk _ _ hfresh₂,
      stateOf_called hstate { st₁ with currentResult := none } rfl, called, if_neg hview]
    rfl

theorem denote_called (hfresh : Fresh st) (hk : Continues M k es)
    (hstate : stateOf env st = { s with value := none }) (r : W × V) :
    ((if call.isView then st.allocResult else st).flushPending k).denote M
        (env.bindResult (if call.isView then some st.resultIdx else none) r) ↔
      stated (es.map M.clause)
        { (bindersOf M env st).flush (called call s r).1 with
          held := (called call s r).2.or (bindersOf M env st).held } (called call s r).1 := by
  by_cases hview : call.isView = true
  · rw [if_pos hview, if_pos hview, hk _ _ hfresh.allocResult, bindersOf_view,
      stateOf_called hstate st.allocResult rfl, called, if_pos hview]
    rfl
  · rw [if_neg hview, if_neg hview, hk _ _ hfresh, stateOf_called hstate st rfl, called,
      if_neg hview]
    rfl

/-- A wrapped call, by the throw it is paired with. -/
theorem stated_wrappedCall (b : Binders (State W C V) V) (s : State W C V) :
    stated ((SpecEvent.wrappedCall call :: es).map M.clause) b s ↔
      match paired ⟨true, call.isView⟩ (es.map (kindOf entity)) with
      | some code =>
          match M.outcome call s.toScope (M.callCtx s) with
          | .ok _ => False
          | .error (.ofNat n) => n = code ∧ if continues (es.map (kindOf entity)) then
              stated (es.map M.clause) { b with skipping := true } { s with value := none }
            else True
      | none =>
          match M.outcome call s.toScope (M.callCtx s) with
          | .ok r =>
              stated (es.map M.clause)
                { b.flush (called call s r).1 with held := (called call s r).2.or b.held }
                (called call s r).1
          | .error _ => False := by
  rw [List.map_cons, Meaning.clause, stated, shapes_clauses]
  cases paired ⟨true, call.isView⟩ (es.map (kindOf entity)) <;>
    cases M.outcome call s.toScope (M.callCtx s) <;> rfl

theorem denote_ok (predictable : Bool) {cv : CtxVar} {result : Option Nat} {body : Goal}
    {P : W × V → Prop} (h : ∀ r, body.denote M (env.bindResult result r) ↔ P r) :
    (if predictable then Goal.okAnd call cv result body else .matchOk call cv result body).denote
        M env ↔
      match M.outcome call env.toScope (env.context cv) with
      | .ok r => P r
      | .error _ => False := by
  cases predictable with
  | true =>
    simp only [if_true, Goal.denote, RouteResult.okAnd]
    cases M.outcome call env.toScope (env.context cv) with
    | error code => rfl
    | ok r => exact h r
  | false =>
    simp only [Bool.false_eq_true, if_false, Goal.denote]
    cases M.outcome call env.toScope (env.context cv) with
    | error code => rfl
    | ok r => exact h r

theorem denote_throw (predictable : Bool) {cv : CtxVar} {arm code : Nat} :
    (if predictable then Goal.errCodeIs call cv code else .matchThrow call cv arm code).denote
        M env ↔
      match M.outcome call env.toScope (env.context cv) with
      | .ok _ => False
      | .error (.ofNat n) => n = code := by
  cases predictable with
  | true =>
    simp only [if_true, Goal.denote, RouteResult.errCodeIs]
    cases M.outcome call env.toScope (env.context cv) <;> rfl
  | false =>
    simp only [Bool.false_eq_true, if_false, Goal.denote]
    cases M.outcome call env.toScope (env.context cv) <;> rfl

theorem denote_throwAnd (predictable : Bool) {cv : CtxVar} {arm code : Nat} {rest rest' : Goal}
    {P : Prop} (h : rest.denote M env ↔ P) (h' : rest'.denote M env ↔ P) :
    (if predictable then Goal.errCodeIsAnd call cv code rest
      else .matchThrowAnd call cv arm code rest').denote M env ↔
      match M.outcome call env.toScope (env.context cv) with
      | .ok _ => False
      | .error (.ofNat n) => n = code ∧ P := by
  cases predictable with
  | true =>
    simp only [if_true, Goal.denote, RouteResult.errCodeIs, h]
    cases M.outcome call env.toScope (env.context cv) with
    | error code =>
      cases code
      rfl
    | ok r => exact iff_of_false (fun h => h.1) id
  | false =>
    simp only [Bool.false_eq_true, if_false, Goal.denote]
    cases M.outcome call env.toScope (env.context cv) with
    | error code =>
      cases code
      exact and_congr_right fun _ => h'
    | ok r => rfl

theorem denote_emitLoop (predictable : Bool) {events : List SpecEvent} (hfresh : Fresh st)
    (htargets : TargetsFrom targets i events) :
    (emitLoop predictable targets i events st).denote M env ↔
      stated (events.map M.clause) (bindersOf M env st) (stateOf env st) := by
  induction hn : events.length using Nat.strong_induction_on generalizing i events st env with
  | _ n ih =>
  subst hn
  cases events with
  | nil =>
    rw [emitLoop]
    refine Iff.symm ?_
    exact List.forall_mem_map
  | cons e es =>
    have htail := htargets.tail
    have hlt : es.length < (e :: es).length := Nat.lt_succ_self _
    have hcontinues {j : Nat} {rest : List SpecEvent} (hlen : rest.length < (e :: es).length)
        (ht : TargetsFrom targets j rest) :
        Continues M (fun st => emitLoop predictable targets j rest st) rest := by
      intro st env hf
      refine denote_flushPending hf ?_
      intro env' st' hf' hstate hbinders
      rw [ih _ hlen hf' ht rfl, hbinders, hstate]
    rw [emitLoop.eq_def]
    cases e with
    | letE name ty value => exact ih _ hlt hfresh htail rfl
    | comment text => exact ih _ hlt hfresh htail rfl
    | expectThrow code => exact ih _ hlt hfresh htail rfl
    | rawCall call => exact denote_rawCall hfresh (hcontinues hlt htail)
    | installPeer peer inst args initState =>
      refine (ih _ hlt hfresh htail rfl).trans ?_
      rw [List.map_cons, Meaning.clause]
      by_cases hpeer : (peer == entity.name) = true
      · rw [if_pos hpeer]
        rfl
      · rw [if_neg hpeer]
        rfl
    | setMsgCtx fields =>
      have hfresh' : Fresh { st with
          pendingMsgValue := (msgValue fields).or st.pendingMsgValue } := ⟨hfresh.1, hfresh.2⟩
      dsimp only
      by_cases hempty : (stickyFields fields).isEmpty = true
      · rw [if_pos hempty, ih _ hlt hfresh' htail rfl, List.map_cons, Meaning.clause, stated,
          if_pos hempty]
        rfl
      · rw [if_neg hempty, Goal.denote, ih _ hlt hfresh' htail rfl, List.map_cons, Meaning.clause,
          stated, if_neg hempty]
        rfl
    | setSysCtx fields =>
      dsimp only
      by_cases hempty : (blockFields fields).isEmpty = true
      · rw [if_pos hempty, ih _ hlt hfresh htail rfl, List.map_cons, Meaning.clause, stated,
          if_pos hempty]
      · rw [if_neg hempty, Goal.denote, ih _ hlt hfresh htail rfl, List.map_cons, Meaning.clause,
          stated, if_neg hempty]
        rfl
    | expectEmit name args =>
      have hfresh' : Fresh { st with pendingExpectEmit := some (name, args) } :=
        ⟨hfresh.1, hfresh.2⟩
      exact ih _ hlt hfresh' htail rfl
    | expect e =>
      refine denote_flushPending hfresh ?_
      intro env₁ st₁ hfresh₁ hstate₁ hbinders₁
      refine denote_bindExpect hfresh₁ ?_
      intro env₂ st₂ hfresh₂ hstate₂ hbinders₂
      have hprop : (Assertion.expect e st₁.currentResult).denote M env₁ =
          M.holds e "inst" (bindersOf M env st).held (stateOf env st).toScope := by
        rw [← hstate₁]
        change M.holds e "inst" (bindersOf M env₁ st₁).held env₁.toScope = _
        rw [hbinders₁]
        rfl
      rw [ih _ hlt hfresh₂ htail rfl, hbinders₂, hstate₂, hstate₁, List.map_cons, Meaning.clause,
        stated, if_neg (show ¬ (bindersOf M env st).skipping = true from Bool.false_ne_true),
        ← hbinders₁, hprop]
    | wrappedCall call =>
      refine denote_bindOneShotMsgCtx hfresh ?_
      intro cv env₁ st₁ hfresh₁ hstate hctx hbinders
      have hscope : (stateOf env st).toScope = env₁.toScope :=
        (congrArg State.toScope hstate).symm
      rw [stated_wrappedCall, ← htargets.paired entity, ← hctx, hscope, ← hbinders]
      cases hlookup : targets.lookup i with
      | none =>
        exact denote_ok predictable (denote_called hfresh₁ (hcontinues hlt htail) hstate)
      | some code =>
        dsimp only
        split
        · next j e rest hpair =>
          have hrest : Continues M (fun st => emitLoop predictable targets j (e :: rest) st)
              (e :: rest) :=
            hcontinues (Nat.lt_succ_of_lt (length_afterThrowPair hpair)) (htail.after hpair)
          have hcont : continues (es.map (kindOf entity)) = true :=
            continues_iff.mpr ⟨_, _, _, hpair⟩
          have hrefused : stateOf env₁ st₁ = ⟨env₁.toScope, none⟩ := by
            rw [hstate, ← hscope]
          have hthrown (st₂ : EmitState) (hfresh₂ : Fresh st₂)
              (hsame : stateOf env₁ st₂ = stateOf env₁ st₁ ∧
                bindersOf M env₁ st₂ = bindersOf M env₁ st₁) :
              (st₂.flushPending fun st => emitLoop predictable targets j (e :: rest) st).denote M
                  env₁ ↔
                stated (es.map M.clause) { bindersOf M env₁ st₁ with skipping := true }
                  ⟨env₁.toScope, none⟩ := by
            rw [stated_skipping hpair _ rfl, hrest st₂ env₁ hfresh₂, hsame.1, hsame.2, hrefused]
            rfl
          simp only [if_pos hcont]
          exact denote_throwAnd predictable (hthrown st₁ hfresh₁ ⟨rfl, rfl⟩)
            (hthrown { st₁ with throwArmIdx := st₁.throwArmIdx + 1 } ⟨hfresh₁.1, hfresh₁.2⟩
              ⟨rfl, rfl⟩)
        · next hpair =>
          have hcont : ¬ continues (es.map (kindOf entity)) = true := by
            intro h
            obtain ⟨j, e, rest, h⟩ := (continues_iff (i := i + 1)).mp h
            exact hpair j e rest h
          simp only [if_neg hcont, denote_throw predictable, and_true]

/-- No binder yet. -/
def Binders.start : Binders σ V := ⟨false, none, [], none⟩

theorem denote_emitBody (M : Meaning W C V entity) (predictable : Bool) (events : List SpecEvent)
    (env : Env W C V) :
    (emitBody predictable events).denote M env ↔
      stated (events.map M.clause) Binders.start ⟨env.toScope, none⟩ := by
  have htargets : TargetsFrom (collectThrowTargets events) 0 events := fun _ _ => rfl
  have hfresh : Fresh EmitState.new := ⟨fun n hn => absurd hn List.not_mem_nil, nofun⟩
  exact denote_emitLoop predictable hfresh htargets

end CambrianLang.Spec
