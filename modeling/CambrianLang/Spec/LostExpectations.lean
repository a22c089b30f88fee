/-
  **Which statements lose an expectation** (`docs/LANGUAGE.md`: every `expect` that
  follows a `call` is kept, and the goal is their conjunction).

  A body of each sort is written down that tells the statement from a run wherever the
  condition fails, so that the condition is exact.
-/
import CambrianLang.Spec.Adversary

namespace CambrianLang.Spec

open Ast Prelude Scripts Validate

/-! ### A body for every list of kinds -/

def trialRouteName : CallKind → String
  | ⟨true, true⟩ => "tryRead"
  | ⟨true, false⟩ => "tryWrite"
  | ⟨false, true⟩ => "read"
  | ⟨false, false⟩ => "write"

/-- A route that fails if its caller says so. -/
def trialRoute (kind : CallKind) : Route where
  name := trialRouteName kind
  params := [⟨"outcome", .simple "string"⟩]
  fromClauses := []
  whereClauses := if kind.fallible then [⟨.fnCall "accepted" [.ident "outcome"], 1, none, []⟩]
    else []
  returnType := if kind.view then some (.simple "bool") else none
  body := .unphased []
  isView := false
  isPure := false
  isInit := false
  isAccept := false
  isPrivate := false
  recoverTag := none
  factoryOnly := false

def trialEntity : Entity where
  name := "Trial"
  records := []
  enums := []
  typeAliases := []
  constants := []
  macros := []
  routes := [⟨true, true⟩, ⟨true, false⟩, ⟨false, true⟩, ⟨false, false⟩].map trialRoute
  members := [⟨"total", .simple "bool", false, none, []⟩]

def trialSubject (isTest : Bool) : Subject where
  entities := [⟨trialEntity, [⟨"Seen", [⟨false, "what", .simple "bool"⟩]⟩], []⟩]
  entity := trialEntity
  failMode _ route := !route.whereClauses.isEmpty
  label := "trial"
  isTest := isTest

def tally (n : Nat) : Expr := .stringLiteral (String.ofList (List.replicate n '1'))

/-- The code a call is told to fail with. -/
def outcomeArg : Option Nat → Expr
  | some code => tally code
  | none => .emptyCollection

/-- An expectation that carries what it demands. -/
def verdict (kept : Bool) (other : Expr) (state : Bool) : Expr :=
  .fnCall "verdict" [.boolLiteral kept, other, if state then .ident "total" else .boolLiteral false]

/-- The step of a kind. -/
def trialStep (kept held : Bool) (time : Nat) (outcome : Option Nat) : Kind → TestStep
  | .update => .setContext "msg" []
  | .rebind => .deployPeer "peer" "Trial" [] []
  | .call kind => .call none (trialRouteName kind) [outcomeArg outcome]
  | .refuse code => .expectThrow code
  | .expect .nothing => .expectState []
  | .expect .absurd => .expectEffects [.effect (.platformEffect "log" [])]
  | .expect (.reads true state) => .expectReturn (verdict kept (.boolLiteral held) state)
  | .expect (.reads false state) => .expectPred (verdict kept (.boolLiteral held) state)
  | .announce reading => .expectEmit "Seen" [verdict kept (tally time) reading.readsState]

/-- The steps whose clauses are `rejected`. -/
def rejectedTrial : List Kind → List TestStep
  | [] => []
  | .call kind :: ks =>
      trialStep false false 0
          (if kind.fallible && (refusals ks).isEmpty then some 0 else none) (.call kind) ::
        rejectedTrial ks
  | k :: ks => trialStep false false 0 none k :: rejectedTrial ks

/-- The steps whose clauses are `adversary`. -/
def trial : List Kind → (skipping held : Bool) → Nat → List TestStep
  | [], _, _, _ => []
  | .expect reading :: ks, skipping, held, n =>
      trialStep (!skipping && reaches ks) held n none (.expect reading) :: trial ks skipping held n
  | .announce reading :: ks, skipping, held, n =>
      trialStep (reaches ks) held (if lands ks then n + 1 else n) none (.announce reading) ::
        trial ks skipping held n
  | .refuse code :: ks, _, held, n =>
      trialStep false held n none (.refuse code) :: trial ks false held n
  | .call kind :: ks, skipping, held, n =>
      trialStep false held n (paired kind ks) (.call kind) ::
        match paired kind ks with
        | some _ => if continues ks then trial ks true held n else rejectedTrial ks
        | none => trial ks skipping (kind.view || (kind.fallible && held)) (n + 1)
  | .update :: ks, skipping, held, n =>
      trialStep false held n none .update :: trial ks skipping held n
  | .rebind :: ks, skipping, held, n =>
      trialStep false held n none .rebind :: trial ks skipping held n

/-! ### What its expressions are taken to say -/

def trialOutcome (call : RouteCall) (world : Nat) : RouteResult (Nat × Unit) :=
  match call.args with
  | [.stringLiteral code] => .error (.ofNat code.length)
  | _ => .ok (world + 1, ())

def trialAssertion (e : Expectation) (inst : String) (v : Option Unit) : Prop :=
  match e with
  | .ret (.fnCall _ (.boolLiteral kept :: .boolLiteral held :: _))
  | .pred (.fnCall _ (.boolLiteral kept :: .boolLiteral held :: _)) =>
      doubt (e.reading trialEntity) kept held inst v
  | _ => True

def trialEmitted (args : List Expr) (inst : String) (world : Nat) : Prop :=
  match args with
  | [.fnCall _ (.boolLiteral kept :: .stringLiteral time :: _)] =>
      kept = true ∧ (args.any (readsEntity trialEntity) = true → inst = "inst") ∧
        world = time.length
  | _ => True

def trialMeaning : Meaning Nat Unit Unit trialEntity where
  value _ _ _ := ()
  ctxWith _ _ := ()
  valueWith _ _ := ()
  block _ s := s.world
  install _ _ s := ((), s.world)
  total _ s _ := (s.world + 1, ())
  outcome call s _ := trialOutcome call s.world
  field _ _ _ := True
  transfer _ _ _ := True
  assertion e inst v _ := trialAssertion e inst v
  emitted _ args inst s := trialEmitted args inst s.world
  assertion_result e h inst v v' s := by
    unfold trialAssertion
    split
    · cases h
    · refine (allows_doubt _ _ _).result ?_ inst v v' ()
      exact h
    · exact Iff.rfl
  assertion_state e h inst inst' v s := by
    unfold trialAssertion
    split
    · refine (allows_doubt _ _ _).state ?_ inst inst' v ()
      exact h
    · refine (allows_doubt _ _ _).state ?_ inst inst' v ()
      exact h
    · exact Iff.rfl
  transfer_state _ _ _ _ _ := Iff.rfl
  emitted_state _ args h inst inst' s := by
    unfold trialEmitted
    split
    · simp only [h, Bool.false_eq_true, false_implies]
    · exact Iff.rfl

def trialClock : Clock (State Nat Unit Unit) where
  time s := s.world
  idle s := s
  bind s := { s with lets := ("peer_inst", ()) :: s.lets }
  call s := { s with world := s.world + 1, value := none }
  refused s := { s with value := none }
  time_idle _ := rfl
  time_bind _ := rfl
  time_call _ := rfl
  time_refused _ := rfl

/-! ### Its clauses -/

theorem walk_leaf {e : Expr} (h : e.children = []) : walkExprSubtree.walk e = [e] := by
  rw [walkExprSubtree.walk_eq]
  simp only [walkExprSubtree, h, List.flatMap_nil, List.append_nil]

theorem walk_fnCall (name : String) (args : List Expr) :
    walkExprSubtree.walk (.fnCall name args) =
      .fnCall name args :: args.flatMap walkExprSubtree.walk := by
  have hargs : (Expr.fnCall name args).children = args := by
    simp only [Expr.children, Expr.parts, List.map_map]
    exact List.map_id args
  rw [walkExprSubtree.walk_eq]
  change [_] ++ (Expr.fnCall name args).children.flatMap walkExprSubtree.walk = _
  rw [hargs, List.singleton_append]

theorem readsEntity_verdict_bool (kept held state : Bool) :
    readsEntity trialEntity (verdict kept (.boolLiteral held) state) = state := by
  rw [readsEntity, verdict, walk_fnCall]
  cases state <;> simp [walk_leaf, Expr.children, Expr.parts, trialEntity]

theorem readsEntity_verdict_tally (kept state : Bool) (time : Nat) :
    readsEntity trialEntity (verdict kept (tally time) state) = state := by
  rw [readsEntity, verdict, walk_fnCall]
  cases state <;> simp [walk_leaf, Expr.children, Expr.parts, trialEntity, tally]

theorem mentionsIdent_verdict (kept held state : Bool) :
    exprMentionsIdent (verdict kept (.boolLiteral held) state) expectResultName = false := by
  rw [exprMentionsIdent, verdict, walk_fnCall]
  cases state <;> simp [walk_leaf, Expr.children, Expr.parts, expectResultName]

theorem reading_ret (kept held state : Bool) :
    (Expectation.ret (verdict kept (.boolLiteral held) state)).reading trialEntity =
      .reads true state := by
  simp only [Expectation.reading, Expectation.readsResult, Expectation.exprs, List.any_cons,
    List.any_nil, readsEntity_verdict_bool, Bool.or_false]

theorem reading_pred (kept held state : Bool) :
    (Expectation.pred (verdict kept (.boolLiteral held) state)).reading trialEntity =
      .reads false state := by
  simp only [Expectation.reading, Expectation.readsResult, Expectation.exprs, List.any_cons,
    List.any_nil, readsEntity_verdict_bool, mentionsIdent_verdict, Bool.or_false]

/-- Each step is one event, with the given clause. -/
def Lowers (step : TestStep) (clause : Clause (State Nat Unit Unit) Unit) : Prop :=
  ∀ isTest (st : LowerState), st.resultIsStale = false →
    ∃ e, (lowerStep (trialSubject isTest) st step).resultIsStale = false ∧
      (lowerStep (trialSubject isTest) st step).events = st.events ++ [e] ∧
        trialMeaning.clause e = clause

theorem lowers_update (kept held : Bool) (time : Nat) (outcome : Option Nat) :
    Lowers (trialStep kept held time outcome .update) (.update trialClock.idle) :=
  fun _ _ hst => ⟨.setMsgCtx [], hst, rfl, rfl⟩

theorem lowers_rebind (kept held : Bool) (time : Nat) (outcome : Option Nat) :
    Lowers (trialStep kept held time outcome .rebind) (.rebind "peer_inst" trialClock.bind) :=
  fun _ _ hst => ⟨.installPeer "Trial" "peer_inst" [] [], hst, rfl, rfl⟩

theorem lowers_refuse (kept held : Bool) (time code : Nat) (outcome : Option Nat) :
    Lowers (trialStep kept held time outcome (.refuse code)) (.refuse code) := by
  intro _ st hst
  refine ⟨.expectThrow code, hst, ?_, rfl⟩
  simp [trialStep, lowerStep, LowerState.pushFresh, LowerState.push, hst]

theorem lowers_expect (kept held : Bool) (time : Nat) (outcome : Option Nat) (reading : Reading) :
    Lowers (trialStep kept held time outcome (.expect reading))
      (.expect reading fun i v _ => doubt reading kept held i v) := by
  intro _ st hst
  cases reading with
  | nothing =>
    refine ⟨.expect (.state []), hst, rfl, ?_⟩
    rw [Meaning.clause]
    congr 1
    funext i v s
    simp [Meaning.holds, doubt, Reading.readsResult, Reading.readsState]
  | absurd =>
    refine ⟨.expect .effectsUnmodelable, hst, rfl, ?_⟩
    rw [Meaning.clause]
    congr 1
    funext i v s
    simp [Meaning.holds, doubt]
  | reads result state =>
    cases result with
    | true =>
      refine ⟨.expect (.ret (verdict kept (.boolLiteral held) state)), hst, ?_, ?_⟩
      · simp [trialStep, lowerStep, LowerState.pushFresh, LowerState.push, hst]
      · rw [Meaning.clause, reading_ret]
        congr 1
        funext i v s
        exact congrArg (doubt · kept held i v) (reading_ret kept held state)
    | false =>
      refine ⟨.expect (.pred (verdict kept (.boolLiteral held) state)), ?_, ?_, ?_⟩
      · simp [trialStep, lowerStep, LowerState.push, mentionsIdent_verdict, hst]
      · simp [trialStep, lowerStep, LowerState.push, mentionsIdent_verdict]
      · rw [Meaning.clause, reading_pred]
        congr 1
        funext i v s
        exact congrArg (doubt · kept held i v) (reading_pred kept held state)

theorem lowers_announce (kept held state : Bool) (time : Nat) (outcome : Option Nat) :
    Lowers (trialStep kept held time outcome (.announce (.reads false state)))
      (.announce (.reads false state) fun i s => kept = true ∧ (state = true → i = "inst") ∧
        trialClock.time s = time) := by
  intro _ st hst
  refine ⟨.expectEmit "Seen" [verdict kept (tally time) state], hst, rfl, ?_⟩
  have hreads : [verdict kept (tally time) state].any (readsEntity trialEntity) = state := by
    rw [List.any_cons, List.any_nil, Bool.or_false]
    exact readsEntity_verdict_tally kept state time
  rw [Meaning.clause, hreads]
  congr 1
  funext i s
  simp only [trialMeaning, trialEmitted, hreads]
  simp [verdict, tally, trialClock]

theorem find_trialRoute (kind : CallKind) :
    trialEntity.routes.find? (·.name == trialRouteName kind) = some (trialRoute kind) := by
  obtain ⟨fallible, view⟩ := kind
  cases fallible <;> cases view <;> rfl

theorem lowers_call (kept held : Bool) (time : Nat) (outcome : Option Nat) (kind : CallKind)
    (h : kind.fallible = false → outcome = none) :
    Lowers (trialStep kept held time outcome (.call kind))
      (.call kind (fun s => outcome.elim (.ok (trialClock.call s, token kind.view)) .error)
        trialClock.refused) := by
  intro isTest st hst
  have hlower : lowerStep (trialSubject isTest) st (trialStep kept held time outcome (.call kind)) =
      { st.push (callEvent (trialSubject isTest) trialEntity (trialRoute kind)
          [outcomeArg outcome] none st.activeSutInst) with resultIsStale := false } := by
    have hfind : (trialSubject isTest).entity.routes.find? (·.name == trialRouteName kind) =
        some (trialRoute kind) := find_trialRoute kind
    rw [trialStep, lowerStep, lowerOwnCall, hfind]
    rfl
  rw [hlower]
  refine ⟨_, rfl, rfl, ?_⟩
  obtain ⟨fallible, view⟩ := kind
  cases fallible with
  | false =>
    obtain rfl := h rfl
    cases view <;> rfl
  | true =>
    cases outcome with
    | none => cases view <;> rfl
    | some code =>
      have hcode (s : State Nat Unit Unit) (call : RouteCall)
          (hargs : call.args = [tally code]) :
          trialOutcome call s.world = .error (.ofNat code) := by
        simp [trialOutcome, hargs, tally]
      cases view
      all_goals
        simp only [callEvent, trialSubject, trialRoute, List.isEmpty_cons, Bool.not_false, if_true,
          Meaning.clause, trialMeaning]
        congr 1
        funext s
        rw [hcode s _ rfl]
        rfl

/-! ### Both scripts -/

/-- The clauses of all steps. -/
theorem lowers_steps {isTest : Bool} {steps : List TestStep}
    {clauses : List (Clause (State Nat Unit Unit) Unit)}
    (h : List.Forall₂ Lowers steps clauses) {st : LowerState} (hst : st.resultIsStale = false) :
    (steps.foldl (lowerStep (trialSubject isTest)) st).events.map trialMeaning.clause =
      st.events.map trialMeaning.clause ++ clauses := by
  induction h generalizing st with
  | nil => exact (List.append_nil _).symm
  | cons hstep _ ih =>
    obtain ⟨e, hstale, hevents, hclause⟩ := hstep isTest st hst
    rw [List.foldl_cons, ih hstale, hevents, List.map_append, List.map_singleton, hclause,
      List.append_assoc, List.singleton_append]

/-- The announcements are those an event can be. -/
def Announces (ks : List Kind) : Prop :=
  ∀ reading, .announce reading ∈ ks → ∃ state, reading = .reads false state

theorem announces_kinds (entity : Entity) (events : List SpecEvent) :
    Announces (events.map (kindOf entity)) := by
  intro reading h
  obtain ⟨e, -, he⟩ := List.mem_map.mp h
  cases e with
  | expectEmit name args =>
    cases he
    exact ⟨_, rfl⟩
  | installPeer peer inst args initState =>
    rw [kindOf] at he
    split at he <;> cases he
  | letE | setMsgCtx | setSysCtx | rawCall | wrappedCall | expect | expectThrow | comment =>
    cases he

theorem lowers_rejected {ks : List Kind} (h : Announces ks) :
    List.Forall₂ Lowers (rejectedTrial ks) (rejected trialClock ks) := by
  induction ks with
  | nil => exact .nil
  | cons k ks ih =>
    have hrest := ih fun reading hr => h reading (List.mem_cons_of_mem _ hr)
    cases k with
    | update => exact .cons (lowers_update false false 0 none) hrest
    | rebind => exact .cons (lowers_rebind false false 0 none) hrest
    | refuse code => exact .cons (lowers_refuse false false 0 code none) hrest
    | expect reading => exact .cons (lowers_expect false false 0 none reading) hrest
    | announce reading =>
      obtain ⟨state, rfl⟩ := h reading List.mem_cons_self
      have hstep := lowers_announce false false state 0 none
      simp only [Bool.false_eq_true, false_and] at hstep
      exact .cons hstep hrest
    | call kind =>
      refine .cons ?_ hrest
      by_cases hrefuses : (kind.fallible && (refusals ks).isEmpty) = true
      · simp only [hrefuses, if_true]
        refine lowers_call false false 0 (some 0) kind ?_
        intro hfallible
        rw [hfallible] at hrefuses
        cases hrefuses
      · simp only [hrefuses, Bool.false_eq_true, if_false]
        exact lowers_call false false 0 none kind fun _ => rfl

theorem lowers_trial {ks : List Kind} (h : Announces ks) (skipping held : Bool) (n : Nat) :
    List.Forall₂ Lowers (trial ks skipping held n) (adversary trialClock ks skipping held n) := by
  induction ks generalizing skipping held n with
  | nil => exact .nil
  | cons k ks ih =>
    have hks : Announces ks := fun reading hr => h reading (List.mem_cons_of_mem _ hr)
    cases k with
    | update => exact .cons (lowers_update _ _ _ _) (ih hks _ _ _)
    | rebind => exact .cons (lowers_rebind _ _ _ _) (ih hks _ _ _)
    | refuse code => exact .cons (lowers_refuse _ _ _ code _) (ih hks _ _ _)
    | expect reading => exact .cons (lowers_expect _ _ _ _ reading) (ih hks _ _ _)
    | announce reading =>
      obtain ⟨state, rfl⟩ := h reading List.mem_cons_self
      exact .cons (lowers_announce _ _ state _ _) (ih hks _ _ _)
    | call kind =>
      have hcall : kind.fallible = false → paired kind ks = none := by
        intro hfallible
        rw [paired, hfallible]
        rfl
      have hstep := lowers_call false held n (paired kind ks) kind hcall
      rw [trial, adversary]
      cases hpaired : paired kind ks with
      | none =>
        rw [hpaired] at hstep
        exact .cons hstep (ih hks _ _ _)
      | some code =>
        rw [hpaired] at hstep
        refine .cons hstep ?_
        dsimp only
        split
        · exact ih hks _ _ _
        · exact lowers_rejected hks

/-! ### The condition is exact -/

/-- The kinds of the events of a body. -/
def kinds (S : Subject) (body : List TestStep) : List Kind :=
  (lowerSteps S body).events.map (kindOf S.entity)

/-- The events in order from a state, with every call and expectation as it has to be. -/
def Meets {W C V : Type} {entity : Entity} (M : Meaning W C V entity) (events : List SpecEvent)
    (s : Scope W C V) : Prop :=
  Executes (events.map M.clause) ⟨"inst", none, []⟩ ⟨s, none⟩

def Mark.start : Mark := ⟨false, false, true, false, none, false⟩

theorem tracks_start {σ V : Type} :
    @Tracks σ V Mark.start Binders.start ⟨"inst", none, []⟩ where
  skipping := rfl
  held := rfl
  fresh _ := rfl
  rebound _ := rfl
  announced := rfl
  nothing _ := rfl
  promise _ h := by cases h
  seen _ p hp := absurd hp List.not_mem_nil

theorem denote_iff_meets {W C V : Type} {entity : Entity} (M : Meaning W C V entity)
    (predictable : Bool) {events : List SpecEvent} (env : Env W C V)
    (h : doomed (events.map (kindOf entity)) false false = true ∨
      keeps (events.map (kindOf entity)) Mark.start = true) :
    (emitBody predictable events).denote M env ↔ Meets M events env.toScope := by
  have hlaw : ∀ c ∈ events.map M.clause, Lawful c := by
    intro c hc
    obtain ⟨e, -, rfl⟩ := List.mem_map.mp hc
    exact lawful_clause M e
  rw [denote_emitBody]
  rcases h with h | h
  · have habsurd := (absurd_of_doomed h).resolve_left Bool.false_ne_true
    rw [← shapes_clauses M] at h habsurd
    refine iff_of_false (not_stated_of_doomed hlaw h nofun) (not_executes_of_absurd hlaw habsurd)
  · rw [← shapes_clauses M] at h
    rw [stated_iff h hlaw tracks_start]
    exact and_iff_right fun p hp => absurd hp List.not_mem_nil

/-- Where the condition fails, a body with the same kinds has a statement that does not
    follow its run. -/
theorem exists_lost (predictable isTest : Bool) {ks : List Kind} (hks : Announces ks)
    (hdoomed : doomed ks false false = false) (hkeeps : keeps ks Mark.start = false) :
    ∃ body : List TestStep, kinds (trialSubject isTest) body = ks ∧
      ∃ env : Env Nat Unit Unit,
        ¬ ((emitBody predictable (lowerSteps (trialSubject isTest) body).events).denote trialMeaning
            env ↔ Meets trialMeaning (lowerSteps (trialSubject isTest) body).events env.toScope) := by
  have hclauses :
      (lowerSteps (trialSubject isTest) (trial ks false false 0)).events.map trialMeaning.clause =
        adversary trialClock ks false false 0 :=
    lowers_steps (lowers_trial hks false false 0) rfl
  let env : Env Nat Unit Unit := ⟨⟨0, (), []⟩, (), fun _ => none, fun _ => True⟩
  refine ⟨trial ks false false 0, ?_, env, ?_⟩
  · have hshapes := shapes_clauses trialMeaning
      (lowerSteps (trialSubject isTest) (trial ks false false 0)).events
    rw [hclauses, shape_adversary] at hshapes
    exact hshapes.symm
  · rw [denote_emitBody, Meets, hclauses]
    intro hiff
    have hstated : stated (adversary trialClock ks false false 0) Binders.start
        ⟨env.toScope, none⟩ := by
      refine stated_adversary trialClock rfl rfl rfl nofun ?_ hdoomed ?_
      · exact fun p hp => by cases hp
      · exact fun _ _ p hp => absurd hp List.not_mem_nil
    have hrun := hiff.mp hstated
    have hkept : keeps ks Mark.start = true := by
      have hfresh : (none : Option Unit) = token Mark.start.held → Mark.start.fresh = true :=
        fun _ => rfl
      exact keeps_of_executes trialClock (n := 0) rfl nofun hfresh nofun nofun nofun hrun
    rw [hkeeps] at hkept
    cases hkept

/-- Of the bodies with the same kinds of events, each one's statement says what the run of
    its events does if and only if the condition holds. -/
theorem statements_follow_runs_iff (predictable : Bool) (S : Subject) (body : List TestStep) :
    (∀ (S' : Subject) (body' : List TestStep), S'.isTest = S.isTest →
      kinds S' body' = kinds S body →
        ∀ (W C V : Type) (M : Meaning W C V S'.entity) (env : Env W C V),
          (emitBody predictable (lowerSteps S' body').events).denote M env ↔
            Meets M (lowerSteps S' body').events env.toScope) ↔
    (doomed (kinds S body) false false = true ∨ keeps (kinds S body) Mark.start = true) := by
  constructor
  · intro h
    by_contra hnot
    rw [not_or, Bool.not_eq_true, Bool.not_eq_true] at hnot
    obtain ⟨body', hkinds, env, hlost⟩ :=
      exists_lost predictable S.isTest (announces_kinds S.entity _) hnot.1 hnot.2
    exact hlost (h (trialSubject S.isTest) body' rfl hkinds _ _ _ trialMeaning env)
  · intro h S' body' _ hkinds W C V M env
    rw [← hkinds] at h
    exact denote_iff_meets M predictable env h

/-! ### A test that loses one -/

def vaultRoute (name : String) (guards : List WhereClause) : Route where
  name := name
  params := [⟨"amount", .simple "u256"⟩]
  fromClauses := []
  whereClauses := guards
  returnType := none
  body := .unphased []
  isView := false
  isPure := false
  isInit := false
  isAccept := false
  isPrivate := false
  recoverTag := none
  factoryOnly := false

/-- `withdraw` is refused with code 7 above the total. -/
def vault : Entity where
  name := "Vault"
  records := []
  enums := []
  typeAliases := []
  constants := []
  macros := []
  routes :=
    [vaultRoute "deposit" [],
      vaultRoute "withdraw" [⟨.binOp (.ident "amount") .le (.ident "total"), 7, none, []⟩]]
  members :=
    [⟨"total", .simple "u256", false, none,
      [⟨"deposit", [.ident "amount"], .binOp (.ident "total") .add (.ident "amount"), none⟩,
        ⟨"withdraw", [.ident "amount"], .binOp (.ident "total") .sub (.ident "amount"), none⟩]⟩]

def vaultSubject : Subject where
  entities := [⟨vault, [], []⟩]
  entity := vault
  failMode _ route := !route.whereClauses.isEmpty
  label := "test 'deposit'"
  isTest := true

def amount (n : Nat) : Expr := .intLiteral (.ofWord n)

/-- The state is expected between the two calls. -/
def vaultBody : List TestStep :=
  [.call none "deposit" [amount 5], .expectState [([.field "total"], amount 6)],
    .call none "withdraw" [amount 9], .expectThrow 7]

def literalValue : Expr → Nat
  | .intLiteral n => n.toNat
  | _ => 0

/-- The world is the total. -/
def vaultMeaning : Meaning Nat Unit Unit vault where
  value _ _ _ := ()
  ctxWith _ _ := ()
  valueWith _ _ := ()
  block _ s := s.world
  install _ _ s := ((), s.world)
  total call s _ := (s.world + (call.args.map literalValue).sum, ())
  outcome call s _ :=
    if (call.args.map literalValue).sum ≤ s.world then
      .ok (s.world - (call.args.map literalValue).sum, ())
    else .error (.ofNat 7)
  field f _ s := s.world = literalValue f.2
  transfer _ _ _ := True
  assertion _ _ _ _ := True
  emitted _ _ _ _ := True
  assertion_result _ _ _ _ _ _ := Iff.rfl
  assertion_state _ _ _ _ _ _ := Iff.rfl
  transfer_state _ _ _ _ _ := Iff.rfl
  emitted_state _ _ _ _ _ _ := Iff.rfl

/-- The statement is the failure of `withdraw` alone. -/
theorem deposit_expectation_lost :
    ¬ ∀ (predictable : Bool) (S : Subject) (body : List TestStep) (W C V : Type)
      (M : Meaning W C V S.entity) (env : Env W C V),
        (emitBody predictable (lowerSteps S body).events).denote M env ↔
          Meets M (lowerSteps S body).events env.toScope := by
  intro h
  let events : List SpecEvent :=
    [.rawCall ⟨"deposit", [amount 5], false, none, none⟩,
      .expect (.state [([.field "total"], amount 6)]),
      .wrappedCall ⟨"withdraw", [amount 9], false, none, none⟩, .expectThrow 7]
  let env : Env Nat Unit Unit := ⟨⟨0, (), []⟩, (), fun _ => none, fun _ => True⟩
  have hiff : (emitBody true events).denote vaultMeaning env ↔
      Meets vaultMeaning events env.toScope :=
    h true vaultSubject vaultBody _ _ _ vaultMeaning env
  rw [denote_emitBody] at hiff
  have hstated : stated (events.map vaultMeaning.clause) Binders.start ⟨env.toScope, none⟩ :=
    ⟨rfl, trivial⟩
  obtain ⟨-, -, htotal, -⟩ := hiff.mp hstated
  have htotal : ∀ f ∈ [([PathSegment.field "total"], amount 6)], 5 = literalValue f.2 := htotal
  have := htotal _ List.mem_cons_self
  revert this
  decide +kernel

end CambrianLang.Spec
