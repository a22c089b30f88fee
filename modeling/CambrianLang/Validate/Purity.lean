/-
  **Pure routes and pure functions** (V4, V10 and V11, `validate/entity.rs`).

  V4 walks the body of a pure function, V11 the actions of a pure route, and both
  report what reads state, message or chain.  Neither looks below an address
  computation or an `encode`; V11 does not look at the clauses of a route, nor does
  it know the `evm` intrinsics that V4 reports.
-/
import CambrianLang.Semantics.Evaluation
import CambrianLang.Validate.ViewRoutes

namespace CambrianLang.Validate

open Ast Traversal Semantics Relation

/-! ### The walkers -/

/-- What sets the two expression walkers apart. -/
structure PurityRules where
  code : String
  subject : String
  traceSubject : String
  state : List String
  memberText : String → String
  reportsIntrinsic : String → String → Bool

def PurityRules.report (rules : PurityRules) (what : String) : Diagnostic :=
  .error rules.code (rules.subject ++ " references " ++ what)

/-- What a walker says of an expression itself. -/
def purityOwn (rules : PurityRules) (allowed : List String) : Expr → List Diagnostic
  | .ident x => if x ∉ allowed ∧ x ∈ rules.state then [rules.report (rules.memberText x)] else []
  | .msgField f => [rules.report ("msg::" ++ f ++ " (impure)")]
  | .sysField f => [rules.report ("sys::" ++ f ++ " (impure)")]
  | .temporalRef x => [rules.report ("temporal ^" ++ x ++ " (impure)")]
  | .macroRef name _ => [rules.report ("macro @" ++ name ++ " (macros may access state)")]
  | .traceField _ | .traceCall _ _ =>
      [.error "I16" (rules.traceSubject ++
        ": trace:: accessors are only valid inside invariant 'assume'/'check' expressions")]
  | .enumVariantWithData ns name _ | .namespacedCall ns name _ _ =>
      if rules.reportsIntrinsic ns name then
        [rules.report (ns ++ "::" ++ name ++ "(...) (impure)")] else []
  | _ => []

/-- Where the walkers do not go on. -/
def skipsParts : Expr → Bool
  | .addressOf .. | .encode .. => true
  | _ => false

/-- An expression is walked with the names allowed in it; binders allow theirs. -/
def purityWalker (rules : PurityRules) : Walker (List String × Expr) Diagnostic where
  own n := purityOwn rules n.1 n.2
  visited n := if skipsParts n.2 then [] else n.2.parts.map fun p => (n.1 ++ p.1, p.2)
  rank n := n.2.rank
  rank_lt h := by
    split at h
    · exact absurd h List.not_mem_nil
    · obtain ⟨p, hp, rfl⟩ := List.mem_map.mp h
      exact rank_part_lt hp

/-! ### V4 -/

/-- The intrinsics that `check_purity_expr` lets pass. -/
def isPureIntrinsic (name : String) : Bool :=
  ["ecrecover", "keccak256Packed", "sha256", "ripemd160"].contains name

def pureFnRules (program : Program) (fnName : String) : PurityRules where
  code := "V4"
  subject := "Pure function '" ++ fnName ++ "'"
  traceSubject := "Pure function '" ++ fnName ++ "'"
  state := pureFnStateNames program
  memberText x := "entity member '" ++ x ++ "' (impure); pass it as a parameter"
  reportsIntrinsic ns name := ns == "evm" && !isPureIntrinsic name

/-- `check_pure_fn_purity`. -/
def checkPureFnPurity (program : Program) (f : PureFn) : List Diagnostic :=
  (purityWalker (pureFnRules program f.name)).walk (f.params.map (·.name), f.body)

/-! ### V11 and V10 -/

def pureRouteRules (entity : Entity) (routeName : String) : PurityRules where
  code := "V11"
  subject := "Pure route '" ++ routeName ++ "' in entity '" ++ entity.name ++ "'"
  traceSubject := "route '" ++ routeName ++ "' in entity '" ++ entity.name ++ "'"
  state := entity.members.map (·.name)
  memberText x := "member '" ++ x ++ "' (impure)"
  reportsIntrinsic _ _ := false

/-- `check_pure_route_expr`. -/
def checkPureRouteExpr (entity : Entity) (route : Route) (e : Expr) : List Diagnostic :=
  (purityWalker (pureRouteRules entity route.name)).walk (route.params.map (·.name), e)

/-- What `check_pure_route_action` says of an action itself. -/
def pureRouteAction (entity : Entity) (route : Route) : RouteAction → List Diagnostic :=
  let place := " route '" ++ route.name ++ "' in entity '" ++ entity.name ++ "' "
  let cannot (what : String) := [.error "V11" ("pure" ++ place ++ "cannot " ++ what)]
  fun
  | .send message _ _ _ =>
      [.error "V11" ("Pure" ++ place ++ "contains send action '" ++ message.getD "(transfer)" ++
        "' (impure)")]
  | .effect ns name _ => cannot ("use effect '" ++ ns ++ "::" ++ name ++ "'")
  | .deploy name _ _ => cannot ("deploy '" ++ name ++ "'")
  | .rescue tag _ => cannot ("use rescue '" ++ tag ++ "'")
  | .callRoute name _ => cannot ("call private route '" ++ name ++ "'")
  | .updateCode .. => cannot "use updateCode"
  | .varCall _ message _ _ _ => cannot ("use var call '" ++ message ++ "'")
  | .emit name _ => cannot ("emit event '" ++ name ++ "'")
  | .conditional .. | .ret _ | .letA .. | .throw _ | .throwCustom .. | .forA .. => []

/-- The expressions of an action that are walked. -/
def walkedExprs : RouteAction → List Expr
  | .send message args dest opts => (RouteAction.send message args dest opts).exprs
  | .conditional c _ _ => [c]
  | .ret values => values
  | .letA _ value => [value]
  | .throwCustom _ args => args
  | .forA _ iter _ => [iter]
  | .effect .. | .deploy .. | .rescue .. | .callRoute .. | .updateCode .. | .varCall .. | .emit ..
  | .throw _ => []

/-- `check_pure_route_action`, nested actions included. -/
def checkPureRouteAction (entity : Entity) (route : Route) (a : RouteAction) : List Diagnostic :=
  (walkActionSubtree.walk a).flatMap fun b =>
    pureRouteAction entity route b ++ (walkedExprs b).flatMap (checkPureRouteExpr entity route)

/-- V10 and V11. -/
def checkPureRoutes (entity : Entity) : List Diagnostic :=
  ((entity.routes.filter fun route => route.isPure && hasTransforms entity route.name).map fun route =>
    .error "V10" ("Pure route '" ++ route.name ++ "' in entity '" ++ entity.name ++
      "' must not modify state (has member transforms)")) ++
  (entity.routes.filter (·.isPure)).flatMap fun route =>
    route.body.allActions.flatMap (checkPureRouteAction entity route)

/-- V4 on the pure functions of the program and its libraries, V10 and V11 on its entities. -/
def checkPurity (program : Program) : List Diagnostic :=
  program.pureFns.flatMap (checkPureFnPurity program) ++
  (program.libraries.flatMap fun l => l.pureFns.flatMap (checkPureFnPurity program)) ++
  program.entities.flatMap checkPureRoutes

/-! ### What the walkers miss -/

/-- What no walker reports where it looks: address computations, and calls of the
    platform other than the `evm` intrinsics of a pure function. -/
def unreported (sc : Scope) : Semantics.Source → Bool
  | .address _ => true
  | .platform ns _ =>
      match sc with
      | .entity _ => true
      | .pureFn _ => ns != "evm"
  | _ => false

section Hidden

variable (program : Program)

/-- Evaluation may come to ask for something that is not reported, or for something
    below an expression whose parts are not walked. -/
def HidesAsk (n : Node) : Prop :=
  ∃ m, ReflTransGen (Evaluates program) n m ∧
    ((∃ source operands, asks program m.scope m.bound m.expr = some (source, operands) ∧
        unreported m.scope source = true) ∨
      (skipsParts m.expr = true ∧ ∃ k, Evaluates program m k ∧ MayAsk program k))

/-- The clauses of the route ask for nothing, and its actions for nothing unreported. -/
structure NothingHidden (e : Entity) (r : Route) : Prop where
  froms : r.fromClauses = []
  wheres : ∀ c ∈ r.whereClauses ++ r.body.phaseBlocks.flatMap (·.whereClauses),
    ∀ x ∈ c.condition :: c.errorArgs, Mute program (.entity e) (r.params.map (·.name)) x
  actions : ∀ a, NestedIn r a → ∀ x ∈ a.exprs,
    ¬ HidesAsk program ⟨.entity e, r.params.map (·.name), x⟩

/-- The function is declared, in the library if one is given. -/
def DeclaresFn (lib : Option LibraryDecl) (f : PureFn) : Prop :=
  match lib with
  | none => f ∈ program.pureFns
  | some l => l ∈ program.libraries ∧ f ∈ l.pureFns

/-! ### Checked expressions -/

/-- The rules by which the code of a scope is walked. -/
def RulesOf (rules : PurityRules) : Scope → Prop
  | .entity e => ∃ routeName, rules = pureRouteRules e routeName
  | .pureFn lib => (∃ fnName, rules = pureFnRules program fnName) ∧ ∀ l ∈ lib, l ∈ program.libraries

/-- A walker has looked at the expression, with no more names allowed than are bound,
    and found nothing. -/
def Checked (n : Node) : Prop :=
  ∃ rules, RulesOf program rules n.scope ∧ ∃ allowed, allowed ⊆ n.bound ∧
    NoErrors ((purityWalker rules).walk (allowed, n.expr))

end Hidden

variable {program : Program}

theorem noErrors_walk {α : Type} (W : Walker α Diagnostic) {a : α} (h : NoErrors (W.walk a)) :
    NoErrors (W.own a) ∧ ∀ b ∈ W.visited a, NoErrors (W.walk b) := by
  rw [Walker.walk_eq, noErrors_append, noErrors_flatMap] at h
  exact h

theorem not_noErrors_error {code message : String} : ¬ NoErrors [.error code message] :=
  fun h => h _ (List.mem_singleton.mpr rfl) rfl

theorem not_noErrors_report {rules : PurityRules} {what : String} :
    ¬ NoErrors [rules.report what] := not_noErrors_error

/-- Every `evm` intrinsic that looks at the chain is reported in a pure function. -/
theorem intrinsic_reported {name : String} (h : readsPlatform "evm" name = true) (program : Program)
    (fnName : String) : (pureFnRules program fnName).reportsIntrinsic "evm" name = true := by
  have hname : name = "balance" ∨ name = "blockhash" := by
    simpa [readsPlatform] using h
  have hreports : ("evm" == "evm" && !isPureIntrinsic name) = true := by
    rcases hname with rfl | rfl
    · decide
    · decide
  exact hreports

/-- What is asked for where a walker has looked is unreported. -/
theorem Checked.unreported {n : Node} (h : Checked program n) {source : Semantics.Source}
    {operands : List Expr}
    (hask : asks program n.scope n.bound n.expr = some (source, operands)) :
    Validate.unreported n.scope source = true := by
  obtain ⟨sc, bound, e⟩ := n
  obtain ⟨rules, hrules, allowed, hsub, hwalk⟩ := h
  have hown : NoErrors (purityOwn rules allowed e) := (noErrors_walk _ hwalk).1
  have hplatform : ∀ {ns name : String} {args : List Expr},
      (if readsPlatform ns name then some (Semantics.Source.platform ns name, args) else none) =
        some (source, operands) →
      NoErrors (if rules.reportsIntrinsic ns name then
        [rules.report (ns ++ "::" ++ name ++ "(...) (impure)")] else []) →
      Validate.unreported sc source = true := by
    intro ns name args hread hreport
    split at hread
    · rename_i hreads
      cases hread
      cases sc with
      | entity e => rfl
      | pureFn lib =>
        obtain ⟨⟨fnName, rfl⟩, -⟩ := hrules
        change (ns != "evm") = true
        rw [bne_iff_ne]
        rintro rfl
        have hreports := intrinsic_reported hreads program fnName
        rw [if_pos hreports] at hreport
        exact not_noErrors_report hreport
    · cases hread
  have haddress : ∀ {q : Option (String × List Expr)},
      (q.map fun q => (Semantics.Source.address q.1, q.2)) = some (source, operands) →
      Validate.unreported sc source = true := by
    intro q hq
    obtain ⟨p, -, heq⟩ := Option.map_eq_some_iff.mp hq
    cases heq
    rfl
  cases e with
  | ident x =>
    simp only [asks] at hask
    split at hask
    · rename_i hx
      have hstate : x ∈ rules.state := by
        cases sc with
        | entity e =>
          obtain ⟨routeName, rfl⟩ := hrules
          exact hx.2
        | pureFn lib =>
          obtain ⟨⟨fnName, rfl⟩, -⟩ := hrules
          exact hx.2
      simp only [purityOwn, if_pos (And.intro (fun hmem => hx.1 (hsub hmem)) hstate)] at hown
      exact absurd hown not_noErrors_report
    · cases hask
  | msgField | sysField | temporalRef => exact absurd hown not_noErrors_report
  | traceField | traceCall => exact absurd hown not_noErrors_error
  | enumVariantWithData ns name args => exact hplatform hask hown
  | namespacedCall ns name args tys => exact hplatform hask hown
  | _ =>
    simp only [asks] at hask
    exact haddress hask

/-- A pure function that V4 accepts is checked. -/
theorem checked_of_declared (hfns : ∀ lib f, DeclaresFn program lib f →
    NoErrors (checkPureFnPurity program f)) {lib : Option LibraryDecl} {f : PureFn}
    (hf : DeclaresFn program lib f) :
    Checked program ⟨.pureFn lib, f.params.map (·.name), f.body⟩ := by
  refine ⟨_, ⟨⟨f.name, rfl⟩, ?_⟩, _, fun _ hx => hx, hfns lib f hf⟩
  rintro l rfl
  exact hf.1

theorem declared_of_libraryFn {lib name : String} {callee : Callee}
    (h : libraryFn program lib name = some callee) :
    ∃ l f, DeclaresFn program (some l) f ∧ callee = .ofFn (some l) f := by
  obtain ⟨l, hl, hfn⟩ := Option.bind_eq_some_iff.mp h
  obtain ⟨f, hf, rfl⟩ := Option.map_eq_some_iff.mp hfn
  exact ⟨l, f, ⟨List.mem_of_find?_eq_some hl, List.mem_of_find?_eq_some hf⟩, rfl⟩

theorem declared_of_bareFn {sc : Scope} {name : String} {callee : Callee}
    (hlib : ∀ l, sc = .pureFn (some l) → l ∈ program.libraries)
    (h : bareFn program sc name = some callee) :
    ∃ lib f, DeclaresFn program lib f ∧ callee = .ofFn lib f := by
  have hprogram : ∀ {x}, (program.pureFns.find? (·.name == name)).map (Callee.ofFn none) = some x →
      ∃ lib f, DeclaresFn program lib f ∧ x = .ofFn lib f := by
    intro x hx
    obtain ⟨f, hf, rfl⟩ := Option.map_eq_some_iff.mp hx
    exact ⟨none, f, List.mem_of_find?_eq_some hf, rfl⟩
  match sc, hlib, h with
  | .entity _, _, h => exact hprogram h
  | .pureFn none, _, h => exact hprogram h
  | .pureFn (some l), hlib, h =>
    rcases Option.or_eq_some_iff.mp h with hsibling | ⟨-, hbare⟩
    · obtain ⟨f, hf, rfl⟩ := Option.map_eq_some_iff.mp hsibling
      exact ⟨some l, f, ⟨hlib l rfl, List.mem_of_find?_eq_some hf⟩, rfl⟩
    · exact hprogram hbare

/-- What a checked expression calls is a declared pure function. -/
theorem Checked.calls {n : Node} (h : Checked program n) {callee : Callee} {operands : List Expr}
    (hcall : Semantics.calls program n.scope n.expr = some (callee, operands)) :
    ∃ lib f, DeclaresFn program lib f ∧ callee = .ofFn lib f := by
  obtain ⟨sc, bound, e⟩ := n
  obtain ⟨rules, hrules, allowed, -, hwalk⟩ := h
  have hlib : ∀ l, sc = .pureFn (some l) → l ∈ program.libraries := by
    rintro l rfl
    exact hrules.2 l rfl
  have hlibrary : ∀ {lib name : String} {args : List Expr},
      (libraryFn program lib name).map (·, args) = some (callee, operands) →
      ∃ lib f, DeclaresFn program lib f ∧ callee = .ofFn lib f := by
    intro lib name args hmap
    obtain ⟨c, hc, heq⟩ := Option.map_eq_some_iff.mp hmap
    obtain ⟨rfl, -⟩ := Prod.mk.inj heq
    obtain ⟨l, f, hf, rfl⟩ := declared_of_libraryFn hc
    exact ⟨some l, f, hf, rfl⟩
  cases e with
  | macroRef name args => exact absurd (noErrors_walk _ hwalk).1 not_noErrors_report
  | fnCall name args =>
    obtain ⟨c, hc, heq⟩ := Option.map_eq_some_iff.mp hcall
    obtain ⟨rfl, -⟩ := Prod.mk.inj heq
    exact declared_of_bareFn hlib hc
  | enumVariantWithData lib name args => exact hlibrary hcall
  | methodCall b name args =>
    cases b with
    | ident lib => exact hlibrary hcall
    | _ => cases hcall
  | _ => cases hcall

/-- Evaluation goes from checked expressions to checked ones, unless it enters parts
    that are not walked. -/
theorem Checked.step (hfns : ∀ lib f, DeclaresFn program lib f →
    NoErrors (checkPureFnPurity program f)) {n m : Node} (h : Checked program n)
    (hstep : Evaluates program n m) (hwalks : skipsParts n.expr = false) : Checked program m := by
  cases hstep with
  | @part sc bound bs e c hpart =>
    obtain ⟨rules, hrules, allowed, hsub, hwalk⟩ := h
    refine ⟨rules, hrules, allowed ++ bs, ?_, (noErrors_walk _ hwalk).2 _ ?_⟩
    · exact List.append_subset.mpr
        ⟨List.subset_append_of_subset_left _ hsub, List.subset_append_right _ _⟩
    · change (allowed ++ bs, c) ∈ if skipsParts e then [] else _
      rw [hwalks]
      exact List.mem_map.mpr ⟨(bs, c), hpart, rfl⟩
  | call hcall =>
    obtain ⟨lib, f, hf, rfl⟩ := h.calls hcall
    exact checked_of_declared hfns hf

theorem HidesAsk.mayAsk {n : Node} (h : HidesAsk program n) : MayAsk program n := by
  obtain ⟨m, hpath, ⟨source, operands, hask, -⟩ | ⟨-, k, hstep, l, hrest, hl⟩⟩ := h
  · exact ⟨m, hpath, Option.isSome_iff_exists.mpr ⟨_, hask⟩⟩
  · exact ⟨l, hpath.trans (.head hstep hrest), hl⟩

theorem HidesAsk.of_step {n m : Node} (hstep : Evaluates program n m) (h : HidesAsk program m) :
    HidesAsk program n := by
  obtain ⟨k, hpath, hk⟩ := h
  exact ⟨k, .head hstep hpath, hk⟩

/-- **A checked expression asks the outside for nothing but what is hidden.** -/
theorem Checked.mute (hfns : ∀ lib f, DeclaresFn program lib f →
    NoErrors (checkPureFnPurity program f)) {n : Node} (h : Checked program n)
    (hhidden : ¬ HidesAsk program n) : ¬ MayAsk program n := by
  rintro ⟨k, hpath, hk⟩
  induction hpath using ReflTransGen.head_induction_on with
  | refl =>
    obtain ⟨⟨source, operands⟩, hask⟩ := Option.isSome_iff_exists.mp hk
    exact hhidden ⟨_, .refl, Or.inl ⟨source, operands, hask, h.unreported hask⟩⟩
  | @head x y hstep hrest ih =>
    by_cases hskip : skipsParts x.expr = true
    · exact hhidden ⟨x, .refl, Or.inr ⟨hskip, y, hstep, k, hrest, hk⟩⟩
    · rw [Bool.not_eq_true] at hskip
      exact ih (h.step hfns hstep hskip) fun hy => hhidden (hy.of_step hstep)

/-! ### Accepted programs -/

theorem declared_accepted (h : NoErrors (checkPurity program)) (lib : Option LibraryDecl) (f : PureFn)
    (hf : DeclaresFn program lib f) : NoErrors (checkPureFnPurity program f) := by
  rw [checkPurity, noErrors_append, noErrors_append, noErrors_flatMap, noErrors_flatMap] at h
  obtain ⟨⟨hbare, hlibrary⟩, -⟩ := h
  cases lib with
  | none => exact hbare f hf
  | some l => exact noErrors_flatMap.mp (hlibrary l hf.1) f hf.2

theorem entity_accepted (h : NoErrors (checkPurity program)) {e : Entity}
    (he : e ∈ program.entities) : NoErrors (checkPureRoutes e) := by
  rw [checkPurity, noErrors_append] at h
  exact noErrors_flatMap.mp h.2 e he

/-- What V11 says of one of the actions of an accepted pure route. -/
theorem action_accepted (h : NoErrors (checkPurity program)) {e : Entity} (he : e ∈ program.entities)
    {r : Route} (hr : r ∈ e.routes) (hpure : r.isPure = true) {a : RouteAction} (ha : NestedIn r a) :
    NoErrors (pureRouteAction e r a) ∧ ∀ x ∈ walkedExprs a, NoErrors (checkPureRouteExpr e r x) := by
  have hentity := (noErrors_append.mp (entity_accepted h he)).2
  have hroute := noErrors_flatMap.mp hentity r (List.mem_filter.mpr ⟨hr, hpure⟩)
  obtain ⟨b, hb, hsub⟩ := ha
  have haction := noErrors_flatMap.mp (noErrors_flatMap.mp hroute b hb) a
    ((Walker.mem_walk _).mpr ⟨a, hsub, List.mem_singleton.mpr rfl⟩)
  rw [noErrors_append, noErrors_flatMap] at haction
  exact haction

/-- An action V11 does not report leaves nothing to the platform, and its expressions are walked. -/
theorem walked_of_accepted {e : Entity} {r : Route} {a : RouteAction}
    (h : NoErrors (pureRouteAction e r a)) : reachesOut a = false ∧ walkedExprs a = a.exprs := by
  cases a with
  | conditional | ret | letA | throw | throwCustom | forA => exact ⟨rfl, rfl⟩
  | send | effect | deploy | rescue | callRoute | updateCode | varCall | emit =>
    exact absurd h not_noErrors_error

theorem muteRoute_of_accepted (h : NoErrors (checkPurity program)) {e : Entity}
    (he : e ∈ program.entities) {r : Route} (hr : r ∈ e.routes) (hpure : r.isPure = true)
    (hhidden : NothingHidden program e r) : MuteRoute program e r where
  froms := hhidden.froms
  wheres := hhidden.wheres
  transforms := by
    have htransforms := (noErrors_append.mp (entity_accepted h he)).1
    by_contra hhas
    rw [Bool.not_eq_false] at hhas
    refine htransforms _ (List.mem_map.mpr ⟨r, List.mem_filter.mpr ⟨hr, ?_⟩, rfl⟩) rfl
    rw [hpure, hhas]
    rfl
  actions := by
    intro a ha b hb
    have hnested : NestedIn r b := ⟨a, ha, hb⟩
    obtain ⟨haction, hexprs⟩ := action_accepted h he hr hpure hnested
    obtain ⟨hinside, hwalked⟩ := walked_of_accepted haction
    refine ⟨hinside, fun x hx => ?_⟩
    rw [← hwalked] at hx
    have hchecked : Checked program ⟨.entity e, r.params.map (·.name), x⟩ :=
      ⟨_, ⟨r.name, rfl⟩, _, fun _ hy => hy, hexprs x hx⟩
    rw [hwalked] at hx
    exact hchecked.mute (declared_accepted h) (hhidden.actions b hnested x hx)

/-! ### Noninterference -/

/-- Equal arguments give equal outcomes, whatever operators mean and the platform
    answers, in any two worlds. -/
def RouteNoninterfering (program : Program) (e : Entity) (r : Route) : Prop :=
  ∀ (V F W : Type) (L : Language V F) (M : Platform V F W) (w w' : W) (n : Nat) (args : List V),
    runRoute program L M w n e r args = runRoute program L M w' n e r args

def FnNoninterfering (program : Program) (lib : Option LibraryDecl) (f : PureFn) : Prop :=
  ∀ (V F W : Type) (L : Language V F) (M : Platform V F W) (w w' : W) (n : Nat) (args : List V),
    runPureFn program L M w n lib f args = runPureFn program L M w' n lib f args

/-- **An accepted pure function or pure route that hides nothing does not interfere.** -/
theorem pure_noninterference (program : Program) (h : NoErrors (checkPurity program)) :
    (∀ lib f, DeclaresFn program lib f →
      ¬ HidesAsk program ⟨.pureFn lib, f.params.map (·.name), f.body⟩ →
        FnNoninterfering program lib f) ∧
    ∀ e ∈ program.entities, ∀ r ∈ e.routes, r.isPure = true → NothingHidden program e r →
      RouteNoninterfering program e r := by
  constructor
  · intro lib f hf hhidden V F W L M w w' n args
    exact runPureFn_eq ((checked_of_declared (declared_accepted h) hf).mute (declared_accepted h)
      hhidden) w w' n args
  · intro e he r hr hpure hhidden V F W L M w w' n args
    exact runRoute_eq (muteRoute_of_accepted h he hr hpure hhidden) w w' n args

/-! ### Pure routes that depend on the chain and on the sender -/

/-- `pure balanceOf(who: address) -> U256 => [ return(evm::balance(who)) ]`. -/
def balanceOfRoute : Route :=
  { bumpRoute with
    name := "balanceOf"
    params := [{ name := "who", ty := .simple "address" }]
    returnType := some (.simple "U256")
    body := .unphased [.ret [.enumVariantWithData "evm" "balance" [.ident "who"]]]
    isPure := true }

/-- `pure greet(who: address) -> U256 where msg::sender == who : throw 5 => [ return(1) ]`. -/
def greetRoute : Route :=
  { balanceOfRoute with
    name := "greet"
    whereClauses := [{ condition := .binOp (.msgField "sender") .eq (.ident "who"), errorCode := 5
                       errorName := none, errorArgs := [] }]
    body := .unphased [.ret [.intLiteral .one]] }

/-- `pure total(a: U256, b: U256) -> U256 => [ return(double(a) + b) ]`. -/
def totalRoute : Route :=
  { balanceOfRoute with
    name := "total"
    params := [{ name := "a", ty := .simple "U256" }, { name := "b", ty := .simple "U256" }]
    body := .unphased [.ret [.binOp (.fnCall "double" [.ident "a"]) .add (.ident "b")]] }

def doubleFn : PureFn where
  name := "double"
  params := [{ name := "x", ty := .simple "U256" }]
  returnType := .simple "U256"
  body := .binOp (.ident "x") .add (.ident "x")

def tellerEntity : Entity :=
  { counterEntity with
    name := "Teller"
    routes := [balanceOfRoute, greetRoute, totalRoute]
    members := [] }

def tellerProgram : Program :=
  { counterProgram with
    pureFns := [doubleFn]
    entities := [tellerEntity] }

/-- Sums and comparisons on numbers. -/
def numberLanguage : Language Nat Nat where
  compute e parts ρ :=
    match e, parts with
    | .binOp _ op _, [l, r] => do
        let x ← l ρ
        let y ← r ρ
        return if op = .eq then (if x = y then 1 else 0) else x + y
    | _, _ => return 1
  bind p v ρ := p.names.map (·, v) ++ ρ
  truth v := v ≠ 0
  elems _ := []
  same x y := x = y
  unboundName _ := 0
  thrown code := code
  custom _ _ := 1
  fromFailed := 2

/-- Every balance, and the sender, is the number that is the world. -/
def numberPlatform : Platform Nat Nat Nat where
  answer _ _ w := pure w
  perform _ ρ w := pure (ρ, w)
  transform _ _ _ _ w := pure w

theorem not_noninterfering_of_runs (args : List Nat) (w w' : Nat) {e : Entity} {r : Route}
    (h : runRoute tellerProgram numberLanguage numberPlatform w 3 e r args ≠
      runRoute tellerProgram numberLanguage numberPlatform w' 3 e r args) :
    ¬ RouteNoninterfering tellerProgram e r :=
  fun hnone => h (hnone _ _ _ _ _ w w' 3 args)

/-- Accepted pure routes, and yet one returns a balance and one lets only a sender pass. -/
theorem pure_routes_interfere :
    NoErrors (checkPurity tellerProgram) ∧ tellerEntity ∈ tellerProgram.entities ∧
    (balanceOfRoute ∈ tellerEntity.routes ∧ balanceOfRoute.isPure = true ∧
      ¬ RouteNoninterfering tellerProgram tellerEntity balanceOfRoute) ∧
    greetRoute ∈ tellerEntity.routes ∧ greetRoute.isPure = true ∧
      ¬ RouteNoninterfering tellerProgram tellerEntity greetRoute := by
  refine ⟨by decide, List.mem_cons_self, ⟨List.mem_cons_self, rfl, ?_⟩,
    List.mem_cons_of_mem _ List.mem_cons_self, rfl, ?_⟩
  · refine not_noninterfering_of_runs [7] 1 2 ?_
    have h1 : runRoute tellerProgram numberLanguage numberPlatform 1 3 tellerEntity balanceOfRoute [7] =
        pure [1] := rfl
    have h2 : runRoute tellerProgram numberLanguage numberPlatform 2 3 tellerEntity balanceOfRoute [7] =
        pure [2] := rfl
    rw [h1, h2]
    exact fun heq => nomatch heq
  · refine not_noninterfering_of_runs [7] 7 8 ?_
    have h7 : runRoute tellerProgram numberLanguage numberPlatform 7 3 tellerEntity greetRoute [7] =
        pure [1] := rfl
    have h8 : runRoute tellerProgram numberLanguage numberPlatform 8 3 tellerEntity greetRoute [7] =
        throw 5 := rfl
    rw [h7, h8]
    exact fun heq => nomatch heq

/-- The code that a call of `total` runs. -/
def inTotal (n : Node) : Prop :=
  (n.scope = .entity tellerEntity ∨ n.scope = .pureFn none) ∧
    (n.expr = .binOp (.fnCall "double" [.ident "a"]) .add (.ident "b") ∨
      n.expr = .fnCall "double" [.ident "a"] ∨ n.expr = .binOp (.ident "x") .add (.ident "x") ∨
      ∃ x, n.expr = .ident x)

theorem inTotal_step {n m : Node} (hn : inTotal n) (hstep : Evaluates tellerProgram n m) :
    inTotal m := by
  obtain ⟨hsc, hexpr⟩ := hn
  cases hstep with
  | part hpart =>
    refine ⟨hsc, ?_⟩
    rcases hexpr with rfl | rfl | rfl | ⟨x, rfl⟩
    · simp only [Expr.parts, unbound, List.mem_cons, Prod.mk.injEq, List.not_mem_nil, or_false] at hpart
      rcases hpart with ⟨-, rfl⟩ | ⟨-, rfl⟩
      · exact Or.inr (Or.inl rfl)
      · exact Or.inr (Or.inr (Or.inr ⟨_, rfl⟩))
    · cases List.mem_singleton.mp hpart
      exact Or.inr (Or.inr (Or.inr ⟨_, rfl⟩))
    · simp only [Expr.parts, unbound, List.mem_cons, Prod.mk.injEq, List.not_mem_nil, or_false,
        or_self] at hpart
      rw [hpart.2]
      exact Or.inr (Or.inr (Or.inr ⟨_, rfl⟩))
    · exact absurd hpart List.not_mem_nil
  | @call sc bound e callee operands hcall =>
    rcases hexpr with rfl | rfl | rfl | ⟨x, rfl⟩
    · cases hcall
    · have hdouble : bareFn tellerProgram sc "double" = some (.ofFn none doubleFn) := by
        rcases hsc with rfl | rfl
        · rfl
        · rfl
      rw [calls, hdouble] at hcall
      cases hcall
      exact ⟨Or.inr rfl, Or.inr (Or.inr (Or.inl rfl))⟩
    · cases hcall
    · cases hcall

theorem inTotal_mute {n : Node} (hn : inTotal n) : ¬ MayAsk tellerProgram n := by
  refine not_mayAsk_of_closed (fun _ _ => inTotal_step) ?_ hn
  rintro ⟨sc, bound, e⟩ ⟨hsc, hexpr⟩ hask
  have hstate : stateNames tellerProgram sc = [] := by
    rcases hsc with rfl | rfl
    · rfl
    · rfl
  rcases hexpr with rfl | rfl | rfl | ⟨x, rfl⟩
  · cases hask
  · cases hask
  · cases hask
  · simp only [Asks, asks, hstate, List.not_mem_nil, and_false, if_false] at hask
    cases hask

theorem total_hides_nothing : NothingHidden tellerProgram tellerEntity totalRoute where
  froms := rfl
  wheres c hc := absurd hc List.not_mem_nil
  actions := by
    rintro a ⟨b, hb, hsub⟩ x hx hhides
    rw [List.mem_singleton.mp hb] at hsub
    have ha : a = .ret [.binOp (.fnCall "double" [.ident "a"]) .add (.ident "b")] := by
      rcases ReflTransGen.cases_head hsub with heq | ⟨c, hc, -⟩
      · exact heq.symm
      · exact absurd hc List.not_mem_nil
    rw [ha] at hx
    rw [List.mem_singleton.mp hx] at hhides
    exact inTotal_mute ⟨Or.inl rfl, Or.inl rfl⟩ hhides.mayAsk

theorem pure_noninterference_teller :
    FnNoninterfering tellerProgram none doubleFn ∧
      RouteNoninterfering tellerProgram tellerEntity totalRoute := by
  have h : NoErrors (checkPurity tellerProgram) := by decide
  constructor
  · refine (pure_noninterference tellerProgram h).1 none doubleFn List.mem_cons_self ?_
    exact fun hhides => inTotal_mute ⟨Or.inr rfl, Or.inr (Or.inr (Or.inl rfl))⟩ hhides.mayAsk
  · refine (pure_noninterference tellerProgram h).2 tellerEntity List.mem_cons_self totalRoute ?_ rfl
      total_hides_nothing
    exact List.mem_cons_of_mem _ (List.mem_cons_of_mem _ List.mem_cons_self)

end CambrianLang.Validate
