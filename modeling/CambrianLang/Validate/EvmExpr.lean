/-
  **The expression gate of the EVM target** (`check_evm_compat_expr`).

  The gate rejects expressions the EVM back end would miscompile silently.  What
  is rejected depends on how an expression is used: a range is fine as the
  iterator of a `for` or a `fold`, a closure as a stage of a fused chain or as
  the function of a `fold`.  A `Site` is therefore an expression together with
  its use.
-/
import CambrianLang.Ast.Entity
import CambrianLang.Solidity.Intrinsics
import CambrianLang.Validate.Diagnostic

namespace CambrianLang.Validate

open Ast Traversal Solidity Relation

/-- How an expression is used: as a value, as the range a loop runs over, as a
    closure that is inlined into a loop, or as (a prefix of) a fused chain. -/
inductive Use where
  | value
  | iterator
  | stageClosure
  | chain
deriving DecidableEq

structure Site where
  use : Use
  expr : Expr

/-- A site where the expression is used as a value. -/
def valueSite (e : Expr) : Site := ⟨.value, e⟩

/-! ### Shapes the gate recognises -/

/-- `is_iterator_method_chain`. -/
def isIteratorMethodChain : Expr → Bool
  | .methodCall _ name _ =>
      ["iter", "into_iter", "map", "filter", "filter_map", "fold", "reduce", "enumerate", "zip",
        "take", "skip", "chain", "flat_map", "flatten", "rev", "sum", "product", "max", "min",
        "any", "all", "count", "position", "find"].contains name
  | _ => false

/-- `is_unsupported_iter_combinator`. -/
def isUnsupportedIterCombinator (name : String) : Bool :=
  ["filter_map", "into_iter", "reduce", "zip", "skip", "chain", "flat_map", "flatten", "rev", "sum",
    "product", "max", "min", "any", "all", "count", "position", "find"].contains name

/-- A closure with the given number of parameters. -/
def isClosureOf (arity : Nat) : Expr → Bool
  | .closure params _ => params.length == arity
  | _ => false

/-- A stage that `check_evm12_fused_chain_leaves` looks through. -/
def isChainStage : Expr → Bool
  | .methodCall _ m args =>
      match args with
      | [] => m == "iter" || m == "values" || m == "enumerate"
      | [a] => (m == "filter" || m == "map") && isClosureOf 1 a || m == "take"
      | _ => false
  | _ => false

/-- The loop of `is_evm12_fused_fold_chain`, on the stages counted so far. -/
def fusedStages (stages : Nat) : Expr → Bool
  | .methodCall b m args =>
      if isChainStage (.methodCall b m args) then fusedStages (stages + 1) b
      else if isUnsupportedIterCombinator m then false
      else decide (0 < stages)
  | _ => decide (0 < stages)

/-- The shape `<iter>.fold(init, |acc, x| body)`. -/
def isFold : Expr → Bool
  | .methodCall _ "fold" [_, f] => isClosureOf 2 f
  | _ => false

/-- `is_evm12_fused_fold_chain`. -/
def isEvm12FusedFoldChain : Expr → Bool
  | .methodCall b "fold" [_, f] => isClosureOf 2 f && fusedStages 0 b
  | _ => false

/-- `evm_unlowered_method_hint`. -/
def evmUnloweredMethodHint : String → Option String
  | "unwrap" | "unwrap_or" | "expect" =>
      some "destructure the `Option` with `match` or `let some(x) = ...`"
  | "is_some" | "is_none" => some "test the `Option` with `match` (`some(_)` / `none` arms)"
  | "get" => some "index the collection with `m[k]` (or `m.contains(k)` for membership)"
  | "set" => some "update a map member with `m.insert(k, v)` in a member transform"
  | _ => none

/-! ### What the gate reports at an expression used as a value -/

/-- The prefix of every message. -/
def atRoute (entityName routeName : String) : String :=
  "entity '" ++ entityName ++ "' route '" ++ routeName ++ "': "

/-- `push_e16_unknown_evm`. -/
def e16UnknownEvm (at_ name : String) (arity : Nat) : Diagnostic :=
  .error "E16" (at_ ++ "`evm::" ++ name ++ "` with " ++ toString arity ++
    " argument(s) is not an EVM intrinsic (supported: ecrecover, keccak256, keccak256Packed, " ++
    "sha256, ripemd160, balance, blockhash)")

def e15Gosh (at_ name : String) : Diagnostic :=
  .error "E15" (at_ ++ "`gosh::" ++ name ++ "(...)` has no EVM equivalent in expression position. " ++
    "Move the call to action position (e.g. as a top-level effect) or guard it behind a target check.")

/-- The `MsgField` arms. -/
def checkMsgField (at_ f : String) : List Diagnostic :=
  if f = "pubkey" then
    [.error "E03" (at_ ++ "msg::pubkey is TVM-specific (no EVM equivalent — addresses are derived " ++
      "from secp256k1 keys but the pubkey itself is not exposed). Remove the reference or guard it " ++
      "behind a target check.")]
  else if f = "currencies" then
    [.error "E04" (at_ ++ "msg::currencies is TVM-specific (ECC-7 currency map). EVM has no " ++
      "analogue; use msg::value for the native asset.")]
  else if f = "body" then
    [.error "E13" (at_ ++ "msg::body is TVM-specific (raw inbound cell). On EVM there is no " ++
      "equivalent — calldata is already decoded into typed parameters by the dispatcher.")]
  else if (solMsgField f).isNone then [.error "E16" (at_ ++ "`msg::" ++ f ++ "` has no EVM lowering")]
  else []

/-- The `SysField` arms. -/
def checkSysField (at_ f : String) : List Diagnostic :=
  if f = "pubkey" ∨ f = "seqno" then
    [.error "E14" (at_ ++ "sys::" ++ f ++ " is TVM-specific (contract keypair / external-message " ++
      "seqno). EVM contracts have no keypair and no replay-protection seqno.")]
  else if !(["now", "timestamp", "address", "logicaltime", "block_number", "rnd_seed", "prevrandao",
      "pubkey", "balance", "seqno"].contains f) then
    [.error "E24" (at_ ++ "unknown system field `sys::" ++ f ++
      "` is not available on the Container target")]
  else if (solSysField f).isNone then [.error "E16" (at_ ++ "`sys::" ++ f ++ "` has no EVM lowering")]
  else []

/-- The `EnumVariantWithData` arm: the grammar also reads `<ns>::<name>(args)` so. -/
def checkVariantCall (at_ en v : String) (arity : Nat) : List Diagnostic :=
  if en = "gosh" then [e15Gosh at_ v]
  else if en = "evm" then
    if evmNsCallSupported v arity then [] else [e16UnknownEvm at_ v arity]
  else
    [.warning "E08" (at_ ++ "enum variant " ++ en ++ "::" ++ v ++ " with data lowers to a " ++
      "tagged-union struct on EVM (one field slot per payload position; see docs/EVM_GAPS.md § 1.31)")]

/-- The `NamespacedCall` arms. -/
def checkNamespacedCall (at_ ns name : String) (arity : Nat) : List Diagnostic :=
  if ns = "evm" then
    if evmNsCallSupported name arity then [] else [e16UnknownEvm at_ name arity]
  else if ns = "gosh" then [e15Gosh at_ name]
  else if isStdNamespace ns then
    if isSupportedStdCall ns name then []
    else [.error "E25" (at_ ++ "unsupported standard-library call `" ++ ns ++ "::" ++ name ++
      "`; see docs/STDLIB.md for the Phase-1 allowlist")]
  else
    [.error "E16" (at_ ++ "`" ++ ns ++ "::" ++ name ++ "(..)` namespace has no EVM lowering. Use an " ++
      "`evm::` intrinsic or move platform-specific code behind a target check.")]

/-- The `fold` arm. -/
def checkFold (at_ : String) (fold b : Expr) : List Diagnostic :=
  if isIteratorMethodChain b && !isEvm12FusedFoldChain fold then
    [.warning "E07" (at_ ++ "`.fold` over an iterator-method chain (.iter()/.map()/.filter()/...) is " ++
      "not lowerable to Solidity; fold over a `Vec<T>` or a `start..end` range instead")]
  else []

/-- The other `MethodCall` arm. -/
def checkMethod (at_ method : String) : List Diagnostic :=
  match evmUnloweredMethodHint method with
  | some hint =>
      [.error "E28" (at_ ++ "`." ++ method ++ "()` has no Solidity or Lean lowering; " ++ hint)]
  | none => []

/-- The diagnostics `check_evm_compat_expr` pushes for the expression itself. -/
def checkValue (at_ : String) (deterministic : Bool) : Expr → List Diagnostic
  | .msgField f => checkMsgField at_ f
  | .sysField f => checkSysField at_ f
  | .closure _ _ =>
      [.error "E07" (at_ ++ "closure-as-value not lowerable to Solidity (use `for x in iter \x7b ... " ++
        "\x7d` directly, or keep the algorithm in a TVM-only pure fn)")]
  | .forE _ iter _ =>
      if isIteratorMethodChain iter then
        [.warning "E07" (at_ ++ "`for` over an iterator-method chain " ++
          "(.iter()/.map()/.filter()/.fold()/...) is not lowerable to Solidity; iterate over a " ++
          "`Vec<T>` or a `start..end` range instead")]
      else []
  | .range _ _ =>
      [.error "E07" (at_ ++ "bare `start..end` range is only lowerable as a `for` iterator on EVM")]
  | .enumVariantWithData en v args => checkVariantCall at_ en v args.length
  | .namespacedCall ns name args _ => checkNamespacedCall at_ ns name args.length
  | .methodCall b method args =>
      if isFold (.methodCall b method args) then checkFold at_ (.methodCall b method args) b
      else checkMethod at_ method
  | .encode _ _ =>
      [.error "E16" (at_ ++ "`encode<...>(...)` is a test-only intrinsic that has no EVM equivalent " ++
        "in entity / route bodies (it lowers to ABI scratch outside test contexts)")]
  | .addressOf ent _ _ =>
      if deterministic then []
      else [.error "E16" (at_ ++ "`address_of " ++ ent ++ "(..)` requires `deterministic_addresses: " ++
        "true` in project.yaml on the EVM target — outside deterministic mode the address cannot be " ++
        "predicted statically")]
  | _ => []

/-! ### Where the gate descends -/

/-- The use of the iterator of a `for`: a range is looked through. -/
def iterUse : Expr → Use
  | .range _ _ => .iterator
  | _ => .value

/-- The use of the receiver of a `fold`. -/
def foldUse (fold b : Expr) : Use :=
  match b with
  | .range _ _ => .iterator
  | _ => if isEvm12FusedFoldChain fold then .chain else .value

/-- The sites an expression used as a value consists of. -/
def valueParts : Expr → List Site
  | .intLiteral _ | .stringLiteral _ | .bytesLiteral _ | .boolLiteral _ | .emptyCollection
  | .ident _ | .temporalRef _ | .msgField _ | .sysField _ | .traceField _ | .traceCall _ _
  | .enumVariant _ _ | .noneE => []
  | .closure _ body => [valueSite body]
  | .forE _ iter body => [⟨iterUse iter, iter⟩, valueSite body]
  | .range lo hi => [valueSite lo, valueSite hi]
  | .enumVariantWithData _ _ args => args.map valueSite
  | .namespacedCall _ _ args _ => args.map valueSite
  | .binOp l _ r => [valueSite l, valueSite r]
  | .unaryOp _ e => [valueSite e]
  | .fieldAccess b _ => [valueSite b]
  | .index b i => [valueSite b, valueSite i]
  | .methodCall b method args =>
      match isFold (.methodCall b method args), args with
      | true, [init, f] =>
          [⟨foldUse (.methodCall b method args) b, b⟩, valueSite init, ⟨.stageClosure, f⟩]
      | _, _ => valueSite b :: args.map valueSite
  | .fnCall _ args | .macroRef _ args => args.map valueSite
  | .ifE c t e => valueSite c :: valueSite t :: e.toList.map valueSite
  | .letE _ val body => [valueSite val, valueSite body]
  | .block items => items.map valueSite
  | .recordConstruct _ fields => fields.map fun f => valueSite f.2
  | .recordUpdate b fields => valueSite b :: fields.map fun f => valueSite f.2
  | .tuple items | .arrayLit items => items.map valueSite
  | .cast e _ | .someE e => [valueSite e]
  | .matchE s arms => valueSite s :: arms.map fun a => valueSite a.2
  | .encode _ value => [valueSite value]
  | .addressOf _ args withParams => args.map valueSite ++ withParams.map fun w => valueSite w.2

/-- The sites a stage of a fused chain consists of. -/
def stageParts : Expr → List Site
  | .methodCall b "take" args => ⟨.chain, b⟩ :: args.map valueSite
  | .methodCall b _ args => ⟨.chain, b⟩ :: args.map fun a => ⟨.stageClosure, a⟩
  | _ => []

/-- The sites a site consists of: each immediate subexpression with its use. -/
def siteParts (s : Site) : List Site :=
  match s.use with
  | .chain => if isChainStage s.expr then stageParts s.expr else valueParts s.expr
  | .value | .iterator | .stageClosure => valueParts s.expr

/-- `check_evm_compat_expr` has no arm for these calls: it reports nothing and does
    not look at the arguments. -/
def isUnvisitedCall : Expr → Bool
  | .namespacedCall ns name args _ =>
      ns == "gosh" || ns == "evm" && evmNsCallSupported name args.length ||
        isStdNamespace ns && isSupportedStdCall ns name
  | _ => false

/-- The sites the gate descends into. -/
def visitedSites (s : Site) : List Site := if isUnvisitedCall s.expr then [] else siteParts s

/-- What the gate reports at a site: an inlined closure, a range that is looped over
    and a chain stage are no values. -/
def checkSite (at_ : String) (deterministic : Bool) (s : Site) : List Diagnostic :=
  match s.use with
  | .value => checkValue at_ deterministic s.expr
  | .chain => if isChainStage s.expr then [] else checkValue at_ deterministic s.expr
  | .iterator | .stageClosure => []

/-! ### The gate as a traversal -/

theorem map_valueSite (es : List Expr) : (es.map valueSite).map Site.expr = es := by
  rw [List.map_map]
  exact List.map_id _

theorem map_unbound (es : List Expr) : (es.map unbound).map Prod.snd = es := by
  rw [List.map_map]
  exact List.map_id _

theorem children_methodCall (b : Expr) (method : String) (args : List Expr) :
    (Expr.methodCall b method args).children = b :: args := by
  rw [Expr.children, Expr.parts, List.map_cons, map_unbound]
  rfl

theorem valueParts_methodCall (b : Expr) (method : String) (args : List Expr) :
    (valueParts (.methodCall b method args)).map Site.expr = b :: args := by
  simp only [valueParts]
  split
  · rfl
  · rw [List.map_cons, map_valueSite]
    rfl

theorem stageParts_methodCall (b : Expr) (method : String) (args : List Expr) :
    (stageParts (.methodCall b method args)).map Site.expr = b :: args := by
  unfold stageParts
  split
  · next heq =>
    cases heq
    rw [List.map_cons, map_valueSite]
  · next heq =>
    cases heq
    rw [List.map_cons, List.map_map]
    exact congrArg (b :: ·) (List.map_id _)
  · next hne => exact absurd rfl (hne b method args)

theorem valueParts_children (e : Expr) : (valueParts e).map Site.expr = e.children := by
  cases e with
  | methodCall b method args => rw [valueParts_methodCall, children_methodCall]
  | _ => simp [valueParts, Expr.children, Expr.parts, unbound, valueSite, Function.comp_def]

/-- **No part is left out**: the sites a site consists of are its immediate
    subexpressions. -/
theorem siteParts_children (s : Site) : (siteParts s).map Site.expr = s.expr.children := by
  obtain ⟨use, e⟩ := s
  cases use with
  | chain =>
    simp only [siteParts]
    split
    · next hstage =>
      cases e with
      | methodCall b method args => rw [stageParts_methodCall, children_methodCall]
      | _ => simp [isChainStage] at hstage
    · exact valueParts_children e
  | value | iterator | stageClosure => exact valueParts_children e

theorem rank_sitePart_lt {s t : Site} (h : t ∈ siteParts s) : t.expr.rank < s.expr.rank := by
  apply rank_child_lt
  rw [← siteParts_children]
  exact List.mem_map_of_mem h

/-- `check_evm_compat_expr`. -/
def checkEvmCompatExpr (at_ : String) (deterministic : Bool) : Walker Site Diagnostic where
  own := checkSite at_ deterministic
  visited := visitedSites
  rank s := s.expr.rank
  rank_lt h := by
    unfold visitedSites at h
    split at h
    · exact absurd h List.not_mem_nil
    · exact rank_sitePart_lt h

/-! ### Rejected forms -/

/-- The gate rejects the form at this site. -/
def isRejected (deterministic : Bool) (s : Site) : Bool :=
  (checkSite "" deterministic s).any fun d => d.severity == .error

/-- `t` is `s` or a part of it at some depth. -/
def SubSite : Site → Site → Prop := ReflTransGen fun s t => t ∈ siteParts s

/-- A rejected form occurs in the expression. -/
def HasRejected (deterministic : Bool) (s : Site) : Prop :=
  ∃ t, SubSite s t ∧ isRejected deterministic t = true

/-- A rejected form occurs in an argument of a supported `std::` or `evm::` call. -/
def HasRejectedInCallArgs (deterministic : Bool) (s : Site) : Prop :=
  ∃ c a t, ReflTransGen (fun s t => t ∈ siteParts s ∧ t ∈ visitedSites s) s c ∧
    isUnvisitedCall c.expr = true ∧ a ∈ siteParts c ∧ SubSite a t ∧ isRejected deterministic t = true

theorem severity_checkValue (at_ at' : String) (det : Bool) (e : Expr) :
    (checkValue at_ det e).map Diagnostic.severity = (checkValue at' det e).map Diagnostic.severity := by
  cases e with
  | msgField f => simp only [checkValue, checkMsgField]; split_ifs <;> rfl
  | sysField f => simp only [checkValue, checkSysField]; split_ifs <;> rfl
  | forE p it b => simp only [checkValue]; split_ifs <;> rfl
  | enumVariantWithData en v args =>
    simp only [checkValue, checkVariantCall]; split_ifs <;> rfl
  | namespacedCall ns name args tys =>
    simp only [checkValue, checkNamespacedCall]; split_ifs <;> rfl
  | methodCall b method args =>
    simp only [checkValue, checkFold, checkMethod]
    split_ifs
    · rfl
    · rfl
    · split <;> rfl
  | addressOf ent args ws => simp only [checkValue]; split_ifs <;> rfl
  | _ => rfl

theorem severity_checkSite (at_ at' : String) (det : Bool) (s : Site) :
    (checkSite at_ det s).map Diagnostic.severity = (checkSite at' det s).map Diagnostic.severity := by
  obtain ⟨use, e⟩ := s
  cases use with
  | value => exact severity_checkValue at_ at' det e
  | chain =>
    simp only [checkSite]
    split
    · rfl
    · exact severity_checkValue at_ at' det e
  | iterator | stageClosure => rfl

/-- Only the text of a diagnostic depends on the route. -/
theorem noErrors_checkSite (at_ : String) (det : Bool) (s : Site) :
    NoErrors (checkSite at_ det s) ↔ isRejected det s = false := by
  have hsev := severity_checkSite at_ "" det s
  have hleft : NoErrors (checkSite at_ det s) ↔
      Severity.error ∉ (checkSite at_ det s).map Diagnostic.severity := by
    simp only [NoErrors, List.mem_map, not_exists, not_and, ne_eq]
  have hright : isRejected det s = false ↔
      Severity.error ∉ (checkSite "" det s).map Diagnostic.severity := by
    simp [isRejected]
  rw [hleft, hright, hsev]

/-- The gate reports no error exactly when no site it reaches is rejected. -/
theorem noErrors_walk_iff (at_ : String) (det : Bool) (s : Site) :
    NoErrors ((checkEvmCompatExpr at_ det).walk s) ↔
      ∀ t, (checkEvmCompatExpr at_ det).Reaches s t → isRejected det t = false := by
  constructor
  · intro h t ht
    refine (noErrors_checkSite at_ det t).mp fun d hd => h d ?_
    exact (checkEvmCompatExpr at_ det).mem_walk.mpr ⟨t, ht, hd⟩
  · intro h d hd
    obtain ⟨t, ht, hown⟩ := (checkEvmCompatExpr at_ det).mem_walk.mp hd
    exact (noErrors_checkSite at_ det t).mpr (h t ht) d hown

theorem mem_visitedSites {s t : Site} : t ∈ visitedSites s ↔
    t ∈ siteParts s ∧ isUnvisitedCall s.expr = false := by
  unfold visitedSites
  split
  · next h => simp [h]
  · next h => simp [h]

theorem HasRejectedInCallArgs.hasRejected {det : Bool} {s : Site}
    (h : HasRejectedInCallArgs det s) : HasRejected det s := by
  obtain ⟨c, a, t, hpre, -, ha, hpost, hrej⟩ := h
  have hc : SubSite s c := ReflTransGen.mono (fun _ _ hst => hst.1) _ _ hpre
  exact ⟨t, hc.trans (.head ha hpost), hrej⟩

/-- **The gate on one expression**: when it reports no error, a rejected form can
    only occur in the arguments of a supported call. -/
theorem hasRejected_iff {at_ : String} {det : Bool} {s : Site}
    (h : NoErrors ((checkEvmCompatExpr at_ det).walk s)) :
    HasRejected det s ↔ HasRejectedInCallArgs det s := by
  refine ⟨?_, HasRejectedInCallArgs.hasRejected⟩
  rintro ⟨t, hsub, hrej⟩
  rcases path_split (V := fun s t => t ∈ visitedSites s) hsub with hall | ⟨c, a, hpre, ha, hnv, hpost⟩
  · have hreach : (checkEvmCompatExpr at_ det).Reaches s t :=
      ReflTransGen.mono (fun _ _ hst => hst.2) _ _ hall
    have hok := (noErrors_walk_iff at_ det _).mp h t hreach
    rw [hok] at hrej
    exact absurd hrej Bool.false_ne_true
  · refine ⟨c, a, t, hpre, ?_, ha, hpost, hrej⟩
    by_contra hcall
    exact hnv (mem_visitedSites.mpr ⟨ha, by simpa using hcall⟩)

end CambrianLang.Validate
