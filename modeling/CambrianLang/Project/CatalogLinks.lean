/-
  **`#[instantiates]` links** (`catalog_stem.rs`, `validate/catalog_links.rs`): how the
  stem of a link is resolved, and what is checked of the links before the merge.
-/
import CambrianLang.Ast.Authored
import CambrianLang.Lib.UniqueMatch
import CambrianLang.Validate.Diagnostic

namespace CambrianLang.Authored

open Ast UniqueMatch
open Validate (Diagnostic NoErrors noErrors_append noErrors_flatMap)

/-! ### Resolving a stem -/

/-- `char::is_whitespace`. -/
def isWhitespace (c : Char) : Bool :=
  let n := c.toNat
  (9 ≤ n && n ≤ 13) || n == 32 || n == 0x85 || n == 0xA0 || n == 0x1680 ||
    (0x2000 ≤ n && n ≤ 0x200A) || n == 0x2028 || n == 0x2029 || n == 0x202F || n == 0x205F ||
    n == 0x3000

/-- `str::trim`. -/
def trim (s : String) : String :=
  String.ofList (((s.toList.dropWhile isWhitespace).reverse.dropWhile isWhitespace).reverse)

/-- `stem_matches`: the name is the stem, or the stem followed by a space or an
    underscore. -/
def stemMatches (declName stem : String) : Bool :=
  declName == stem ||
    (stem.toList.isPrefixOf declName.toList &&
      match (declName.toList.drop stem.toList.length).head? with
      | some c => c == ' ' || c == '_'
      | none => false)

inductive CatalogDeclRef where
  | property (i : Nat)
  | invariant (i : Nat)
deriving DecidableEq

inductive StemResolveError where
  | empty
  | notFound
  | ambiguous
  | ambiguousCrossKind
deriving DecidableEq

/-- A property that a stem of the entity names. -/
def propertyMatches (entity stem : String) (prop : PropertyDecl) : Bool :=
  prop.entityName == entity && stemMatches prop.name stem

/-- An invariant that a stem of the entity names. -/
def invariantMatches (entity stem : String) (inv : InvariantDecl) : Bool :=
  inv.isSingleEntity && inv.entityName == some entity && stemMatches inv.name stem

/-- `resolve_catalog_stem`. -/
def resolveCatalogStem (p : Program) (entity stem : String) :
    Except StemResolveError CatalogDeclRef :=
  let stem := trim stem
  if stem.isEmpty then .error .empty
  else
    let props := indices (propertyMatches entity stem) p.properties
    let invs := indices (invariantMatches entity stem) p.invariants
    if !props.isEmpty && !invs.isEmpty then .error .ambiguousCrossKind
    else
      match props.map CatalogDeclRef.property ++ invs.map CatalogDeclRef.invariant with
      | [] => .error .notFound
      | [ref] => .ok ref
      | _ => .error .ambiguous

/-! ### The check -/

inductive LinkTargetKind where
  | property
  | invariant
deriving DecidableEq

/-- `kind_mismatch`. -/
def kindMismatch (label stem want got : String) : Diagnostic :=
  .error "T33" (label ++ ": #[instantiates(\"" ++ stem ++ "\")] must reference a catalog " ++ want ++
    ", not a " ++ got)

/-- `push_stem_error`. -/
def stemError (label stem : String) : StemResolveError → Diagnostic
  | .empty => .error "T25" (label ++ ": #[instantiates] requires a non-empty catalog stem")
  | .notFound =>
    .error "T29" (label ++ ": catalog stem \"" ++ stem ++ "\" not found for this entity")
  | .ambiguous | .ambiguousCrossKind =>
    .error "T26" (label ++ ": catalog stem \"" ++ stem ++ "\" is ambiguous (multiple declarations " ++
      "match; if this is a supplemental overlay, add #[instantiates(\"" ++ stem ++ "\")])")

/-- `check_stem`. -/
def checkStem (p : Program) (entity stem : String) (expected : LinkTargetKind) (label : String) :
    List Diagnostic :=
  match resolveCatalogStem p entity stem, expected with
  | .ok (.property _), .invariant => [kindMismatch label stem "invariant" "property"]
  | .ok (.invariant _), .property => [kindMismatch label stem "property" "invariant"]
  | .ok _, _ => []
  | .error e, _ => [stemError label stem e]

def testLabel (test : TestDecl) : String := "test \"" ++ test.name ++ "\""

def propertyLabel (prop : PropertyDecl) : String := "property \"" ++ prop.name ++ "\""

def invariantLabel (inv : InvariantDecl) : String := "invariant \"" ++ inv.name ++ "\""

/-- `check_property_link`. -/
def checkPropertyLink (p : Program) (prop : PropertyDecl) (stem : String) : List Diagnostic :=
  match resolveCatalogStem p prop.entityName stem with
  | .ok (.property i) =>
    match p.properties[i]? with
    | some catalog =>
      if prop.params ≠ catalog.params then
        [.error "T28" (propertyLabel prop ++ ": parameter list must match catalog property \"" ++
          catalog.name ++ "\"")]
      else []
    | none => []
  | .ok (.invariant _) => [kindMismatch (propertyLabel prop) stem "property" "invariant"]
  | .error e => [stemError (propertyLabel prop) stem e]

/-- The check of the link of an invariant. -/
def checkInvariantLink (p : Program) (inv : InvariantDecl) (stem : String) : List Diagnostic :=
  match inv.isSingleEntity, inv.entityName with
  | true, some entity => checkStem p entity stem .invariant (invariantLabel inv)
  | _, _ =>
    [.error "T32" (invariantLabel inv ++
      ": #[instantiates] is not supported on multi-entity invariants")]

/-- What a check reports of a declaration that has a link. -/
def ofLink (instantiates : Option String) (check : String → List Diagnostic) : List Diagnostic :=
  match instantiates with
  | some stem => check stem
  | none => []

/-- `check_catalog_links`. -/
def checkCatalogLinks (p : Program) : List Diagnostic :=
  (p.tests.flatMap fun test => ofLink test.instantiates fun stem =>
      checkStem p test.entityName stem .property (testLabel test)) ++
    (p.properties.flatMap fun prop => ofLink prop.instantiates (checkPropertyLink p prop)) ++
    p.invariants.flatMap fun inv => ofLink inv.instantiates (checkInvariantLink p inv)

/-- `is_linked_test_harness_pin`. -/
def isHarnessPin : TestStep → Bool
  | .setContext .. | .setRegistry .. | .letS .. => true
  | _ => false

/-- `t37_divergence`. -/
def t37Divergence (label detail : String) : Diagnostic :=
  .error "T37" (label ++ ": #[instantiates] cannot change catalog verification goal — " ++ detail)

/-- `property_delta_overrides_goal`. -/
def propertyDeltaOverridesGoal (p : Program) (prop : PropertyDecl) (stem : String) : Bool :=
  match resolveCatalogStem p prop.entityName stem with
  | .ok (.property _) =>
    prop.body.any fun
      | .assume _ | .bound .. => false
      | _ => true
  | _ => false

/-- `check_instantiates_goal_divergence`. -/
def checkInstantiatesGoalDivergence (p : Program) : List Diagnostic :=
  (p.tests.flatMap fun test => ofLink test.instantiates fun _ =>
      if test.body.any fun step => !isHarnessPin step then
        [t37Divergence (testLabel test) ("linked test may set harness pins (`with \x7b ... \x7d`, " ++
          "`msg \x7b ... \x7d` / `sys \x7b ... \x7d` in body) only — use catalog steps/expects or " ++
          "a standalone test")]
      else []) ++
    p.properties.flatMap fun prop => ofLink prop.instantiates fun stem =>
      if propertyDeltaOverridesGoal p prop stem then
        [t37Divergence (propertyLabel prop)
          "linked property may add assume/bound deltas only — not call/expect overrides"]
      else []

/-- `property_link_is_noop`. -/
def propertyLinkIsNoop (prop : PropertyDecl) : Bool :=
  prop.body.isEmpty && prop.initState.isEmpty && prop.forallState.isEmpty && prop.context.isEmpty &&
    prop.tag.isNone

/-- `invariant_link_is_noop`. -/
def invariantLinkIsNoop (inv : InvariantDecl) : Bool :=
  let inst := inv.instances.head?
  (inst.map fun i => i.init.isEmpty).getD true && (inst.map fun i => i.forallState.isEmpty).getD true &&
    inv.senders.isEmpty && inv.context.isEmpty && inv.actions.isEmpty && inv.checks.isEmpty &&
    inv.track.isEmpty && inv.derived.isEmpty && inv.excludeSenders.isEmpty &&
    inv.excludeSelectors.isEmpty && !inv.skipFrom && !inv.failOnRevert && !inv.withTime &&
    inv.runs.isNone && inv.depth.isNone && inv.tag.isNone

/-- `is_invariant_fanout_overlay`. -/
def isInvariantFanoutOverlay (p : Program) (inv : InvariantDecl) (stem : String) : Bool :=
  match inv.entityName with
  | some entity =>
    match resolveCatalogStem p entity stem with
    | .ok (.invariant i) => (p.invariants[i]?.map (·.name)) != some inv.name
    | _ => false
  | none => false

/-- `check_noop_instantiates`. -/
def checkNoopInstantiates (p : Program) : List Diagnostic :=
  (p.properties.flatMap fun prop => ofLink prop.instantiates fun stem =>
      if propertyLinkIsNoop prop then
        [.warning "W12" (propertyLabel prop ++ ": #[instantiates(\"" ++ stem ++
          "\")] adds no delta (empty body; add assume/steps or init/context overrides)")]
      else []) ++
    p.invariants.flatMap fun inv => ofLink inv.instantiates fun stem =>
      if inv.isSingleEntity && !isInvariantFanoutOverlay p inv stem && invariantLinkIsNoop inv then
        [.warning "W12" (invariantLabel inv ++ ": #[instantiates(\"" ++ stem ++
          "\")] adds no delta (empty init/actions/checks)")]
      else []

/-- `catalog_pre_merge_check`. -/
def catalogPreMergeCheck (p : Program) : List Diagnostic :=
  checkCatalogLinks p ++ checkInstantiatesGoalDivergence p ++ checkNoopInstantiates p

/-! ### What the check establishes -/

variable {p : Program} {entity stem : String} {i : Nat}

/-- A stem resolves to a property when that is all it matches. -/
theorem resolve_property_iff :
    resolveCatalogStem p entity stem = .ok (.property i) ↔
      (trim stem).isEmpty = false ∧
      indices (propertyMatches entity (trim stem)) p.properties = [i] ∧
      indices (invariantMatches entity (trim stem)) p.invariants = [] := by
  rw [resolveCatalogStem]
  cases (trim stem).isEmpty with
  | true => simp
  | false =>
    generalize indices (propertyMatches entity (trim stem)) p.properties = props
    generalize indices (invariantMatches entity (trim stem)) p.invariants = invs
    rcases props with _ | ⟨a, _ | ⟨b, props⟩⟩ <;> rcases invs with _ | ⟨c, _ | ⟨d, invs⟩⟩ <;> simp

/-- A stem resolves to an invariant when that is all it matches. -/
theorem resolve_invariant_iff :
    resolveCatalogStem p entity stem = .ok (.invariant i) ↔
      (trim stem).isEmpty = false ∧
      indices (propertyMatches entity (trim stem)) p.properties = [] ∧
      indices (invariantMatches entity (trim stem)) p.invariants = [i] := by
  rw [resolveCatalogStem]
  cases (trim stem).isEmpty with
  | true => simp
  | false =>
    generalize indices (propertyMatches entity (trim stem)) p.properties = props
    generalize indices (invariantMatches entity (trim stem)) p.invariants = invs
    rcases props with _ | ⟨a, _ | ⟨b, props⟩⟩ <;> rcases invs with _ | ⟨c, _ | ⟨d, invs⟩⟩ <;> simp

/-- Every link of the program resolves to a declaration of the kind it needs. -/
structure LinksResolve (p : Program) : Prop where
  tests : ∀ test ∈ p.tests, ∀ stem, test.instantiates = some stem →
    ∃ i, resolveCatalogStem p test.entityName stem = .ok (.property i)
  properties : ∀ prop ∈ p.properties, ∀ stem, prop.instantiates = some stem →
    ∃ i, resolveCatalogStem p prop.entityName stem = .ok (.property i)
  invariants : ∀ inv ∈ p.invariants, ∀ stem, inv.instantiates = some stem →
    inv.isSingleEntity = true ∧ ∃ entity, inv.entityName = some entity ∧
      ∃ i, resolveCatalogStem p entity stem = .ok (.invariant i)

theorem not_noErrors_error {d : Diagnostic} (hd : d.severity = .error) : ¬ NoErrors [d] :=
  fun h => h d List.mem_cons_self hd

theorem severity_kindMismatch (label stem want got : String) :
    (kindMismatch label stem want got).severity = .error := rfl

theorem severity_stemError (label stem : String) (e : StemResolveError) :
    (stemError label stem e).severity = .error := by
  cases e <;> rfl

theorem resolves_of_checkStem {expected : LinkTargetKind} {label : String}
    (h : NoErrors (checkStem p entity stem expected label)) :
    ∃ i, resolveCatalogStem p entity stem =
      .ok (match expected with | .property => .property i | .invariant => .invariant i) := by
  unfold checkStem at h
  cases hres : resolveCatalogStem p entity stem with
  | error e =>
    rw [hres] at h
    exact absurd h (not_noErrors_error (severity_stemError label stem e))
  | ok ref =>
    rw [hres] at h
    cases ref with
    | property i =>
      cases expected with
      | property => exact ⟨i, rfl⟩
      | invariant => exact absurd h (not_noErrors_error (severity_kindMismatch label stem _ _))
    | invariant i =>
      cases expected with
      | property => exact absurd h (not_noErrors_error (severity_kindMismatch label stem _ _))
      | invariant => exact ⟨i, rfl⟩

theorem resolves_of_checkPropertyLink {prop : PropertyDecl}
    (h : NoErrors (checkPropertyLink p prop stem)) :
    ∃ i, resolveCatalogStem p prop.entityName stem = .ok (.property i) := by
  rw [checkPropertyLink] at h
  cases hres : resolveCatalogStem p prop.entityName stem with
  | error e =>
    rw [hres] at h
    exact absurd h (not_noErrors_error (severity_stemError (propertyLabel prop) stem e))
  | ok ref =>
    cases ref with
    | property i => exact ⟨i, rfl⟩
    | invariant i =>
      rw [hres] at h
      exact absurd h (not_noErrors_error (severity_kindMismatch (propertyLabel prop) stem _ _))

theorem resolves_of_checkInvariantLink {inv : InvariantDecl}
    (h : NoErrors (checkInvariantLink p inv stem)) :
    inv.isSingleEntity = true ∧ ∃ entity, inv.entityName = some entity ∧
      ∃ i, resolveCatalogStem p entity stem = .ok (.invariant i) := by
  simp only [checkInvariantLink] at h
  split at h
  · rename_i entity hsingle hentity
    exact ⟨hsingle, entity, hentity, resolves_of_checkStem h⟩
  · exact absurd h (not_noErrors_error rfl)

/-- **A program that passes the check has links that resolve.** -/
theorem linksResolve_of_check (h : NoErrors (catalogPreMergeCheck p)) : LinksResolve p := by
  simp only [catalogPreMergeCheck, checkCatalogLinks, noErrors_append, noErrors_flatMap] at h
  obtain ⟨⟨⟨⟨htests, hprops⟩, hinvs⟩, -⟩, -⟩ := h
  constructor
  · intro test htest stem hstem
    have hcheck := htests test htest
    simp only [hstem, ofLink] at hcheck
    exact resolves_of_checkStem hcheck
  · intro prop hprop stem hstem
    have hcheck := hprops prop hprop
    simp only [hstem, ofLink] at hcheck
    exact resolves_of_checkPropertyLink hcheck
  · intro inv hinv stem hstem
    have hcheck := hinvs inv hinv
    simp only [hstem, ofLink] at hcheck
    exact resolves_of_checkInvariantLink hcheck

end CambrianLang.Authored
