/-
  **Type aliases are expanded before Solidity is generated**
  (`codegen/solidity/core/alias.rs`).

  Every declared type is rewritten through one map, in which the aliases of an entity or
  library hide those of the program.  Types inside expressions are left as they are.
-/
import CambrianLang.Ast.Tests
import CambrianLang.Lib.NameScopes
import CambrianLang.Validate.EvmRules

namespace CambrianLang.Solidity

open Ast Validate

/-! ### The pass -/

/-- A map from alias names; the last insertion comes first. -/
abbrev AliasMap := List (String × Ty)

/-- `alias_map`. -/
def aliasMapOver (outer : AliasMap) (aliases : List TypeAlias) : AliasMap :=
  (aliases.map fun ta => (ta.name, ta.ty)).reverse ++ outer

/-- `expand_depth`, with the levels left of the 65 it goes through. -/
def expandWithin (m : AliasMap) : Nat → Ty → Ty
  | 0, ty => ty
  | n + 1, .simple name =>
      match m.lookup name with
      | some target => expandWithin m n target
      | none => .simple name
  | n + 1, .generic name ps => .generic name (ps.map (expandWithin m n))
  | n + 1, .tuple es => .tuple (es.map (expandWithin m n))
  | _ + 1, .typedAddress e => .typedAddress e

def expandLevels : Nat := 65

/-- `expand`. -/
def expand (m : AliasMap) (ty : Ty) : Ty := expandWithin m expandLevels ty

def expandParams (m : AliasMap) (ps : List Param) : List Param :=
  ps.map fun p => { p with ty := expand m p.ty }

def expandPureFn (m : AliasMap) (f : PureFn) : PureFn :=
  { f with params := expandParams m f.params, returnType := expand m f.returnType }

def expandRecord (m : AliasMap) (r : Record) : Record :=
  { r with fields := r.fields.map fun f => { f with ty := expand m f.ty } }

def expandEnumDecl (m : AliasMap) (e : EnumDecl) : EnumDecl :=
  { e with variants := e.variants.map fun v => { v with fields := v.fields.map (expand m) } }

def expandEvent (m : AliasMap) (ev : EventDecl) : EventDecl :=
  { ev with params := ev.params.map fun p => { p with ty := expand m p.ty } }

def expandError (m : AliasMap) (er : ErrorDecl) : ErrorDecl :=
  { er with params := expandParams m er.params }

def expandAlias (m : AliasMap) (ta : TypeAlias) : TypeAlias := { ta with ty := expand m ta.ty }

def expandConst (m : AliasMap) (c : Const) : Const := { c with ty := expand m c.ty }

def expandStep (m : AliasMap) : TestStep → TestStep
  | .letS name ty value => .letS name (ty.map (expand m)) value
  | s => s

def expandExternRoute (m : AliasMap) (r : ExternRoute) : ExternRoute :=
  { r with params := expandParams m r.params, returnType := r.returnType.map (expand m) }

def expandExtern (m : AliasMap) (ext : ExternEntity) : ExternEntity :=
  { ext with routes := ext.routes.map (expandExternRoute m) }

def expandMacro (m : AliasMap) (mac : Macro) : Macro :=
  { mac with params := expandParams m mac.params, returnType := expand m mac.returnType }

def expandRoute (m : AliasMap) (r : Route) : Route :=
  { r with params := expandParams m r.params, returnType := r.returnType.map (expand m) }

def expandMember (m : AliasMap) (mem : Member) : Member := { mem with ty := expand m mem.ty }

def expandLibrary (progMap : AliasMap) (lib : LibraryDecl) : LibraryDecl :=
  let m := aliasMapOver progMap lib.typeAliases
  { lib with
    pureFns := lib.pureFns.map (expandPureFn m)
    constants := lib.constants.map (expandConst m)
    typeAliases := lib.typeAliases.map (expandAlias m) }

def expandEntity (progMap : AliasMap) (c : Contract) : Contract :=
  let m := aliasMapOver progMap c.typeAliases
  { c with
    records := c.records.map (expandRecord m)
    enums := c.enums.map (expandEnumDecl m)
    typeAliases := c.typeAliases.map (expandAlias m)
    constants := c.constants.map (expandConst m)
    macros := c.macros.map (expandMacro m)
    routes := c.routes.map (expandRoute m)
    members := c.members.map (expandMember m)
    events := c.events.map (expandEvent m)
    errors := c.errors.map (expandError m) }

def expandTest (m : AliasMap) (t : TestDecl) : TestDecl := { t with body := t.body.map (expandStep m) }

def expandFuzz (m : AliasMap) (f : FuzzDecl) : FuzzDecl :=
  { f with params := expandParams m f.params, body := f.body.map (expandStep m) }

def expandProperty (m : AliasMap) (pr : PropertyDecl) : PropertyDecl :=
  { pr with params := expandParams m pr.params, body := pr.body.map (expandStep m) }

def expandAction (m : AliasMap) (a : InvariantAction) : InvariantAction :=
  { a with params := expandParams m a.params, body := a.body.map (expandStep m) }

def expandQuery (m : AliasMap) (q : InvariantQuery) : InvariantQuery :=
  { q with
    params := expandParams m q.params
    returnType := expand m q.returnType
    body := q.body.map (expandStep m) }

def expandInvariant (m : AliasMap) (inv : InvariantDecl) : InvariantDecl :=
  { inv with actions := inv.actions.map (expandAction m), derived := inv.derived.map (expandQuery m) }

def hasAliases (p : Source) : Bool :=
  !p.typeAliases.isEmpty || p.entities.any (fun e => !e.typeAliases.isEmpty) ||
    p.libraries.any fun l => !l.typeAliases.isEmpty

def progMap (p : Source) : AliasMap := aliasMapOver [] p.typeAliases

/-- `expand_type_aliases`. -/
def expandTypeAliases (p : Source) : Source :=
  if hasAliases p then
    let m := progMap p
    { pureFns := p.pureFns.map (expandPureFn m)
      typeAliases := p.typeAliases.map (expandAlias m)
      records := p.records.map (expandRecord m)
      enums := p.enums.map (expandEnumDecl m)
      entities := p.entities.map (expandEntity m)
      externEntities := p.externEntities.map (expandExtern m)
      tests := p.tests.map (expandTest m)
      properties := p.properties.map (expandProperty m)
      fuzzTests := p.fuzzTests.map (expandFuzz m)
      invariants := p.invariants.map (expandInvariant m)
      events := p.events.map (expandEvent m)
      errors := p.errors.map (expandError m)
      libraries := p.libraries.map (expandLibrary m)
      usingDecls := p.usingDecls.map fun ud => { ud with targetType := expand m ud.targetType } }
  else p

/-! ### The types of a program -/

def paramTypes (ps : List Param) : List Ty := ps.map (·.ty)

def pureFnTypes (f : PureFn) : List Ty := paramTypes f.params ++ [f.returnType]

def recordTypes (r : Record) : List Ty := r.fields.map (·.ty)

def enumTypes (e : EnumDecl) : List Ty := e.variants.flatMap (·.fields)

def eventTypes (ev : EventDecl) : List Ty := ev.params.map (·.ty)

def externTypes (ext : ExternEntity) : List Ty :=
  ext.routes.flatMap fun r => paramTypes r.params ++ r.returnType.toList

def stepTypes : TestStep → List Ty
  | .letS _ ty _ => ty.toList
  | _ => []

def macroTypes (mac : Macro) : List Ty := paramTypes mac.params ++ [mac.returnType]

def routeTypes (r : Route) : List Ty := paramTypes r.params ++ r.returnType.toList

def actionTypes (a : InvariantAction) : List Ty := paramTypes a.params ++ a.body.flatMap stepTypes

def queryTypes (q : InvariantQuery) : List Ty :=
  paramTypes q.params ++ q.returnType :: q.body.flatMap stepTypes

def invariantTypes (inv : InvariantDecl) : List Ty :=
  inv.actions.flatMap actionTypes ++ inv.derived.flatMap queryTypes

/-- The types an entity declares. -/
def entityTypes (c : Contract) : List Ty :=
  c.typeAliases.map (·.ty) ++ c.records.flatMap recordTypes ++ c.enums.flatMap enumTypes ++
    c.constants.map (·.ty) ++ c.macros.flatMap macroTypes ++ c.routes.flatMap routeTypes ++
    c.members.map (·.ty) ++ c.events.flatMap eventTypes ++ c.errors.flatMap fun er => paramTypes er.params

/-- The types a library declares. -/
def libraryTypes (lib : LibraryDecl) : List Ty :=
  lib.typeAliases.map (·.ty) ++ lib.pureFns.flatMap pureFnTypes ++ lib.constants.map (·.ty)

/-- The types declared outside entities and libraries. -/
def programTypes (p : Source) : List Ty :=
  p.typeAliases.map (·.ty) ++ p.pureFns.flatMap pureFnTypes ++ p.records.flatMap recordTypes ++
    p.enums.flatMap enumTypes ++ p.externEntities.flatMap externTypes ++
    p.events.flatMap eventTypes ++ (p.errors.flatMap fun er => paramTypes er.params) ++
    p.usingDecls.map (·.targetType) ++ (p.tests.flatMap fun t => t.body.flatMap stepTypes) ++
    (p.properties.flatMap fun pr => paramTypes pr.params ++ pr.body.flatMap stepTypes) ++
    (p.fuzzTests.flatMap fun f => paramTypes f.params ++ f.body.flatMap stepTypes) ++
    p.invariants.flatMap invariantTypes

/-- The types a node of an expression carries. -/
def carriedByNode : Expr → List Ty
  | .cast _ ty => [ty]
  | .namespacedCall _ _ _ typeParams => typeParams
  | .encode targetType _ => [targetType]
  | _ => []

/-- The types inside an expression. -/
def carriedTypes (e : Expr) : List Ty := (walkExprSubtree.walk e).flatMap carriedByNode

def clauseExprs (w : WhereClause) : List Expr := w.condition :: w.errorArgs

def fromExprs (c : FromClause) : List Expr := c.args ++ c.withParams.toList ++ c.errorArgs

def bodyExprs (body : RouteBody) : List Expr :=
  (body.phaseBlocks.flatMap fun ph => ph.whereClauses.flatMap clauseExprs) ++
    (body.allActions.flatMap walkActionSubtree.walk).flatMap RouteAction.exprs

def routeExprs (r : Route) : List Expr :=
  r.fromClauses.flatMap fromExprs ++ r.whereClauses.flatMap clauseExprs ++ bodyExprs r.body

def memberExprs (m : Member) : List Expr := m.defaultValue.toList ++ m.transforms.map (·.body)

def entityExprs (c : Contract) : List Expr :=
  c.constants.map (·.value) ++ c.macros.map (·.body) ++ c.routes.flatMap routeExprs ++
    c.members.flatMap memberExprs

def libraryExprs (lib : LibraryDecl) : List Expr :=
  lib.pureFns.map (·.body) ++ lib.constants.map (·.value)

def invariantExprs (inv : InvariantDecl) : List Expr :=
  (inv.instances.flatMap fun i => i.init.map Prod.snd) ++ inv.senders ++ inv.deploy ++
    (inv.actions.flatMap fun a => a.body.flatMap TestStep.exprs) ++ inv.checks ++
    inv.track.map Prod.snd ++
    (inv.derived.flatMap fun q => q.body.flatMap TestStep.exprs ++ [q.returnValue]) ++
    inv.excludeSenders

def programExprs (p : Source) : List Expr :=
  p.pureFns.map (·.body) ++
    (p.tests.flatMap fun t => t.initState.map Prod.snd ++ t.body.flatMap TestStep.exprs) ++
    (p.properties.flatMap fun pr => pr.initState.map Prod.snd ++ pr.body.flatMap TestStep.exprs) ++
    (p.fuzzTests.flatMap fun f => f.initState.map Prod.snd ++ f.body.flatMap TestStep.exprs) ++
    p.invariants.flatMap invariantExprs

/-! ### What the pass does to them -/

section Types

variable (m : AliasMap)

theorem paramTypes_expandParams (ps : List Param) :
    paramTypes (expandParams m ps) = (paramTypes ps).map (expand m) := by
  simp [paramTypes, expandParams, Function.comp_def]

theorem pureFnTypes_expand (f : PureFn) :
    pureFnTypes (expandPureFn m f) = (pureFnTypes f).map (expand m) := by
  simp [pureFnTypes, expandPureFn, paramTypes_expandParams]

theorem recordTypes_expand (r : Record) :
    recordTypes (expandRecord m r) = (recordTypes r).map (expand m) := by
  simp [recordTypes, expandRecord, Function.comp_def]

theorem enumTypes_expand (e : EnumDecl) :
    enumTypes (expandEnumDecl m e) = (enumTypes e).map (expand m) := by
  simp [enumTypes, expandEnumDecl, List.flatMap_map, List.map_flatMap]

theorem eventTypes_expand (ev : EventDecl) :
    eventTypes (expandEvent m ev) = (eventTypes ev).map (expand m) := by
  simp [eventTypes, expandEvent, Function.comp_def]

theorem externTypes_expand (ext : ExternEntity) :
    externTypes (expandExtern m ext) = (externTypes ext).map (expand m) := by
  simp only [externTypes, expandExtern, List.flatMap_map, List.map_flatMap]
  refine List.flatMap_congr fun r _ => ?_
  cases hr : r.returnType <;> simp [expandExternRoute, paramTypes_expandParams, hr]

theorem stepTypes_expand (s : TestStep) :
    stepTypes (expandStep m s) = (stepTypes s).map (expand m) := by
  cases s with
  | letS name ty value => cases ty <;> rfl
  | _ => rfl

theorem stepTypes_expandAll (steps : List TestStep) :
    (steps.map (expandStep m)).flatMap stepTypes = (steps.flatMap stepTypes).map (expand m) := by
  simp only [List.flatMap_map, List.map_flatMap, stepTypes_expand]

theorem macroTypes_expand (mac : Macro) :
    macroTypes (expandMacro m mac) = (macroTypes mac).map (expand m) := by
  simp [macroTypes, expandMacro, paramTypes_expandParams]

theorem routeTypes_expand (r : Route) :
    routeTypes (expandRoute m r) = (routeTypes r).map (expand m) := by
  cases hr : r.returnType <;> simp [routeTypes, expandRoute, paramTypes_expandParams, hr]

theorem invariantTypes_expand (inv : InvariantDecl) :
    invariantTypes (expandInvariant m inv) = (invariantTypes inv).map (expand m) := by
  have hactions : (inv.actions.map (expandAction m)).flatMap actionTypes =
      (inv.actions.flatMap actionTypes).map (expand m) := by
    simp only [List.flatMap_map, List.map_flatMap]
    refine List.flatMap_congr fun a _ => ?_
    simp only [actionTypes, expandAction, paramTypes_expandParams, stepTypes_expandAll,
      List.map_append]
  have hderived : (inv.derived.map (expandQuery m)).flatMap queryTypes =
      (inv.derived.flatMap queryTypes).map (expand m) := by
    simp only [List.flatMap_map, List.map_flatMap]
    refine List.flatMap_congr fun q _ => ?_
    simp only [queryTypes, expandQuery, paramTypes_expandParams, stepTypes_expandAll,
      List.map_append, List.map_cons]
  simp only [invariantTypes, expandInvariant, hactions, hderived, List.map_append]

end Types

theorem entityTypes_expand (pm : AliasMap) (c : Contract) :
    entityTypes (expandEntity pm c) =
      (entityTypes c).map (expand (aliasMapOver pm c.typeAliases)) := by
  simp only [entityTypes, expandEntity, List.map_append, List.map_map, List.map_flatMap,
    List.flatMap_map, recordTypes_expand, enumTypes_expand, macroTypes_expand, routeTypes_expand,
    eventTypes_expand, expandError, paramTypes_expandParams]
  rfl

theorem libraryTypes_expand (pm : AliasMap) (lib : LibraryDecl) :
    libraryTypes (expandLibrary pm lib) =
      (libraryTypes lib).map (expand (aliasMapOver pm lib.typeAliases)) := by
  simp only [libraryTypes, expandLibrary, List.map_append, List.map_map, List.map_flatMap,
    List.flatMap_map, pureFnTypes_expand]
  rfl

theorem entityExprs_expand (pm : AliasMap) (c : Contract) :
    entityExprs (expandEntity pm c) = entityExprs c := by
  simp only [entityExprs, expandEntity, List.map_map, List.flatMap_map]
  rfl

theorem libraryExprs_expand (pm : AliasMap) (lib : LibraryDecl) :
    libraryExprs (expandLibrary pm lib) = libraryExprs lib := by
  simp only [libraryExprs, expandLibrary, List.map_map]
  rfl

end CambrianLang.Solidity
