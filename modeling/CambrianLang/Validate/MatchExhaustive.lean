/-
  **Exhaustive matches** (V66, `validate/entity.rs`).

  The check looks at the outermost constructors of the arms, and only at matches in
  actions, transforms and the pure functions of the program.  It does not look into
  the payload patterns of an arm, nor at clauses, macros, defaults, constants and
  library functions.
-/
import CambrianLang.Semantics.Effects
import CambrianLang.Semantics.Matching
import CambrianLang.Validate.EvmRules

namespace CambrianLang.Validate

open Ast Semantics Traversal
open Relation

/-! ### Missing cases -/

abbrev Arms := List (MatchPattern × Expr)

def isCatchAll : MatchPattern → Bool
  | .wildcard | .ident _ => true
  | _ => false

/-- What the loop of `match_missing_cases` has seen. -/
structure Seen where
  enumName : Option String
  covered : List String
  hasSome : Bool
  hasNone : Bool
  hasTrue : Bool
  hasFalse : Bool
  hasInt : Bool

def Seen.add (s : Seen) : MatchPattern → Seen
  | .enumVariant en var | .enumVariantWithData en var _ =>
      { s with enumName := some en, covered := var :: s.covered }
  | .some _ => { s with hasSome := true }
  | .none => { s with hasNone := true }
  | .boolLiteral true => { s with hasTrue := true }
  | .boolLiteral false => { s with hasFalse := true }
  | .intLiteral _ => { s with hasInt := true }
  | .wildcard | .ident _ => s

def seen (arms : Arms) : Seen :=
  arms.foldl (fun s a => s.add a.1) ⟨none, [], false, false, false, false, false⟩

def missingVariants (en : String) (decl : EnumDecl) (covered : List String) : List String :=
  (decl.variants.filter fun v => !covered.contains v.name).map fun v =>
    "`" ++ en ++ "::" ++ v.name ++ "`"

/-- `match_missing_cases`. -/
def matchMissingCases (arms : Arms) (enums : List EnumDecl) : Option String :=
  if arms.any fun a => isCatchAll a.1 then none
  else
    let s := seen arms
    match s.enumName with
    | some en =>
        match enums.find? (·.name == en) with
        | none => none
        | some decl =>
            let missing := missingVariants en decl s.covered
            if missing.isEmpty then none else some (", ".intercalate missing)
    | none =>
        if s.hasSome || s.hasNone then
          match s.hasSome, s.hasNone with
          | true, false => some "`none`"
          | false, true => some "`some(_)`"
          | _, _ => none
        else if s.hasTrue || s.hasFalse then
          match s.hasTrue, s.hasFalse with
          | true, false => some "`false`"
          | false, true => some "`true`"
          | _, _ => none
        else if s.hasInt then some "a catch-all arm for the remaining integer values"
        else none

mutual
/-- `irrefutable`. -/
def irrefutable : Pattern → Bool
  | .ident _ | .wildcard => true
  | .tuple ps => allIrrefutable ps
  | .deref p => irrefutable p
  | .some _ | .none => false
def allIrrefutable : List Pattern → Bool
  | [] => true
  | p :: ps => irrefutable p && allIrrefutable ps
end

/-- The scrutinee's cases are known and finitely many, by its first arm. -/
def startsFinite (enums : List EnumDecl) : MatchPattern → Bool
  | .enumVariant en _ | .enumVariantWithData en _ _ => enums.any (·.name == en)
  | .some _ | .none | .boolLiteral _ => true
  | _ => false

def refutablePayload : MatchPattern → Bool
  | .some inner => !irrefutable inner
  | .enumVariantWithData _ _ binds => !allIrrefutable binds
  | _ => false

/-- `arms_cover_all`. -/
def armsCoverAll (arms : Arms) (enums : List EnumDecl) : Bool :=
  match arms with
  | [] => false
  | first :: _ =>
      startsFinite enums first.1 && !(arms.any fun a => refutablePayload a.1) &&
        (matchMissingCases arms enums).isNone

/-! ### Last arms in Solidity -/

/-- `lookup_enum` of the EVM context, whose map takes the declarations of the program and
    then those of all entities; the last one of a name stays. -/
def lookupEnum (program : Program) (name : String) : Option EnumDecl :=
  (program.enums ++ program.entities.flatMap (·.enums)).reverse.find? (·.name == name)

/-- The loop of `match_patterns_exhaustive`: the enum that all arms name, and the
    variants they name. -/
def namedVariants : Arms → Option String → List String → Option (Option String × List String)
  | [], enumName, variants => some (enumName, variants)
  | (.enumVariant en vn, _) :: arms, enumName, variants
  | (.enumVariantWithData en vn _, _) :: arms, enumName, variants =>
      if enumName.any (· != en) then none else namedVariants arms (some en) (vn :: variants)
  | _ :: _, _, _ => none

/-- `match_patterns_exhaustive`: where it holds, `gen_match_simple` makes the last arm the
    unconditional `else`. -/
def matchPatternsExhaustive (program : Program) (arms : Arms) : Bool :=
  let has (f : MatchPattern → Bool) := arms.any fun a => f a.1
  has isCatchAll ||
  (has (fun | .none => true | _ => false) &&
    has fun | .some (.ident _) | .some .wildcard => true | _ => false) ||
  (has (fun | .boolLiteral b => b | _ => false) &&
    has fun | .boolLiteral b => !b | _ => false) ||
  match namedVariants arms none [] with
  | some (some en, variants) =>
      (lookupEnum program en).any fun decl => decl.variants.all fun v => variants.contains v.name
  | _ => false

/-! ### The check -/

/-- Where a diagnostic places the match. -/
def matchPlace (owner : String) : Option String → String
  | some r => "route '" ++ r ++ "' of entity '" ++ owner ++ "'"
  | none => "pure fn '" ++ owner ++ "'"

/-- `push_v47` for a catch-all after arms that cover every case. -/
def deadCatchAll (arms : Arms) (enums : List EnumDecl) (place : String) : List Diagnostic :=
  match arms.findIdx? fun a => isCatchAll a.1 with
  | some i =>
      if armsCoverAll (arms.take i) enums then
        [.warning "V47" ("unreachable catch-all arm: the arms before it already cover every case in " ++
          place)]
      else []
  | none => []

def missingArms (arms : Arms) (enums : List EnumDecl) (place : String) : List Diagnostic :=
  match matchMissingCases arms enums with
  | some missing =>
      [.error "V66" ("non-exhaustive match in " ++ place ++ ": missing " ++ missing ++
        ". Add the missing arms or a `_` arm.")]
  | none => []

/-- `check_match_exhaustive_expr`, which visits every subexpression. -/
def matchWalker (enums : List EnumDecl) (place : String) : Walker Expr Diagnostic where
  own
    | .matchE _ arms => deadCatchAll arms enums place ++ missingArms arms enums place
    | _ => []
  visited := Expr.children
  rank := Expr.rank
  rank_lt := rank_child_lt

/-- The expressions `walk_action_exprs` visits at an action itself. -/
def visitedExprs : RouteAction → List Expr
  | .deploy _ opts args => args ++ opts.toList
  | a => a.exprs

/-- `walk_action_exprs`. -/
def walkActionExprs (a : RouteAction) : List Expr := (walkActionSubtree.walk a).flatMap visitedExprs

/-- `check_match_exhaustive_entity`. -/
def checkMatchExhaustiveEntity (program : Program) (entity : Entity) : List Diagnostic :=
  let check (route : String) :=
    (matchWalker (enumsInScope program (some entity)) (matchPlace entity.name (some route))).walk
  (entity.routes.flatMap fun route =>
    (route.body.allActions.flatMap walkActionExprs).flatMap (check route.name)) ++
  entity.members.flatMap fun member => member.transforms.flatMap fun t => check t.routeName t.body

/-- `check_match_exhaustive_pure_fn`. -/
def checkMatchExhaustivePureFn (program : Program) (f : PureFn) : List Diagnostic :=
  (matchWalker (enumsInScope program none) (matchPlace f.name none)).walk f.body

/-- V66, with the V47 warnings it gives. -/
def checkMatchExhaustive (program : Program) : List Diagnostic :=
  program.entities.flatMap (checkMatchExhaustiveEntity program) ++
  program.pureFns.flatMap (checkMatchExhaustivePureFn program)

/-- The program is accepted without a V66 error. -/
def V66Clean (program : Program) : Prop := ∀ d ∈ checkMatchExhaustive program, d.code ≠ "V66"

instance (program : Program) : Decidable (V66Clean program) :=
  inferInstanceAs (Decidable (∀ d ∈ checkMatchExhaustive program, d.code ≠ "V66"))

end CambrianLang.Validate
