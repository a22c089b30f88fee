/-
  **Names replaced by expressions while emitting Solidity** (`subst_expr_where`,
  `subst_ident_in_expr` and `subst_hashmap_let_in_expr` in
  `codegen/solidity/core/types.rs`).

  Both walks stop below a `let` or a `for` that binds the name, and neither takes a
  match arm for a binder.  Below a closure that binds it the first stops, and the
  second goes on to the places where only a mapping can stand.
-/
import CambrianLang.Ast.Slots

namespace CambrianLang.Solidity

open Ast

/-! ### The walks of the source -/

/-- `shadows` in `subst_expr_where`. -/
def shadows (pick : Expr → Option Expr) (idents : List String) : Bool :=
  idents.any fun i => (pick (.ident i)).isSome

mutual
/-- `subst_expr_where`: `pick` is asked before the walk goes down. -/
def substExprWhere (pick : Expr → Option Expr) (e : Expr) : Expr :=
  match pick e with
  | some replacement => replacement
  | none =>
    match e with
    | .binOp l op r => .binOp (substExprWhere pick l) op (substExprWhere pick r)
    | .unaryOp op x => .unaryOp op (substExprWhere pick x)
    | .fieldAccess b field => .fieldAccess (substExprWhere pick b) field
    | .index b k => .index (substExprWhere pick b) (substExprWhere pick k)
    | .fnCall name args => .fnCall name (substWhereList pick args)
    | .macroRef name args => .macroRef name (substWhereList pick args)
    | .methodCall b m args => .methodCall (substExprWhere pick b) m (substWhereList pick args)
    | .ifE c t el =>
      .ifE (substExprWhere pick c) (substExprWhere pick t) (substWhereOption pick el)
    | .letE p v b =>
      .letE p (substExprWhere pick v) (if shadows pick p.names then b else substExprWhere pick b)
    | .block items => .block (substWhereList pick items)
    | .arrayLit items => .arrayLit (substWhereList pick items)
    | .cast x ty => .cast (substExprWhere pick x) ty
    | .someE x => .someE (substExprWhere pick x)
    | .range lo hi => .range (substExprWhere pick lo) (substExprWhere pick hi)
    | .closure params body =>
      .closure params
        (if params.any (fun p => shadows pick p.names) then body else substExprWhere pick body)
    | .forE p it body =>
      .forE p (substExprWhere pick it)
        (if shadows pick p.names then body else substExprWhere pick body)
    | .tuple items => .tuple (substWhereList pick items)
    | .recordConstruct name fields => .recordConstruct name (substWhereFields pick fields)
    | .recordUpdate b fields => .recordUpdate (substExprWhere pick b) (substWhereFields pick fields)
    | .matchE s arms => .matchE (substExprWhere pick s) (substWhereArms pick arms)
    | .enumVariantWithData en v args => .enumVariantWithData en v (substWhereList pick args)
    | .namespacedCall ns name args tys => .namespacedCall ns name (substWhereList pick args) tys
    | .addressOf entity args ws =>
      .addressOf entity (substWhereList pick args) (substWhereFields pick ws)
    | .encode ty value => .encode ty (substExprWhere pick value)
    | .temporalRef _ | .intLiteral _ | .boolLiteral _ | .stringLiteral _ | .bytesLiteral _
    | .noneE | .emptyCollection | .msgField _ | .sysField _ | .traceField _ | .traceCall _ _
    | .ident _ | .enumVariant _ _ => e
def substWhereList (pick : Expr → Option Expr) : List Expr → List Expr
  | [] => []
  | e :: es => substExprWhere pick e :: substWhereList pick es
def substWhereOption (pick : Expr → Option Expr) : Option Expr → Option Expr
  | some e => some (substExprWhere pick e)
  | none => none
def substWhereFields (pick : Expr → Option Expr) : List (String × Expr) → List (String × Expr)
  | [] => []
  | (name, e) :: fields => (name, substExprWhere pick e) :: substWhereFields pick fields
def substWhereArms (pick : Expr → Option Expr) :
    List (MatchPattern × Expr) → List (MatchPattern × Expr)
  | [] => []
  | (p, e) :: arms => (p, substExprWhere pick e) :: substWhereArms pick arms
end

/-- The choice of `subst_ident_in_expr`. -/
def pickIdent (name : String) (replacement : Expr) : Expr → Option Expr
  | .ident x => if x = name then some replacement else none
  | _ => none

/-- `subst_ident_in_expr`. -/
def substIdentInExpr (e : Expr) (name : String) (replacement : Expr) : Expr :=
  substExprWhere (pickIdent name replacement) e

/-- `pattern_binds_name`. -/
def patternBindsName (name : String) (p : Pattern) : Bool := p.names.contains name

/-- `is_hashmap_access_method`. -/
def isHashmapAccessMethod (method : String) : Bool :=
  ["exists", "contains", "keys", "values", "insert", "update", "remove", "is_empty", "iter",
    "len"].contains method

/-- A base that is the name itself. -/
def isIdent (n : String) : Expr → Bool
  | .ident x => x == n
  | _ => false

mutual
/-- `rec` in `subst_hashmap_let_in_expr`. -/
def substHashmapRec (n : String) (r : Expr) (closureShadow : Bool) : Expr → Expr
  | .ident x => if x == n && !closureShadow then r else .ident x
  | .binOp l op r2 =>
    .binOp (substHashmapRec n r closureShadow l) op (substHashmapRec n r closureShadow r2)
  | .unaryOp op x => .unaryOp op (substHashmapRec n r closureShadow x)
  | .fieldAccess b field => .fieldAccess (substHashmapRec n r closureShadow b) field
  | .index b k =>
    .index (if closureShadow && isIdent n b then r else substHashmapRec n r closureShadow b)
      (substHashmapRec n r closureShadow k)
  | .fnCall name args => .fnCall name (substHashmapList n r closureShadow args)
  | .macroRef name args => .macroRef name (substHashmapList n r closureShadow args)
  | .methodCall b method args =>
    .methodCall
      (if closureShadow && isHashmapAccessMethod method && isIdent n b then r
        else substHashmapRec n r closureShadow b)
      method (substHashmapList n r closureShadow args)
  | .ifE c t el =>
    .ifE (substHashmapRec n r closureShadow c) (substHashmapRec n r closureShadow t)
      (substHashmapOption n r closureShadow el)
  | .letE p v b =>
    .letE p (substHashmapRec n r closureShadow v)
      (if patternBindsName n p then b else substHashmapRec n r closureShadow b)
  | .block items => .block (substHashmapList n r closureShadow items)
  | .arrayLit items => .arrayLit (substHashmapList n r closureShadow items)
  | .cast x ty => .cast (substHashmapRec n r closureShadow x) ty
  | .someE x => .someE (substHashmapRec n r closureShadow x)
  | .range lo hi =>
    .range (substHashmapRec n r closureShadow lo) (substHashmapRec n r closureShadow hi)
  | .closure params body =>
    .closure params (substHashmapRec n r (closureShadow || params.any (patternBindsName n)) body)
  | .forE p it body =>
    .forE p (substHashmapRec n r closureShadow it)
      (if patternBindsName n p then body else substHashmapRec n r closureShadow body)
  | .tuple items => .tuple (substHashmapList n r closureShadow items)
  | .recordConstruct name fields =>
    .recordConstruct name (substHashmapFields n r closureShadow fields)
  | .recordUpdate b fields =>
    .recordUpdate (substHashmapRec n r closureShadow b) (substHashmapFields n r closureShadow fields)
  | .matchE s arms =>
    .matchE (substHashmapRec n r closureShadow s) (substHashmapArms n r closureShadow arms)
  | .enumVariantWithData en v args =>
    .enumVariantWithData en v (substHashmapList n r closureShadow args)
  | .namespacedCall ns name args tys =>
    .namespacedCall ns name (substHashmapList n r closureShadow args) tys
  | .addressOf entity args ws =>
    .addressOf entity (substHashmapList n r closureShadow args)
      (substHashmapFields n r closureShadow ws)
  | .encode ty value => .encode ty (substHashmapRec n r closureShadow value)
  | .temporalRef name => .temporalRef name
  | .intLiteral v => .intLiteral v
  | .boolLiteral v => .boolLiteral v
  | .stringLiteral v => .stringLiteral v
  | .bytesLiteral v => .bytesLiteral v
  | .noneE => .noneE
  | .emptyCollection => .emptyCollection
  | .msgField field => .msgField field
  | .sysField field => .sysField field
  | .traceField field => .traceField field
  | .traceCall name route => .traceCall name route
  | .enumVariant en v => .enumVariant en v
def substHashmapList (n : String) (r : Expr) (closureShadow : Bool) : List Expr → List Expr
  | [] => []
  | e :: es => substHashmapRec n r closureShadow e :: substHashmapList n r closureShadow es
def substHashmapOption (n : String) (r : Expr) (closureShadow : Bool) : Option Expr → Option Expr
  | some e => some (substHashmapRec n r closureShadow e)
  | none => none
def substHashmapFields (n : String) (r : Expr) (closureShadow : Bool) :
    List (String × Expr) → List (String × Expr)
  | [] => []
  | (name, e) :: fields =>
    (name, substHashmapRec n r closureShadow e) :: substHashmapFields n r closureShadow fields
def substHashmapArms (n : String) (r : Expr) (closureShadow : Bool) :
    List (MatchPattern × Expr) → List (MatchPattern × Expr)
  | [] => []
  | (p, e) :: arms =>
    (p, substHashmapRec n r closureShadow e) :: substHashmapArms n r closureShadow arms
end

/-- `subst_hashmap_let_in_expr`. -/
def substHashmapLetInExpr (e : Expr) (name : String) (replacement : Expr) : Expr :=
  substHashmapRec name replacement false e

/-! ### The walks as substitutions -/

/-- The names bound by the forms that both walks take for binders. -/
def heeded : Slot → List String
  | .binding names | .closure names => names
  | .operand | .indexed | .receiver _ | .arm _ => []

variable {pick : Expr → Option Expr} {name x : String} {r e : Expr} {blocked : List String}

theorem substWhereList_eq (es : List Expr) :
    substWhereList pick es = es.map (substExprWhere pick) := by
  induction es with
  | nil => rfl
  | cons e es ih => rw [substWhereList, ih, List.map_cons]

theorem substWhereOption_eq (e : Option Expr) :
    substWhereOption pick e = e.map (substExprWhere pick) := by
  cases e <;> rfl

theorem substWhereFields_eq (fields : List (String × Expr)) :
    substWhereFields pick fields = fields.map fun f => (f.1, substExprWhere pick f.2) := by
  induction fields with
  | nil => rfl
  | cons field fields ih => rw [substWhereFields, ih, List.map_cons]

theorem substWhereArms_eq (arms : List (MatchPattern × Expr)) :
    substWhereArms pick arms = arms.map fun a => (a.1, substExprWhere pick a.2) := by
  induction arms with
  | nil => rfl
  | cons arm arms ih => rw [substWhereArms, ih, List.map_cons]

theorem any_shadows (params : List Pattern) :
    (params.any fun p => shadows pick p.names) = shadows pick (patternNames params) := by
  induction params with
  | nil => rfl
  | cons p ps ih => rw [List.any_cons, ih, patternNames, shadows, shadows, shadows, List.any_append]

theorem shadows_nil : shadows pick [] = false := rfl

/-- One step of `subst_expr_where`. -/
theorem substExprWhere_eq (e : Expr) : substExprWhere pick e = (pick e).getD
    (mapSlots (fun k c => if shadows pick (heeded k) then c else substExprWhere pick c) e) := by
  rw [substExprWhere.eq_def]
  cases hpick : pick e with
  | some replacement => rfl
  | none =>
    cases e with
    | letE | forE => rfl
    | closure params body =>
      simp only [Option.getD_none, mapSlots, heeded, any_shadows]
      rfl
    | _ =>
      simp only [Option.getD_none, mapSlots, heeded, shadows_nil, substWhereList_eq,
        substWhereOption_eq, substWhereFields_eq, substWhereArms_eq, Bool.false_eq_true, if_false]

theorem shadows_pickIdent (names : List String) :
    shadows (pickIdent x r) names = true ↔ x ∈ names := by
  constructor
  · intro h
    obtain ⟨i, hi, hsome⟩ := List.any_eq_true.mp h
    by_cases hix : i = x
    · exact hix ▸ hi
    · rw [pickIdent, if_neg hix] at hsome
      cases hsome
  · intro hx
    refine List.any_eq_true.mpr ⟨x, hx, ?_⟩
    rw [pickIdent, if_pos rfl, Option.isSome_some]

theorem atLeaves_pickIdent {d q : Expr} (h : pickIdent x r d = some q) : exprSlots.Leaf d := by
  cases d with
  | ident y => exact leaf_ident y
  | _ => exact absurd h (by simp [pickIdent])

/-- The names bound so far by the forms that the walks heed. -/
def blockedBelow (blocked : List String) (k : Slot) : List String := blocked ++ heeded k

theorem foldl_blockedBelow (ks : List Slot) :
    ks.foldl blockedBelow blocked = blocked ++ ks.flatMap heeded := by
  induction ks generalizing blocked with
  | nil => exact (List.append_nil _).symm
  | cons k ks ih => rw [List.foldl_cons, ih, blockedBelow, List.append_assoc, List.flatMap_cons]

/-- `subst_ident_in_expr` below binders of the names in `blocked`. -/
def substIdentBelow (x : String) (r : Expr) (blocked : List String) (e : Expr) : Expr :=
  if x ∈ blocked then e else substIdentInExpr e x r

def pickIdentBelow (x : String) (r : Expr) (blocked : List String) (e : Expr) : Option Expr :=
  if x ∈ blocked then none else pickIdent x r e

theorem substIdentBelow_substitutes :
    exprSlots.Substitutes blockedBelow (pickIdentBelow x r) (substIdentBelow x r) := by
  intro blocked e
  by_cases hx : x ∈ blocked
  · have hstay : ∀ k c, substIdentBelow x r (blockedBelow blocked k) c = c := by
      intro k c
      exact if_pos (List.mem_append_left _ hx)
    simp only [hstay, exprSlots, mapSlots_id]
    rw [substIdentBelow, pickIdentBelow, if_pos hx, if_pos hx, Option.getD_none]
  · rw [substIdentBelow, pickIdentBelow, if_neg hx, if_neg hx, substIdentInExpr, substExprWhere_eq]
    simp only [shadows_pickIdent, substIdentBelow, blockedBelow, List.mem_append, hx, false_or,
      substIdentInExpr, exprSlots]

theorem atLeaves_pickIdentBelow : exprSlots.AtLeaves (pickIdentBelow x r) := by
  intro blocked d q h
  unfold pickIdentBelow at h
  split at h
  · cases h
  · exact atLeaves_pickIdent h

/-! ### The walk for mappings -/

/-- Which occurrences of the name the walk rewrites from here on: all, those where a
    mapping stands (with `here` for the node itself), or none. -/
inductive Reach where
  | everywhere
  | mappings (here : Bool)
  | nowhere

/-- The operands of the forms that bind nothing. -/
def Reach.inside : Reach → Reach
  | .mappings _ => .mappings false
  | reach => reach

/-- The slots in which `subst_hashmap_let_in_expr` expects a mapping. -/
def mapBase : Slot → Bool
  | .indexed => true
  | .receiver method => isHashmapAccessMethod method
  | _ => false

def Reach.next (n : String) : Reach → Slot → Reach
  | .nowhere, _ => .nowhere
  | reach, .binding names => if n ∈ names then .nowhere else reach.inside
  | .everywhere, .closure names => if n ∈ names then .mappings false else .everywhere
  | .everywhere, _ => .everywhere
  | .mappings _, k => .mappings (mapBase k)

def Reach.rewrites : Reach → Bool
  | .everywhere => true
  | .mappings here => here
  | .nowhere => false

def substHashmapAt (n : String) (r : Expr) : Reach → Expr → Expr
  | .everywhere, e => substHashmapRec n r false e
  | .mappings here, e => if here && isIdent n e then r else substHashmapRec n r true e
  | .nowhere, e => e

def pickHashmap (n : String) (r : Expr) (reach : Reach) (e : Expr) : Option Expr :=
  if reach.rewrites then pickIdent n r e else none

variable {n : String} {closureShadow : Bool}

theorem substHashmapList_eq (es : List Expr) :
    substHashmapList n r closureShadow es = es.map (substHashmapRec n r closureShadow) := by
  induction es with
  | nil => rfl
  | cons e es ih => rw [substHashmapList, ih, List.map_cons]

theorem substHashmapOption_eq (e : Option Expr) :
    substHashmapOption n r closureShadow e = e.map (substHashmapRec n r closureShadow) := by
  cases e <;> rfl

theorem substHashmapFields_eq (fields : List (String × Expr)) :
    substHashmapFields n r closureShadow fields =
      fields.map fun f => (f.1, substHashmapRec n r closureShadow f.2) := by
  induction fields with
  | nil => rfl
  | cons field fields ih => rw [substHashmapFields, ih, List.map_cons]

theorem substHashmapArms_eq (arms : List (MatchPattern × Expr)) :
    substHashmapArms n r closureShadow arms =
      arms.map fun a => (a.1, substHashmapRec n r closureShadow a.2) := by
  induction arms with
  | nil => rfl
  | cons arm arms ih => rw [substHashmapArms, ih, List.map_cons]

theorem patternBindsName_iff (p : Pattern) : patternBindsName n p = true ↔ n ∈ p.names := by
  rw [patternBindsName, List.contains_iff_mem]

theorem any_patternBindsName (params : List Pattern) :
    params.any (patternBindsName n) = decide (n ∈ patternNames params) := by
  induction params with
  | nil => rfl
  | cons p ps ih =>
    rw [List.any_cons, ih, patternNames, Bool.eq_iff_iff]
    simp [patternBindsName_iff]

theorem substHashmapAt_everywhere (e : Expr) : substHashmapRec n r false e =
    (pickIdent n r e).getD
      (mapSlots (fun k c => substHashmapAt n r (Reach.next n .everywhere k) c) e) := by
  cases e with
  | closure params body =>
    simp only [substHashmapRec, pickIdent, Option.getD_none, mapSlots, Reach.next,
      any_patternBindsName, Bool.false_or]
    by_cases hn : n ∈ patternNames params <;> simp [hn, substHashmapAt]
  | letE p v b | forE p v b =>
    simp only [substHashmapRec, pickIdent, Option.getD_none, mapSlots, Reach.next, Reach.inside,
      patternBindsName_iff, substHashmapAt]
    by_cases hn : n ∈ p.names <;> simp [hn]
  | ident y => by_cases hy : y = n <;> simp [substHashmapRec, pickIdent, mapSlots, hy]
  | _ =>
    simp [substHashmapRec, pickIdent, mapSlots, Reach.next, substHashmapAt, substHashmapList_eq,
      substHashmapOption_eq, substHashmapFields_eq, substHashmapArms_eq]

theorem substHashmapAt_mappings (here : Bool) (e : Expr) :
    substHashmapRec n r true e =
      mapSlots (fun k c => substHashmapAt n r (Reach.next n (.mappings here) k) c) e := by
  cases e with
  | letE p v b | forE p v b =>
    simp only [substHashmapRec, mapSlots, Reach.next, Reach.inside, patternBindsName_iff,
      substHashmapAt, mapBase]
    by_cases hn : n ∈ p.names <;> simp [hn]
  | ident y => simp [substHashmapRec, mapSlots]
  | _ =>
    simp [substHashmapRec, mapSlots, Reach.next, substHashmapAt, mapBase, substHashmapList_eq,
      substHashmapOption_eq, substHashmapFields_eq, substHashmapArms_eq]

theorem pickIdent_eq (e : Expr) : pickIdent n r e = if isIdent n e then some r else none := by
  cases e <;> simp [pickIdent, isIdent]

theorem substHashmapAt_substitutes :
    exprSlots.Substitutes (Reach.next n) (pickHashmap n r) (substHashmapAt n r) := by
  intro reach e
  cases reach with
  | everywhere => exact substHashmapAt_everywhere e
  | nowhere =>
    simp only [Reach.next, substHashmapAt, exprSlots, mapSlots_id]
    rfl
  | mappings here =>
    rw [substHashmapAt, pickHashmap, Reach.rewrites, pickIdent_eq]
    cases here with
    | false => exact substHashmapAt_mappings false e
    | true =>
      cases hident : isIdent n e with
      | true => rfl
      | false => exact substHashmapAt_mappings true e

theorem atLeaves_pickHashmap : exprSlots.AtLeaves (pickHashmap n r) := by
  intro reach d q h
  unfold pickHashmap at h
  split at h
  · exact atLeaves_pickIdent h
  · cases h

/-! ### Which occurrences are rewritten -/

/-- The names bound along a path by `let` and `for`. -/
def bindingNames (ks : List Slot) : List String :=
  ks.flatMap fun | .binding names => names | _ => []

/-- The names bound along a path by closures. -/
def closureNames (ks : List Slot) : List String :=
  ks.flatMap fun | .closure names => names | _ => []

/-- The names bound along a path by match arms. -/
def armNames (ks : List Slot) : List String :=
  ks.flatMap fun | .arm names => names | _ => []

/-- A path that ends where a mapping stands. -/
def endsInMapBase (ks : List Slot) : Bool := ks.getLast?.any mapBase

/-- The name is bound nowhere on the path. -/
def FreeUse (x : String) (ks : List Slot) : Prop := x ∉ boundNames ks

/-- A free use, or one below a closure that binds the name where a mapping stands. -/
def MapUse (x : String) (ks : List Slot) : Prop :=
  x ∉ bindingNames ks ∧ x ∉ armNames ks ∧ (x ∈ closureNames ks → endsInMapBase ks = true)

instance (x : String) : DecidablePred (FreeUse x) := fun _ => inferInstanceAs (Decidable (¬ _))

instance (x : String) : DecidablePred (MapUse x) :=
  fun _ => inferInstanceAs (Decidable (_ ∧ _ ∧ (_ → _)))

/-- A use that `subst_ident_in_expr` rewrites. -/
def Rewritten (x : String) (ks : List Slot) : Prop := x ∉ bindingNames ks ∧ x ∉ closureNames ks

/-- A use that `subst_hashmap_let_in_expr` rewrites. -/
def RewrittenInMap (x : String) (ks : List Slot) : Prop :=
  x ∉ bindingNames ks ∧ (x ∈ closureNames ks → endsInMapBase ks = true)

instance (x : String) : DecidablePred (Rewritten x) :=
  fun _ => inferInstanceAs (Decidable (_ ∧ _))

instance (x : String) : DecidablePred (RewrittenInMap x) :=
  fun _ => inferInstanceAs (Decidable (_ ∧ (_ → _)))

theorem mem_boundNames_iff {ks : List Slot} :
    x ∈ boundNames ks ↔ x ∈ bindingNames ks ∨ x ∈ closureNames ks ∨ x ∈ armNames ks := by
  simp only [boundNames, bindingNames, closureNames, armNames, List.mem_flatMap]
  constructor
  · rintro ⟨k, hk, hx⟩
    cases k with
    | operand | indexed | receiver => exact absurd hx List.not_mem_nil
    | binding => exact .inl ⟨_, hk, hx⟩
    | closure => exact .inr (.inl ⟨_, hk, hx⟩)
    | arm => exact .inr (.inr ⟨_, hk, hx⟩)
  · rintro (⟨k, hk, hx⟩ | ⟨k, hk, hx⟩ | ⟨k, hk, hx⟩) <;>
    · refine ⟨k, hk, ?_⟩
      cases k <;> first | exact hx | exact absurd hx List.not_mem_nil

theorem mem_heeded_iff {ks : List Slot} :
    x ∈ ks.flatMap heeded ↔ x ∈ bindingNames ks ∨ x ∈ closureNames ks := by
  simp only [bindingNames, closureNames, List.mem_flatMap]
  constructor
  · rintro ⟨k, hk, hx⟩
    cases k with
    | operand | indexed | receiver | arm => exact absurd hx List.not_mem_nil
    | binding => exact .inl ⟨_, hk, hx⟩
    | closure => exact .inr ⟨_, hk, hx⟩
  · rintro (⟨k, hk, hx⟩ | ⟨k, hk, hx⟩) <;>
    · refine ⟨k, hk, ?_⟩
      cases k <;> first | exact hx | exact absurd hx List.not_mem_nil

theorem freeUse_iff {ks : List Slot} : FreeUse x ks ↔ Rewritten x ks ∧ x ∉ armNames ks := by
  rw [FreeUse, mem_boundNames_iff, Rewritten]
  tauto

theorem mapUse_iff {ks : List Slot} : MapUse x ks ↔ RewrittenInMap x ks ∧ x ∉ armNames ks := by
  rw [MapUse, RewrittenInMap]
  tauto

/-- The reach at the end of a path. -/
theorem reach_eq (n : String) (ks : List Slot) : ks.foldl (Reach.next n) .everywhere =
    if n ∈ bindingNames ks then .nowhere
    else if n ∈ closureNames ks then .mappings (endsInMapBase ks) else .everywhere := by
  induction ks using List.reverseRecOn with
  | nil => rfl
  | append_singleton ks k ih =>
    have hlast : endsInMapBase (ks ++ [k]) = mapBase k := by
      rw [endsInMapBase, List.getLast?_concat, Option.any_some]
    rw [List.foldl_append, ih, hlast]
    simp only [List.foldl_cons, List.foldl_nil, bindingNames, closureNames, List.flatMap_append,
      List.flatMap_singleton, List.mem_append]
    by_cases hbind : n ∈ bindingNames ks
    · simp only [bindingNames] at hbind
      simp only [hbind, true_or, if_true, Reach.next]
    · by_cases hclos : n ∈ closureNames ks
      · simp only [bindingNames, closureNames] at hbind hclos
        cases k <;> simp [hbind, hclos, Reach.next, Reach.inside, mapBase]
      · simp only [bindingNames, closureNames] at hbind hclos
        cases k <;> simp [hbind, hclos, Reach.next, Reach.inside, mapBase]

theorem rewrites_iff {ks : List Slot} :
    (ks.foldl (Reach.next n) .everywhere).rewrites = true ↔ RewrittenInMap n ks := by
  rw [reach_eq, RewrittenInMap]
  by_cases hbind : n ∈ bindingNames ks
  · simp [hbind, Reach.rewrites]
  · by_cases hclos : n ∈ closureNames ks <;> simp [hbind, hclos, Reach.rewrites]

/-! ### What a substitution promises -/

/-- The name at the uses in `use`, given the path to each. -/
def putName (use : List Slot → Prop) [DecidablePred use] (x : String) (r : Expr)
    (ks : List Slot) (e : Expr) : Option Expr :=
  if use ks then pickIdent x r e else none

/-- `out` is `e` with what `put` says in place of the nodes at the given paths, and no
    binder of `e` has come to stand around a variable of what was put there. -/
structure Replaces (vars : Expr → String → Prop) (put : List Slot → Expr → Option Expr)
    (e out : Expr) : Prop where
  result : out = exprSlots.substAt put [] e
  uncaptured : ∀ ks d r, Path e ks d → put ks d = some r → ∀ z ∈ boundNames ks, ¬ vars r z

/-- The variables of an expression. -/
def freeIn (e : Expr) (z : String) : Prop := OccursFree z e

theorem atLeaves_putName (use : List Slot → Prop) [DecidablePred use] :
    exprSlots.AtLeaves (putName use x r) := by
  intro ks d q h
  unfold putName at h
  split at h
  · exact atLeaves_pickIdent h
  · cases h

theorem pickIdent_eq_some {d q : Expr} : pickIdent x r d = some q ↔ d = .ident x ∧ q = r := by
  cases d with
  | ident y =>
    by_cases hy : y = x
    · simp [pickIdent, hy, eq_comm]
    · simp [pickIdent, hy]
  | _ => simp [pickIdent]

variable {S : Type} {next : S → Slot → S} {pick : S → Expr → Option Expr} {w : S → Expr → Expr}
variable {s : S} {rewritten use : List Slot → Prop} [DecidablePred rewritten] [DecidablePred use]

theorem result_iff (hw : exprSlots.Substitutes next pick w) (hleaves : exprSlots.AtLeaves pick)
    (hpick : ∀ ks d, pick (ks.foldl next s) d = putName rewritten x r ks d)
    (huse : ∀ ks, use ks ↔ rewritten ks ∧ x ∉ armNames ks) (e : Expr) :
    w s e = exprSlots.substAt (putName use x r) [] e ↔
      ∀ ks, Path e ks (.ident x) → rewritten ks → x ∈ armNames ks → r = .ident x := by
  rw [hw.eq_substAt_iff hleaves (atLeaves_putName use)]
  constructor
  · intro h ks hpath hks harm
    have heq := h ks _ hpath (leaf_ident x)
    have hno : ¬ use ks := fun hu => ((huse ks).mp hu).2 harm
    rwa [hpick, putName, putName, if_pos hks, if_neg hno, pickIdent, if_pos rfl,
      Option.getD_some, Option.getD_none] at heq
  · intro h ks d hpath _
    rw [hpick, putName, putName]
    by_cases hks : rewritten ks
    · by_cases harm : x ∈ armNames ks
      · have hno : ¬ use ks := fun hu => ((huse ks).mp hu).2 harm
        rw [if_pos hks, if_neg hno, Option.getD_none]
        cases hd : pickIdent x r d with
        | none => rfl
        | some q =>
          obtain ⟨rfl, rfl⟩ := pickIdent_eq_some.mp hd
          exact h ks hpath hks harm
      · rw [if_pos hks, if_pos ((huse ks).mpr ⟨hks, harm⟩)]
    · rw [if_neg hks, if_neg fun hu => hks ((huse ks).mp hu).1]

/-- **A walk that replaces one name.**  Where match arms are no binders for the walk, it
    replaces the right uses without capture exactly when no arm around a use that it
    rewrites binds the name, and nothing bound around a right use is a variable of the
    replacement. -/
theorem replaces_iff (hw : exprSlots.Substitutes next pick w) (hleaves : exprSlots.AtLeaves pick)
    (hpick : ∀ ks d, pick (ks.foldl next s) d = putName rewritten x r ks d)
    (huse : ∀ ks, use ks ↔ rewritten ks ∧ x ∉ armNames ks) (e : Expr) :
    Replaces freeIn (putName use x r) e (w s e) ↔
      ∀ ks, Path e ks (.ident x) → rewritten ks →
        (x ∈ armNames ks → r = .ident x) ∧
        (x ∉ armNames ks → ∀ z ∈ boundNames ks, ¬ OccursFree z r) := by
  constructor
  · rintro ⟨hresult, huncaptured⟩ ks hpath hks
    refine ⟨(result_iff hw hleaves hpick huse e).mp hresult ks hpath hks, fun harm => ?_⟩
    apply huncaptured ks (.ident x) r hpath
    rw [putName, if_pos ((huse ks).mpr ⟨hks, harm⟩), pickIdent, if_pos rfl]
  · intro h
    refine ⟨(result_iff hw hleaves hpick huse e).mpr fun ks hpath hks => (h ks hpath hks).1, ?_⟩
    intro ks d q hpath hput
    unfold putName at hput
    split at hput
    · next hu =>
      obtain ⟨rfl, rfl⟩ := pickIdent_eq_some.mp hput
      obtain ⟨hks, harm⟩ := (huse ks).mp hu
      exact (h ks hpath hks).2 harm
    · cases hput

/-- What goes wrong nowhere: no match arm around a use that the walk rewrites binds the
    name, unless it stays as it is, and elsewhere no variable of the replacement is bound
    around it. -/
def Unharmed (rewritten : List Slot → Prop) (x : String) (r e : Expr) : Prop :=
  ∀ ks, Path e ks (.ident x) → rewritten ks →
    (x ∈ armNames ks → r = .ident x) ∧ (x ∉ armNames ks → ∀ z ∈ boundNames ks, ¬ OccursFree z r)

/-- **`subst_ident_in_expr`** replaces exactly the free uses, without capture, when and
    only when nothing goes wrong where it rewrites. -/
theorem substIdentInExpr_iff (e : Expr) (x : String) (r : Expr) :
    Replaces freeIn (putName (FreeUse x) x r) e (substIdentInExpr e x r) ↔
      Unharmed (Rewritten x) x r e := by
  have hstart : substIdentInExpr e x r = substIdentBelow x r [] e :=
    (if_neg List.not_mem_nil).symm
  rw [hstart]
  apply replaces_iff substIdentBelow_substitutes atLeaves_pickIdentBelow
  · intro ks d
    have hblocked : x ∈ ks.foldl blockedBelow [] ↔ ¬ Rewritten x ks := by
      rw [foldl_blockedBelow, List.nil_append, mem_heeded_iff, Rewritten]
      tauto
    rw [pickIdentBelow, putName, ← ite_not]
    simp only [hblocked, not_not]
  · exact fun _ => freeUse_iff

/-- **`subst_hashmap_let_in_expr`** replaces exactly the free uses and, below closures
    that bind the name, those where a mapping stands. -/
theorem substHashmapLetInExpr_iff (e : Expr) (x : String) (r : Expr) :
    Replaces freeIn (putName (MapUse x) x r) e (substHashmapLetInExpr e x r) ↔
      Unharmed (RewrittenInMap x) x r e := by
  have hstart : substHashmapLetInExpr e x r = substHashmapAt x r .everywhere e := rfl
  rw [hstart]
  apply replaces_iff substHashmapAt_substitutes atLeaves_pickHashmap
  · intro ks d
    simp only [pickHashmap, putName, rewrites_iff]
  · exact fun _ => mapUse_iff

end CambrianLang.Solidity
