/-
  **Values on their way into narrower integer types** (`wrap_narrow_cast_with_actual`,
  `wrap_checked_narrow_cast`, `maybe_narrow_cast` and `coerce_return_value` in
  `codegen/solidity/core/types.rs`).

  The emitted text is kept as the term that solc reads: the outermost conversion is what
  the source looks for in the text.  What solc makes of the texts that are not
  conversions, and what is inferred for the forms that need the declarations of the
  entity, are parameters.  A type is an integer type here, or one of the texts that the
  inference tells apart from those.
-/
import CambrianLang.Ast.Expr
import CambrianLang.Lib.MachineInt

namespace CambrianLang.Solidity

open Ast CambrianLang.Core MachineInt

/-! ### Types -/

/-- `uintN`. -/
def uint (width : Nat) : IntType := ⟨false, width⟩

/-- `intN`. -/
def sint (width : Nat) : IntType := ⟨true, width⟩

/-- The texts that the inference of types returns. -/
inductive InferredTy where
  | num (ty : IntType)
  | intLiteral
  | bool
  | other (text : String)
deriving DecidableEq

/-- The text starts with `uint`. -/
def InferredTy.unsigned : InferredTy → Bool
  | .num ty => !ty.signed
  | _ => false

/-- The text starts with `int` and is not `int_literal`. -/
def InferredTy.signed : InferredTy → Bool
  | .num ty => ty.signed
  | _ => false

/-- `sol_type`, the types that are neither integers nor `bool` by name only. -/
def solType : Ty → InferredTy
  | .simple "u8" => .num (uint 8)
  | .simple "u16" => .num (uint 16)
  | .simple "u32" => .num (uint 32)
  | .simple "u64" => .num (uint 64)
  | .simple "u128" => .num (uint 128)
  | .simple "i8" => .num (sint 8)
  | .simple "i16" => .num (sint 16)
  | .simple "i32" => .num (sint 32)
  | .simple "i64" => .num (sint 64)
  | .simple "i128" => .num (sint 128)
  | .simple "bool" => .bool
  | .simple "String" => .other "string"
  | .simple "CamData" | .simple "bytes" => .other "bytes"
  | .simple "address" | .typedAddress _ => .other "address"
  | .simple "pubkey" | .simple "bytes32" => .other "bytes32"
  | .simple "bytes4" => .other "bytes4"
  | .simple _ => .num (uint 256)
  | .generic .. | .tuple _ => .other "bytes"

/-- What is inferred for the forms that need declarations. -/
structure Declared where
  flow : Expr → InferredTy
  decl : Expr → InferredTy

/-- `BinOp::WrappingAdd | BinOp::WrappingSub | BinOp::WrappingMul`. -/
def isWrappingOp : BinOp → Bool
  | .wrappingAdd | .wrappingSub | .wrappingMul => true
  | _ => false

/-- The comparisons and the boolean operators. -/
def isBoolOp : BinOp → Bool
  | .eq | .ne | .lt | .le | .gt | .ge | .and | .or => true
  | _ => false

/-- `infer_int_literal_sol_ty`. -/
def inferIntLiteralSolTy (v : U256) : InferredTy :=
  if v.hi.toNat ≠ 0 then .num (uint 256)
  else if v.lo.toNat > 2 ^ 64 - 1 then .num (uint 128) else .num (uint 64)

def isIntLiteral : Expr → Bool
  | .intLiteral _ => true
  | _ => false

variable (D : Declared)

/-- `infer_let_type_entity`, `InferSolMode::Decl`. -/
def inferLetTypeEntity : Expr → InferredTy
  | .boolLiteral _ => .bool
  | .stringLiteral _ => .other "string memory"
  | .intLiteral v => inferIntLiteralSolTy v
  | .cast _ ty => solType ty
  | .binOp l op r =>
    if isBoolOp op then .bool
    else if isIntLiteral r then inferLetTypeEntity l
    else if isIntLiteral l then inferLetTypeEntity r
    else if inferLetTypeEntity l ≠ .num (uint 256) then inferLetTypeEntity l
    else inferLetTypeEntity r
  | .unaryOp op e => if op = .not then .bool else inferLetTypeEntity e
  | e => D.decl e

/-- `infer_binop_sol_ty`, `InferSolMode::Flow`. -/
def inferFlowBinop : InferredTy → InferredTy → InferredTy
  | .intLiteral, rty => rty
  | lty, .intLiteral => lty
  | lty, rty => if lty = rty then lty else .num (uint 256)

/-- `actual_sol_type`, `InferSolMode::Flow`. -/
def actualSolType : Expr → InferredTy
  | .boolLiteral _ => .bool
  | .stringLiteral _ => .other "string memory"
  | .intLiteral v => if v.hi.toNat ≠ 0 then .num (uint 256) else .intLiteral
  | .noneE | .emptyCollection => .intLiteral
  | .msgField "sender" => .other "address"
  | .msgField "int" | .msgField "ext" => .bool
  | .msgField _ => .num (uint 256)
  | .sysField "address" | .sysField "coinbase" | .sysField "origin" => .other "address"
  | .sysField _ => .num (uint 256)
  | .cast inner ty =>
    if inferLetTypeEntity D inner ≠ .num (uint 256) then inferLetTypeEntity D inner else solType ty
  | .binOp l op r =>
    if isWrappingOp op then .num (uint 256)
    else if isBoolOp op then .bool
    else inferFlowBinop (actualSolType l) (actualSolType r)
  | .unaryOp op e => if op = .not then .bool else actualSolType e
  | e => D.flow e

/-! ### Emitted expressions -/

/-- An emitted expression, as far as conversions, operators and helpers go.  Any other text is
    known by the form it is the rendering of; a text that is a conversion as a whole is a
    `convert`. -/
inductive Sol where
  | rendered (e : Expr)
  | convert (ty : IntType) (e : Sol)
  | toChecked (ty : IntType) (e : Sol)
  | camI2U (e : Sol)
  | camU2I (e : Sol)
  | ofBool (e : Sol) (ty : IntType)
  | wrapping (signed : Bool) (op : BinOp) (l r : Sol)
  | bin (l : Sol) (op : BinOp) (r : Sol)
  | unary (op : UnaryOp) (e : Sol)
  | zero (ty : IntType)
  | nonzero (e : Sol)

/-- What solc makes of the rest: the values of the other texts, and the checked operators,
    which may look at the types of their operands and need not evaluate both. -/
structure WordReading where
  rendered : Expr → Option Int
  bin : Sol → BinOp → Sol → Option Int → Option Int → Option Int
  unary : UnaryOp → Sol → Option Int → Option Int

/-- The exact result of a wrapping operator. -/
def exactResult : BinOp → Int → Int → Int
  | .wrappingSub, a, b => a - b
  | .wrappingMul, a, b => a * b
  | _, a, b => a + b

/-- The word that `_wadd`, `_wsub` and `_wmul` work on, or their signed versions. -/
def helperWord (signed : Bool) : IntType := ⟨signed, 256⟩

/-- The value that the emitted expression computes, or nothing where it reverts: explicit
    conversions wrap, the `_to` helpers require their argument to fit. -/
def Sol.eval (R : WordReading) : Sol → Option Int
  | .rendered e => R.rendered e
  | .convert ty e => (e.eval R).map ty.wrap
  | .toChecked ty e => (e.eval R).bind fun v => if ty.Fits v then some v else none
  | .camI2U e => (e.eval R).bind fun v => if 0 ≤ v then some v else none
  | .camU2I e => (e.eval R).bind fun v => if (sint 256).Fits v then some v else none
  | .ofBool e _ => e.eval R
  | .wrapping signed op l r =>
    (l.eval R).bind fun a => (r.eval R).map fun b => (helperWord signed).wrap (exactResult op a b)
  | .bin l op r => R.bin l op r (l.eval R) (r.eval R)
  | .unary op e => R.unary op e (e.eval R)
  | .zero _ => some 0
  | .nonzero e => (e.eval R).map fun v => if v = 0 then 0 else 1

/-! ### Coercions -/

/-- The types that `wrap_narrow_cast_with_actual` casts to. -/
def narrowPrim (ty : IntType) : Bool := ty.width % 8 == 0 && 8 ≤ ty.width && ty.width ≤ 128

/-- The text is `ty(..)` as a whole. -/
def Sol.isConvert (ty : IntType) : Sol → Bool
  | .convert ty' _ => ty' == ty
  | _ => false

/-- `inner` in `wrap_narrow_cast_with_actual`: solc casts no unsigned type to a signed one of
    another width. -/
def signedInner (expr : Sol) (actual : Option InferredTy) : Sol :=
  if actual = some (.num (uint 256)) ∨ expr.isConvert (uint 256) then .convert (sint 256) expr
  else expr

/-- The cast, unless the text is one already. -/
def castOnce (target : IntType) (inner : Sol) : Sol :=
  if inner.isConvert target then inner else .convert target inner

/-- `wrap_narrow_cast_with_actual`. -/
def wrapNarrowCastWithActual (target : IntType) (expr : Sol) (actual : Option InferredTy) : Sol :=
  if actual = some .bool ∧ target.signed = false then .ofBool expr target
  else if narrowPrim target = false then expr
  else if actual = some (.num target) then expr
  else if target.signed then castOnce target (signedInner expr actual)
  else .convert target expr

/-- `wrap_narrow_cast`. -/
def wrapNarrowCast (target : IntType) (expr : Sol) : Sol :=
  wrapNarrowCastWithActual target expr none

/-- The types of `checked_downcast_helper_name`. -/
def checkedDowncast (ty : IntType) : Bool := [8, 16, 32, 64, 128].contains ty.width

/-- `strip_redundant_sol_narrow_cast`. -/
def stripRedundantSolNarrowCast (prim : IntType) : Sol → Sol
  | .convert ty e => if ty = prim then e else .convert ty e
  | e => e

/-- `wrap_checked_narrow_cast`. -/
def wrapCheckedNarrowCast (target : IntType) (expr : Sol) : Sol :=
  if checkedDowncast target then
    match expr with
    | .toChecked ty e =>
      if ty = target then .toChecked ty e else .toChecked target (.toChecked ty e)
    | expr => .toChecked target (stripRedundantSolNarrowCast target expr)
  else .convert target expr

/-- An `as` on something inferred to be a `bool`. -/
def castsBool : Expr → Bool
  | .cast inner _ => inferLetTypeEntity D inner == .bool
  | _ => false

/-- `maybe_narrow_cast` for an integer type. -/
def maybeNarrowCast (target : IntType) (exprStr : Sol) (expr : Expr) : Sol :=
  if castsBool D expr ∧ target.signed = false then exprStr
  else
    let actual := actualSolType D expr
    wrapNarrowCastWithActual target exprStr
      (some (if actual = .intLiteral then .num target else actual))

/-- `sol_expr_already_narrowed_to`. -/
def solExprAlreadyNarrowedTo (ty : IntType) : Sol → Bool
  | .convert ty' _ => ty' == ty
  | .toChecked ty' _ => ty' == ty && checkedDowncast ty
  | _ => false

/-- `Expr::BinOp` or `Expr::UnaryOp`. -/
def isOperator : Expr → Bool
  | .binOp .. | .unaryOp .. => true
  | _ => false

/-- The type that `coerce_return_value` infers: of a `for`, that of its body. -/
def returnedTy : Expr → InferredTy
  | .forE _ _ body => inferLetTypeEntity D body
  | e => inferLetTypeEntity D e

/-- `coerce_return_value` for an integer type and a value that is no array. -/
def coerceReturnValue (ret : IntType) (val : Sol) (expr : Expr) : Sol :=
  if ret.width ≠ 256 then
    if solExprAlreadyNarrowedTo ret val then val
    else if returnedTy D expr = .num ret ∧ isOperator expr = false then val
    else wrapNarrowCastWithActual ret val (some (.num ⟨ret.signed, 256⟩))
  else maybeNarrowCast D ret val expr

/-! ### Where values go -/

/-- The places in which a value is given the type of the place. -/
inductive Sink where
  | member | mappingSlot | localVar | recordField | pureFnParam | ret | explicitCast
deriving DecidableEq

/-- The integer literal under a unary operator. -/
def signedLiteral : Expr → Option U256
  | .unaryOp _ (.intLiteral v) => some v
  | _ => none

/-- What `narrow_pure_fn_args` writes for the literal `-v`. -/
def minusLiteral (v : U256) : Sol := .unary .neg (.rendered (.intLiteral v))

/-- The coercion of a value at a place, in an entity or outside. -/
def coerceAt (inEntity : Bool) (target : IntType) (sol : Sol) (expr : Expr) : Sink → Sol
  | .member | .mappingSlot | .localVar => maybeNarrowCast D target sol expr
  | .recordField =>
    if inEntity then maybeNarrowCast D target sol expr else wrapNarrowCast target sol
  | .pureFnParam =>
    match signedLiteral expr, target.signed with
    | some v, true => .convert target (minusLiteral v)
    | _, _ => if inEntity then maybeNarrowCast D target sol expr else wrapNarrowCast target sol
  | .ret => coerceReturnValue D target sol expr
  | .explicitCast => wrapCheckedNarrowCast target sol

/-- What stands at the place before the coercion: the wide expression below a cast that the
    range-checked one replaces, and `-v` for the literal of a parameter. -/
def uncoerced (target : IntType) (sol : Sol) (expr : Expr) : Sink → Sol
  | .explicitCast =>
    if checkedDowncast target then stripRedundantSolNarrowCast target sol else sol
  | .pureFnParam =>
    match signedLiteral expr, target.signed with
    | some v, true => minusLiteral v
    | _, _ => sol
  | _ => sol

/-- `wrap_narrow_cast_with_actual` adds a plain cast, or finds one. -/
def WrapsPlainly (target : IntType) (actual : Option InferredTy) : Prop :=
  ¬ (actual = some .bool ∧ target.signed = false) ∧ narrowPrim target = true ∧
    actual ≠ some (.num target)

/-- `maybe_narrow_cast` does. -/
def NarrowsPlainly (target : IntType) (expr : Expr) : Prop :=
  ¬ (castsBool D expr = true ∧ target.signed = false) ∧ actualSolType D expr ≠ .intLiteral ∧
    WrapsPlainly target (some (actualSolType D expr))

/-- The coercion at a place is a plain `uintN(..)` or `intN(..)`. -/
def PlainCast (inEntity : Bool) (target : IntType) (expr : Expr) : Sink → Prop
  | .member | .mappingSlot | .localVar => NarrowsPlainly D target expr
  | .recordField => if inEntity then NarrowsPlainly D target expr else WrapsPlainly target none
  | .pureFnParam =>
    match signedLiteral expr, target.signed with
    | some _, true => True
    | _, _ => if inEntity then NarrowsPlainly D target expr else WrapsPlainly target none
  | .ret =>
    if target.width ≠ 256 then
      narrowPrim target = true ∧ ¬ (returnedTy D expr = .num target ∧ isOperator expr = false)
    else NarrowsPlainly D target expr
  | .explicitCast => checkedDowncast target = false

/-! ### What the coercions compute -/

variable {D} {R : WordReading} {target : IntType} {sol : Sol} {expr : Expr}

theorem map_wrap_of_convert (hpos : 0 < target.width) (h : sol.isConvert target = true) :
    (sol.eval R).map target.wrap = sol.eval R := by
  cases sol with
  | convert ty e =>
    have hty : ty = target := beq_iff_eq.mp h
    subst hty
    rw [Sol.eval, Option.map_map]
    congr 1
    funext v
    exact IntType.wrap_wrap le_rfl v
  | _ => cases h

theorem eval_convert (e : Sol) (ty : IntType) :
    (Sol.convert ty e).eval R = (e.eval R).map ty.wrap := rfl

theorem eval_castOnce (hpos : 0 < target.width) :
    (castOnce target sol).eval R = (sol.eval R).map target.wrap := by
  unfold castOnce
  split
  · next hconvert => exact (map_wrap_of_convert hpos hconvert).symm
  · rfl

theorem eval_signedInner (hwide : target.width ≤ 256) (actual : Option InferredTy) :
    ((signedInner sol actual).eval R).map target.wrap = (sol.eval R).map target.wrap := by
  unfold signedInner
  split
  · rw [eval_convert, Option.map_map]
    congr 1
    funext v
    exact IntType.wrap_wrap hwide v
  · rfl

theorem narrowPrim_width (h : narrowPrim target = true) : target.width ≤ 128 := by
  unfold narrowPrim at h
  simp only [Bool.and_eq_true, decide_eq_true_eq] at h
  exact h.2

open Classical in
theorem eval_wrapNarrowCastWithActual (hpos : 0 < target.width) (actual : Option InferredTy) :
    (wrapNarrowCastWithActual target sol actual).eval R =
      if WrapsPlainly target actual then (sol.eval R).map target.wrap else sol.eval R := by
  unfold wrapNarrowCastWithActual
  by_cases hplain : WrapsPlainly target actual
  · obtain ⟨hbool, hprim, hactual⟩ := hplain
    have hwide : target.width ≤ 256 := (narrowPrim_width hprim).trans (by omega)
    have hlisted : narrowPrim target ≠ false := by
      rw [hprim]
      exact Bool.noConfusion
    have hpos' : WrapsPlainly target actual := ⟨hbool, hprim, hactual⟩
    rw [if_neg hbool, if_neg hlisted, if_neg hactual, if_pos hpos']
    split
    · rw [eval_castOnce hpos, eval_signedInner hwide]
    · rfl
  · rw [if_neg hplain]
    split
    · rfl
    · next hbool =>
      split
      · rfl
      · next hprim =>
        split
        · rfl
        · next hactual => exact absurd ⟨hbool, Bool.of_not_eq_false hprim, hactual⟩ hplain

open Classical in
theorem eval_maybeNarrowCast (hpos : 0 < target.width) :
    (maybeNarrowCast D target sol expr).eval R =
      if NarrowsPlainly D target expr then (sol.eval R).map target.wrap else sol.eval R := by
  unfold maybeNarrowCast NarrowsPlainly
  by_cases hcast : castsBool D expr = true ∧ target.signed = false
  · rw [if_pos hcast, if_neg fun h => h.1 hcast]
  · rw [if_neg hcast, eval_wrapNarrowCastWithActual hpos]
    by_cases hlit : actualSolType D expr = .intLiteral
    · have hkeep : ¬ WrapsPlainly target (some (.num target)) := fun h => h.2.2 rfl
      rw [if_pos hlit, if_neg hkeep, if_neg fun h => h.2.1 hlit]
    · rw [if_neg hlit]
      simp only [hcast, hlit, not_false_eq_true, ne_eq, true_and]

theorem map_wrap_of_checked {e : Sol} (hpos : 0 < target.width) :
    ((Sol.toChecked target e).eval R).map target.wrap = (Sol.toChecked target e).eval R := by
  rw [Sol.eval]
  cases e.eval R with
  | none => rfl
  | some v =>
    by_cases hv : target.Fits v
    · rw [Option.bind_some, if_pos hv, Option.map_some, (IntType.wrap_eq_iff hpos).mpr hv]
    · rw [Option.bind_some, if_neg hv, Option.map_none]

/-- What is narrowed already fits. -/
theorem map_wrap_of_narrowed (hpos : 0 < target.width)
    (h : solExprAlreadyNarrowedTo target sol = true) :
    (sol.eval R).map target.wrap = sol.eval R := by
  cases sol with
  | convert ty e => exact map_wrap_of_convert hpos h
  | toChecked ty e =>
    have hty : ty = target := by
      simp only [solExprAlreadyNarrowedTo, Bool.and_eq_true, beq_iff_eq] at h
      exact h.1
    subst hty
    exact map_wrap_of_checked hpos
  | _ => cases h

open Classical in
theorem eval_coerceReturnValue (hpos : 0 < target.width) :
    (coerceReturnValue D target sol expr).eval R =
      if PlainCast D inEntity target expr .ret then (sol.eval R).map target.wrap
      else sol.eval R := by
  unfold coerceReturnValue PlainCast
  by_cases hwidth : target.width ≠ 256
  · simp only [if_pos hwidth]
    by_cases hdone : solExprAlreadyNarrowedTo target sol = true
    · rw [if_pos hdone, map_wrap_of_narrowed hpos hdone, ite_self]
    · rw [if_neg hdone]
      by_cases hskip : returnedTy D expr = .num target ∧ isOperator expr = false
      · rw [if_pos hskip, if_neg fun h => h.2 hskip]
      · rw [if_neg hskip, eval_wrapNarrowCastWithActual hpos]
        have hne : InferredTy.num ⟨target.signed, 256⟩ ≠ .num target := by
          intro heq
          exact hwidth (congrArg IntType.width (InferredTy.num.inj heq)).symm
        have hiff : WrapsPlainly target (some (.num ⟨target.signed, 256⟩)) ↔
            narrowPrim target = true ∧
              ¬ (returnedTy D expr = .num target ∧ isOperator expr = false) := by
          simp [WrapsPlainly, hne, hskip]
        simp only [hiff]
  · simp only [if_neg hwidth]
    exact eval_maybeNarrowCast hpos

/-- The range-checked cast: the wide value, or nothing. -/
theorem eval_wrapCheckedNarrowCast (hpos : 0 < target.width) :
    (wrapCheckedNarrowCast target sol).eval R =
      if checkedDowncast target then
        ((uncoerced target sol expr .explicitCast).eval R).bind fun v =>
          if target.Fits v then some v else none
      else (sol.eval R).map target.wrap := by
  unfold wrapCheckedNarrowCast uncoerced
  by_cases hchecked : checkedDowncast target = true
  · rw [if_pos hchecked, if_pos hchecked, if_pos hchecked]
    cases sol with
    | toChecked ty e =>
      dsimp only
      by_cases hty : ty = target
      · subst hty
        have hstrip : stripRedundantSolNarrowCast ty (.toChecked ty e) = .toChecked ty e := rfl
        rw [if_pos rfl, hstrip, Sol.eval]
        cases e.eval R with
        | none => rfl
        | some v => by_cases hv : ty.Fits v <;> simp [hv]
      · rw [if_neg hty]
        rfl
    | _ => rfl
  · rw [if_neg hchecked, if_neg hchecked]
    rfl

/-- The coerced value is the value of the expression, or the code reverts. -/
def ExactOrReverts (R : WordReading) (exact coerced : Sol) : Prop :=
  coerced.eval R = none ∨ coerced.eval R = exact.eval R

theorem exactOrReverts_checked {exact coerced : Sol}
    (h : coerced.eval R = (exact.eval R).bind fun v => if target.Fits v then some v else none) :
    ExactOrReverts R exact coerced := by
  rw [ExactOrReverts, h]
  cases exact.eval R with
  | none => exact .inl rfl
  | some v =>
    by_cases hv : target.Fits v
    · exact .inr (if_pos hv)
    · exact .inl (if_neg hv)

open Classical in
/-- A coercion that is a plain cast or nothing. -/
theorem exactOrReverts_iff_of_plain {exact coerced : Sol} {plain : Prop} (hpos : 0 < target.width)
    (h : coerced.eval R = if plain then (exact.eval R).map target.wrap else exact.eval R) :
    ExactOrReverts R exact coerced ↔ (plain → ∀ v, exact.eval R = some v → target.Fits v) := by
  rw [ExactOrReverts, h]
  by_cases hplain : plain
  · rw [if_pos hplain]
    cases exact.eval R with
    | none => simp
    | some v =>
      rw [Option.map_some, Option.some_inj, IntType.wrap_eq_iff hpos]
      simp [hplain]
  · rw [if_neg hplain]
    simp [hplain]

open Classical in
/-- Away from explicit casts, a coercion is a plain cast or nothing. -/
theorem eval_coerceAt {inEntity : Bool} {sink : Sink} (hpos : 0 < target.width)
    (himplicit : sink ≠ .explicitCast) :
    (coerceAt D inEntity target sol expr sink).eval R =
      if PlainCast D inEntity target expr sink then
        ((uncoerced target sol expr sink).eval R).map target.wrap
      else (uncoerced target sol expr sink).eval R := by
  have hslot : ∀ plain : Prop,
      plain = (if inEntity then NarrowsPlainly D target expr else WrapsPlainly target none) →
      (if inEntity then maybeNarrowCast D target sol expr else wrapNarrowCast target sol).eval R =
        if plain then (sol.eval R).map target.wrap else sol.eval R := by
    rintro _ rfl
    cases inEntity with
    | true => exact eval_maybeNarrowCast hpos
    | false => exact eval_wrapNarrowCastWithActual hpos none
  cases sink with
  | member | mappingSlot | localVar => exact eval_maybeNarrowCast hpos
  | recordField => exact hslot _ rfl
  | pureFnParam =>
    unfold uncoerced coerceAt PlainCast
    cases signedLiteral expr with
    | none => exact hslot _ rfl
    | some v =>
      cases target.signed with
      | false => exact hslot _ rfl
      | true => exact (if_pos trivial).symm
  | ret => exact eval_coerceReturnValue hpos
  | explicitCast => exact absurd rfl himplicit

/-- **Implicit narrowing.**  At every place, the coercion yields the value of the expression or
    reverts exactly when it is no plain cast or the type of the place has the value. -/
theorem coerced_exactOrReverts_iff (R : WordReading) (D : Declared) (inEntity : Bool)
    (target : IntType) (hpos : 0 < target.width) (sol : Sol) (expr : Expr) (sink : Sink) :
    ExactOrReverts R (uncoerced target sol expr sink)
        (coerceAt D inEntity target sol expr sink) ↔
      (PlainCast D inEntity target expr sink →
        ∀ v, (uncoerced target sol expr sink).eval R = some v → target.Fits v) := by
  by_cases himplicit : sink ≠ .explicitCast
  · exact exactOrReverts_iff_of_plain hpos (eval_coerceAt hpos himplicit)
  · rw [not_not] at himplicit
    subst himplicit
    by_cases hchecked : checkedDowncast target = true
    · have hexact : ExactOrReverts R (uncoerced target sol expr .explicitCast)
          (wrapCheckedNarrowCast target sol) := by
        apply exactOrReverts_checked
        rw [eval_wrapCheckedNarrowCast hpos, if_pos hchecked]
      refine ⟨fun _ hplain => ?_, fun _ => hexact⟩
      rw [PlainCast, hchecked] at hplain
      cases hplain
    · rw [Bool.not_eq_true] at hchecked
      have hplain : PlainCast D inEntity target expr .explicitCast := hchecked
      have heval : (wrapCheckedNarrowCast target sol).eval R = (sol.eval R).map target.wrap := by
        unfold wrapCheckedNarrowCast
        rw [hchecked]
        rfl
      apply exactOrReverts_iff_of_plain hpos
      rw [if_pos hplain, coerceAt, heval, uncoerced, hchecked]
      rfl

/-- `msg::value` is `value`, and nothing else has a value. -/
def paid (value : Int) : WordReading where
  rendered
    | .msgField "value" => some value
    | _ => none
  bin _ _ _ _ _ := none
  unary _ _ _ := none

/-- Nothing is declared. -/
def undeclared : Declared := ⟨fun _ => .num (uint 256), fun _ => .num (uint 256)⟩

/-- A payment of 5 goes into a `u64` member as it is. -/
theorem coerced_exactOrReverts_small :
    ExactOrReverts (paid 5) (.rendered (.msgField "value"))
      (coerceAt undeclared true (uint 64) (.rendered (.msgField "value")) (.msgField "value")
        .member) := by
  apply (coerced_exactOrReverts_iff (paid 5) undeclared true (uint 64) (by decide)
    (.rendered (.msgField "value")) (.msgField "value") .member).mpr
  intro _ v hv
  have hfive : some (5 : Int) = some v := hv
  cases hfive
  decide

/-- A payment of `2 ^ 64` is stored as 0. -/
theorem payment_truncated :
    coerceAt undeclared true (uint 64) (.rendered (.msgField "value")) (.msgField "value") .member =
        .convert (uint 64) (.rendered (.msgField "value")) ∧
      (Sol.convert (uint 64) (.rendered (.msgField "value"))).eval (paid (2 ^ 64)) = some 0 ∧
      ¬ ExactOrReverts (paid (2 ^ 64)) (.rendered (.msgField "value"))
        (coerceAt undeclared true (uint 64) (.rendered (.msgField "value")) (.msgField "value")
          .member) := by
  refine ⟨rfl, by decide, ?_⟩
  rintro (hreverts | hexact)
  · revert hreverts
    decide
  · revert hexact
    decide

end CambrianLang.Solidity
