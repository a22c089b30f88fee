/-
  **The wrapping operators on EVM** (the operators in `gen_expr`,
  `gen_binop_operands_solidity` and `gen_wrapping_op_helpers`).

  `+%`, `-%` and `*%` become calls of helpers that work on 256-bit words.  What such a
  call returns is cast to the type of a place that a value is bound to; an operator
  around it takes the word as it is.
-/
import CambrianLang.Solidity.NarrowCasts

namespace CambrianLang.Solidity

open Ast MachineInt Relation

/-! ### Operators -/

variable (D : Declared) (inEntity : Bool) (expected : Option IntType)

/-- `operand_ty`: outside of an entity only names have a type. -/
def operandTy (e : Expr) : Option InferredTy :=
  match inEntity, e with
  | true, e => some (inferLetTypeEntity D e)
  | false, .ident x => some (D.decl (.ident x))
  | false, _ => none

/-- The helper is the one for signed words. -/
def signedHelper (l r : Expr) : Bool :=
  [l, r].any fun e => (operandTy D inEntity e).any InferredTy.signed

/-- The operators of `solidity_coerce_binop_operands`. -/
def promotesSign : BinOp → Bool
  | .add | .sub | .mul | .div | .mod | .lt | .le | .gt | .ge | .eq | .ne => true
  | _ => false

/-- `print_coerced_sol_operand` for `CoerceKind::SignPromote`. -/
def signPromote (ty : InferredTy) (sol : Sol) : Sol :=
  if ty.unsigned then .convert (sint 256) (.convert (uint 256) sol) else .convert (sint 256) sol

/-- `gen_binop_operands_solidity`, for operands that are integers or `bool`s. -/
def binopOperand (op : BinOp) (ty other : InferredTy) (sol : Sol) : Sol :=
  if op = .and ∨ op = .or then (if ty = .bool then sol else .nonzero sol)
  else if promotesSign op ∧ (ty.signed ∧ other.unsigned ∨ ty.unsigned ∧ other.signed) then
    signPromote ty sol
  else sol

/-- The text starts with `_camI2U(` or `_camU2I(`. -/
def isSignCast : Sol → Bool
  | .camI2U _ | .camU2I _ => true
  | _ => false

/-- The source type that `as` looks at. -/
def castSource (value : Expr) : Option InferredTy :=
  match value with
  | .intLiteral _ | .unaryOp .neg (.intLiteral _) => none
  | _ => operandTy D inEntity value

/-- `as` between integer types, `v` being the operand. -/
def genCast (src : Option InferredTy) (v : Sol) (t : IntType) : Sol :=
  if src = some .bool then .ofBool v t
  else
    let v :=
      if src.any InferredTy.signed ∧ t.signed = false then .camI2U (.convert (sint 256) v)
      else if src.any InferredTy.unsigned ∧ t.signed then .camU2I (.convert (uint 256) v)
      else v
    if t.width = 256 then (if isSignCast v then v else .convert t v)
    else wrapCheckedNarrowCast t v

/-- `gen_expr` for the operators; the other forms are rendered as they are. -/
def genExpr : Expr → Sol
  | .binOp l op r =>
    if isWrappingOp op then
      .wrapping (signedHelper D inEntity l r) op (genExpr l) (genExpr r)
    else if inEntity then
      let lty := actualSolType D l
      let rty := actualSolType D r
      let rendered :=
        Sol.bin (binopOperand op lty rty (genExpr l)) op (binopOperand op rty lty (genExpr r))
      if isBoolOp op then rendered
      else
        match expected with
        | some target => maybeNarrowCast D target rendered (.binOp l op r)
        | none => rendered
    else .bin (genExpr l) op (genExpr r)
  | .unaryOp .not e => .unary .not (genExpr e)
  | .unaryOp .neg e =>
    match isIntLiteral e, inEntity, inferLetTypeEntity D e with
    | false, true, .num ⟨false, width⟩ => .bin (.zero (uint width)) .sub (genExpr e)
    | _, _, _ => .unary .neg (genExpr e)
  | .unaryOp .deref e => genExpr e
  | .cast e ty =>
    match solType ty with
    | .num t => genCast (castSource D inEntity e) (genExpr e) t
    | _ => .rendered (.cast e ty)
  | .intLiteral v =>
    if v.hi.toNat ≠ 0 then .convert (uint 256) (.rendered (.intLiteral v))
    else .rendered (.intLiteral v)
  | e => .rendered e

/-! ### Positions -/

/-- Where an expression of an integer type stands, operands of operators apart. -/
inductive Position where
  | condition | callArgument | member | mappingSlot | localVar | recordField | pureFnParam | ret
deriving DecidableEq

/-- The place that the position gives a type to. -/
def Position.sink : Position → Option Sink
  | .condition | .callArgument => none
  | .member => some .member
  | .mappingSlot => some .mappingSlot
  | .localVar => some .localVar
  | .recordField => some .recordField
  | .pureFnParam => some .pureFnParam
  | .ret => some .ret

/-- The expression as it is emitted at the position. -/
def emittedAt (T : IntType) (pos : Position) (e : Expr) : Sol :=
  match pos.sink with
  | some sink => coerceAt D inEntity T (genExpr D inEntity expected e) e sink
  | none => genExpr D inEntity expected e

/-- An operand of an operator. -/
inductive Operand : Expr → Expr → Prop
  | left (l op r) : Operand (.binOp l op r) l
  | right (l op r) : Operand (.binOp l op r) r
  | unary (op e) : Operand (.unaryOp op e) e
  | cast (e ty) : Operand (.cast e ty) e

/-- Where its operands have values, `seen` is the exact result of the operator modulo the
    width of the type. -/
def Reduced (R : WordReading) (T : IntType) (op : BinOp) (l r : Expr) (seen : Sol) : Prop :=
  ∀ a b, (genExpr D inEntity expected l).eval R = some a →
    (genExpr D inEntity expected r).eval R = some b →
    seen.eval R = some (T.wrap (exactResult op a b))

/-- Every wrapping operator in the expression is reduced to its own width before anything
    around it sees the value. -/
def WrapsAtOwnWidth (R : WordReading) (T : IntType) (pos : Position) (e : Expr) : Prop :=
  (∀ l op r, e = .binOp l op r → isWrappingOp op = true →
    Reduced D inEntity expected R T op l r (emittedAt D inEntity expected T pos e)) ∧
  ∀ l op r, TransGen Operand e (.binOp l op r) → isWrappingOp op = true →
    Reduced D inEntity expected R T op l r (genExpr D inEntity expected (.binOp l op r))

/-- The exact result, in the word of the helper, is in the range of the type. -/
def WordFits (R : WordReading) (T : IntType) (op : BinOp) (l r : Expr) : Prop :=
  ∀ a b, (genExpr D inEntity expected l).eval R = some a →
    (genExpr D inEntity expected r).eval R = some b →
    T.Fits ((helperWord (signedHelper D inEntity l r)).wrap (exactResult op a b))

/-- The position casts what is bound there. -/
def Position.Narrows (T : IntType) (pos : Position) : Prop := pos.sink ≠ none ∧ T.width ≠ 256

variable {D inEntity expected} {R : WordReading} {T : IntType} {pos : Position} {op : BinOp}
variable {l r e : Expr}

theorem genExpr_wrapping (hop : isWrappingOp op = true) :
    genExpr D inEntity expected (.binOp l op r) =
      .wrapping (signedHelper D inEntity l r) op (genExpr D inEntity expected l)
        (genExpr D inEntity expected r) := by
  rw [genExpr, if_pos hop]

theorem eval_wrapping {a b : Int} (hop : isWrappingOp op = true)
    (ha : (genExpr D inEntity expected l).eval R = some a)
    (hb : (genExpr D inEntity expected r).eval R = some b) :
    (genExpr D inEntity expected (.binOp l op r)).eval R =
      some ((helperWord (signedHelper D inEntity l r)).wrap (exactResult op a b)) := by
  rw [genExpr_wrapping hop, Sol.eval, ha, hb]
  rfl

/-- The integer types of the language. -/
theorem solType_num {ty : Ty} (h : solType ty = .num T) :
    0 < T.width ∧ T.width ≤ 256 ∧ (narrowPrim T = true ∧ T.width ≠ 256 ∨ T = uint 256) := by
  unfold solType at h
  split at h <;> cases h <;> decide

/-- **A helper's word as it is** is reduced exactly when it is in the range of the type. -/
theorem reduced_iff_wordFits (hpos : 0 < T.width) (hwide : T.width ≤ 256)
    (hop : isWrappingOp op = true) :
    Reduced D inEntity expected R T op l r (genExpr D inEntity expected (.binOp l op r)) ↔
      WordFits D inEntity expected R T op l r := by
  apply forall₄_congr
  intro a b ha hb
  rw [eval_wrapping hop ha hb, Option.some_inj]
  exact IntType.wrap_eq_wrap_iff hpos hwide _

theorem sink_ne_explicitCast {sink : Sink} (h : pos.sink = some sink) : sink ≠ .explicitCast := by
  cases pos <;> cases h <;> exact Sink.noConfusion

/-- Wherever a value is bound, the word of a helper is taken for a `uint256`. -/
theorem plainCast_wrapping {sink : Sink} (hop : isWrappingOp op = true)
    (himplicit : sink ≠ .explicitCast) :
    PlainCast D inEntity T (.binOp l op r) sink ↔ narrowPrim T = true ∧ T.width ≠ 256 := by
  have hactual : actualSolType D (.binOp l op r) = .num (uint 256) := by
    rw [actualSolType, if_pos hop]
  have hnarrow : narrowPrim T = true → T.width ≠ 256 := by
    intro hprim
    have hle := narrowPrim_width hprim
    omega
  have hkeep : T.width ≠ 256 → uint 256 ≠ T := fun hwidth heq => hwidth (heq ▸ rfl)
  have hmaybe : NarrowsPlainly D T (.binOp l op r) ↔ narrowPrim T = true ∧ T.width ≠ 256 := by
    simp only [NarrowsPlainly, WrapsPlainly, hactual, castsBool]
    constructor
    · rintro ⟨-, -, -, hprim, -⟩
      exact ⟨hprim, hnarrow hprim⟩
    · rintro ⟨hprim, hwidth⟩
      simpa [hprim] using hkeep hwidth
  have hslot : (if inEntity then NarrowsPlainly D T (.binOp l op r) else WrapsPlainly T none) ↔
      narrowPrim T = true ∧ T.width ≠ 256 := by
    cases inEntity with
    | true => exact hmaybe
    | false =>
      simp only [WrapsPlainly, Bool.false_eq_true, if_false]
      constructor
      · rintro ⟨-, hprim, -⟩
        exact ⟨hprim, hnarrow hprim⟩
      · rintro ⟨hprim, -⟩
        simpa using hprim
  cases sink with
  | member | mappingSlot | localVar => exact hmaybe
  | recordField | pureFnParam => exact hslot
  | ret =>
    unfold PlainCast
    by_cases hwidth : T.width ≠ 256
    · simp [hwidth, isOperator]
    · rw [if_neg hwidth]
      exact hmaybe
  | explicitCast => exact absurd rfl himplicit

/-- **A wrapping operator at a position** is reduced when the position casts it, or when the
    word is in the range of the type. -/
theorem reduced_emittedAt_iff {ty : Ty} (hty : solType ty = .num T) (hop : isWrappingOp op = true) :
    Reduced D inEntity expected R T op l r
        (emittedAt D inEntity expected T pos (.binOp l op r)) ↔
      pos.Narrows T ∨ WordFits D inEntity expected R T op l r := by
  obtain ⟨hpos, hwide, hprim⟩ := solType_num hty
  cases hsink : pos.sink with
  | none =>
    have hplain : emittedAt D inEntity expected T pos (.binOp l op r) =
        genExpr D inEntity expected (.binOp l op r) := by
      rw [emittedAt, hsink]
    have hnot : ¬ pos.Narrows T := fun h => h.1 hsink
    rw [hplain, reduced_iff_wordFits hpos hwide hop]
    simp only [hnot, false_or]
  | some sink =>
    have himplicit := sink_ne_explicitCast hsink
    have hcoerced : emittedAt D inEntity expected T pos (.binOp l op r) =
        coerceAt D inEntity T (genExpr D inEntity expected (.binOp l op r)) (.binOp l op r) sink := by
      rw [emittedAt, hsink]
    have hsame : uncoerced T (genExpr D inEntity expected (.binOp l op r)) (.binOp l op r) sink =
        genExpr D inEntity expected (.binOp l op r) := by
      cases sink with
      | explicitCast => exact absurd rfl himplicit
      | _ => rfl
    rcases hprim with ⟨hprim, hwidth⟩ | rfl
    · have hnarrows : pos.Narrows T := ⟨by simp [hsink], hwidth⟩
      simp only [hnarrows, true_or, iff_true]
      intro a b ha hb
      rw [hcoerced, eval_coerceAt hpos himplicit, hsame,
        if_pos ((plainCast_wrapping hop himplicit).mpr ⟨hprim, hwidth⟩), eval_wrapping hop ha hb,
        Option.map_some, IntType.wrap_wrap hwide]
    · have hnot : ¬ pos.Narrows (uint 256) := fun h => h.2 rfl
      have hkept : ∀ a b, (genExpr D inEntity expected l).eval R = some a →
          (genExpr D inEntity expected r).eval R = some b →
          (emittedAt D inEntity expected (uint 256) pos (.binOp l op r)).eval R =
            (genExpr D inEntity expected (.binOp l op r)).eval R := by
        intro a b _ _
        rw [hcoerced, eval_coerceAt hpos himplicit, hsame,
          if_neg fun h => ((plainCast_wrapping hop himplicit).mp h).2 rfl]
      simp only [hnot, false_or]
      rw [← reduced_iff_wordFits hpos hwide hop]
      apply forall₄_congr
      intro a b ha hb
      rw [hkept a b ha hb]

/-! ### Nesting -/

variable {call sol : Sol}

/-! ### Own widths -/

/-- **The wrapping operators wrap at their own width** exactly where the word is cast at the
    position, or the word of the exact result is in the range of the type. -/
theorem wrapsAtOwnWidth_iff (D : Declared) (inEntity : Bool) (expected : Option IntType)
    (R : WordReading) (ty : Ty) (T : IntType) (hty : solType ty = .num T) (pos : Position) (e : Expr) :
    WrapsAtOwnWidth D inEntity expected R T pos e ↔
      (∀ l op r, e = .binOp l op r → isWrappingOp op = true →
        pos.Narrows T ∨ WordFits D inEntity expected R T op l r) ∧
      ∀ l op r, TransGen Operand e (.binOp l op r) → isWrappingOp op = true →
        WordFits D inEntity expected R T op l r := by
  obtain ⟨hpos, hwide, -⟩ := solType_num hty
  apply and_congr
  · apply forall₅_congr
    rintro l op r rfl hop
    exact reduced_emittedAt_iff hty hop
  · apply forall₅_congr
    intro l op r _ hop
    exact reduced_iff_wordFits hpos hwide hop

/-- Three `u8` locals and the comparison of what two expressions give. -/
def bytes : WordReading where
  rendered
    | .ident "a" => some 255
    | .ident "b" => some 1
    | .ident "c" => some 0
    | _ => none
  bin
    | _, .eq, _, some a, some b => some (if a = b then 1 else 0)
    | _, _, _, _, _ => none
  unary _ _ _ := none

def byteLocals : Declared := ⟨fun _ => .num (uint 8), fun _ => .num (uint 8)⟩

/-- `a +% b`. -/
def sumOfBytes : Expr := .binOp (.ident "a") .wrappingAdd (.ident "b")

/-- What `255 +% 1` stores in a `u8` member is reduced. -/
theorem wrapsAtOwnWidth_member :
    WrapsAtOwnWidth byteLocals true none bytes (uint 8) .member sumOfBytes := by
  apply (wrapsAtOwnWidth_iff byteLocals true none bytes (.simple "u8") (uint 8) rfl .member
    sumOfBytes).mpr
  constructor
  · intro _ _ _ _ _
    exact .inl ⟨nofun, by decide⟩
  · intro l op r hnested _
    obtain ⟨e, hoperand, hrest⟩ := TransGen.head'_iff.mp hnested
    cases hoperand with
    | left | right =>
      rcases ReflTransGen.cases_head hrest with heq | ⟨_, hstep, _⟩
      · cases heq
      · cases hstep

/-- In a condition, `255 +% 1 == 0` compares 256. -/
theorem comparison_of_unreduced :
    emittedAt byteLocals true none (uint 8) .condition (.binOp sumOfBytes .eq (.ident "c")) =
        .bin (.wrapping false .wrappingAdd (.rendered (.ident "a")) (.rendered (.ident "b"))) .eq
          (.rendered (.ident "c")) ∧
      (emittedAt byteLocals true none (uint 8) .condition
        (.binOp sumOfBytes .eq (.ident "c"))).eval bytes = some 0 ∧
      ¬ WrapsAtOwnWidth byteLocals true none bytes (uint 8) .condition
        (.binOp sumOfBytes .eq (.ident "c")) := by
  refine ⟨rfl, by decide, ?_⟩
  rintro ⟨-, hnested⟩
  have hreduced := hnested (.ident "a") .wrappingAdd (.ident "b")
    (.single (.left sumOfBytes .eq (.ident "c"))) rfl 255 1 rfl rfl
  revert hreduced
  decide

end CambrianLang.Solidity
