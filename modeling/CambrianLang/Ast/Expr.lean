/-
  **Types, patterns and expressions** (`ast.rs`).

  The constructors are those of the source, with a `MatchArm` written as the pair
  of its pattern and its body.  `Expr.parts` lists the immediate subexpressions
  together with the names bound around each of them; it says what occurs in an
  expression and what a free occurrence of a name is.
-/
import CambrianLang.Core.U256
import CambrianLang.Lib.Traversal

namespace CambrianLang.Ast

open CambrianLang.Core Traversal Relation

/-- `enum Type`. -/
inductive Ty where
  | simple (name : String)
  | generic (name : String) (params : List Ty)
  | tuple (elems : List Ty)
  | typedAddress (entity : String)

inductive BinOp where
  | add | sub | mul | div | mod
  | wrappingAdd | wrappingSub | wrappingMul
  | bitAnd | bitOr | bitXor | shl | shr
  | eq | ne | lt | le | gt | ge
  | and | or
deriving DecidableEq

inductive UnaryOp where
  | not | neg | deref
deriving DecidableEq

inductive Pattern where
  | ident (name : String)
  | wildcard
  | tuple (elems : List Pattern)
  | deref (inner : Pattern)
  | some (inner : Pattern)
  | none

inductive MatchPattern where
  | enumVariant (enum variant : String)
  | enumVariantWithData (enum variant : String) (fields : List Pattern)
  | wildcard
  | intLiteral (value : U256)
  | boolLiteral (value : Bool)
  | ident (name : String)
  | some (inner : Pattern)
  | none

inductive Expr where
  | intLiteral (value : U256)
  | stringLiteral (value : String)
  | bytesLiteral (value : List UInt8)
  | boolLiteral (value : Bool)
  | arrayLit (elems : List Expr)
  | emptyCollection
  | ident (name : String)
  | temporalRef (name : String)
  | macroRef (name : String) (args : List Expr)
  | msgField (field : String)
  | sysField (field : String)
  | traceField (field : String)
  | traceCall (name route : String)
  | binOp (left : Expr) (op : BinOp) (right : Expr)
  | unaryOp (op : UnaryOp) (operand : Expr)
  | fieldAccess (base : Expr) (field : String)
  | index (base key : Expr)
  | methodCall (receiver : Expr) (method : String) (args : List Expr)
  | fnCall (name : String) (args : List Expr)
  | ifE (cond thenE : Expr) (elseE : Option Expr)
  | letE (pattern : Pattern) (value body : Expr)
  | block (items : List Expr)
  | recordConstruct (name : String) (fields : List (String × Expr))
  | recordUpdate (base : Expr) (fields : List (String × Expr))
  | closure (params : List Pattern) (body : Expr)
  | cast (operand : Expr) (ty : Ty)
  | tuple (elems : List Expr)
  | matchE (scrutinee : Expr) (arms : List (MatchPattern × Expr))
  | enumVariant (enum variant : String)
  | enumVariantWithData (enum variant : String) (args : List Expr)
  | someE (operand : Expr)
  | noneE
  | range (start stop : Expr)
  | forE (pattern : Pattern) (iter body : Expr)
  | namespacedCall (ns name : String) (args : List Expr) (typeParams : List Ty)
  | addressOf (entity : String) (args : List Expr) (withParams : List (String × Expr))
  | encode (targetType : Ty) (value : Expr)

/-! ### Binders -/

mutual
/-- The names a pattern binds. -/
def Pattern.names : Pattern → List String
  | .ident x => [x]
  | .wildcard => []
  | .tuple ps => patternNames ps
  | .deref p => p.names
  | .some p => p.names
  | .none => []
def patternNames : List Pattern → List String
  | [] => []
  | p :: ps => p.names ++ patternNames ps
end

/-- The names a match pattern binds. -/
def MatchPattern.names : MatchPattern → List String
  | .enumVariantWithData _ _ ps => patternNames ps
  | .ident x => [x]
  | .some p => p.names
  | .enumVariant _ _ | .wildcard | .intLiteral _ | .boolLiteral _ | .none => []

/-- A subexpression around which nothing is bound. -/
def unbound (e : Expr) : List String × Expr := ([], e)

/-- The immediate subexpressions, each with the names bound around it. -/
def Expr.parts : Expr → List (List String × Expr)
  | .intLiteral _ | .stringLiteral _ | .bytesLiteral _ | .boolLiteral _ | .emptyCollection
  | .ident _ | .temporalRef _ | .msgField _ | .sysField _ | .traceField _ | .traceCall _ _
  | .enumVariant _ _ | .noneE => []
  | .arrayLit es | .macroRef _ es | .fnCall _ es | .block es | .tuple es
  | .enumVariantWithData _ _ es | .namespacedCall _ _ es _ => es.map unbound
  | .binOp l _ r => [unbound l, unbound r]
  | .index b k => [unbound b, unbound k]
  | .range s e => [unbound s, unbound e]
  | .unaryOp _ e | .fieldAccess e _ | .cast e _ | .someE e | .encode _ e => [unbound e]
  | .methodCall b _ args => unbound b :: args.map unbound
  | .ifE c t e => unbound c :: unbound t :: e.toList.map unbound
  | .letE p v b => [unbound v, (p.names, b)]
  | .forE p it b => [unbound it, (p.names, b)]
  | .closure ps b => [(patternNames ps, b)]
  | .recordConstruct _ fs => fs.map fun f => unbound f.2
  | .recordUpdate b fs => unbound b :: fs.map fun f => unbound f.2
  | .matchE e arms => unbound e :: arms.map fun a => (a.1.names, a.2)
  | .addressOf _ args ws => args.map unbound ++ ws.map fun w => unbound w.2

/-- The immediate subexpressions. -/
def Expr.children (e : Expr) : List Expr := e.parts.map Prod.snd

/-! ### Size and subexpressions -/

mutual
/-- A size that decreases into subexpressions. -/
def Expr.rank : Expr → Nat
  | .intLiteral _ | .stringLiteral _ | .bytesLiteral _ | .boolLiteral _ | .emptyCollection
  | .ident _ | .temporalRef _ | .msgField _ | .sysField _ | .traceField _ | .traceCall _ _
  | .enumVariant _ _ | .noneE => 0
  | .arrayLit es | .macroRef _ es | .fnCall _ es | .block es | .tuple es
  | .enumVariantWithData _ _ es | .namespacedCall _ _ es _ => 1 + rankList es
  | .binOp l _ r => 1 + l.rank + r.rank
  | .index b k => 1 + b.rank + k.rank
  | .range s e => 1 + s.rank + e.rank
  | .unaryOp _ e | .fieldAccess e _ | .cast e _ | .someE e | .encode _ e => 1 + e.rank
  | .methodCall b _ args => 1 + b.rank + rankList args
  | .ifE c t e => 1 + c.rank + t.rank + rankOption e
  | .letE _ v b => 1 + v.rank + b.rank
  | .forE _ it b => 1 + it.rank + b.rank
  | .closure _ b => 1 + b.rank
  | .recordConstruct _ fs => 1 + rankFields fs
  | .recordUpdate b fs => 1 + b.rank + rankFields fs
  | .matchE e arms => 1 + e.rank + rankArms arms
  | .addressOf _ args ws => 1 + rankList args + rankFields ws
def rankOption : Option Expr → Nat
  | some e => e.rank
  | none => 0
def rankList : List Expr → Nat
  | [] => 0
  | e :: es => e.rank + rankList es
def rankFields : List (String × Expr) → Nat
  | [] => 0
  | (_, e) :: fs => e.rank + rankFields fs
def rankArms : List (MatchPattern × Expr) → Nat
  | [] => 0
  | (_, e) :: arms => e.rank + rankArms arms
end

theorem rank_le_rankList {e : Expr} {es : List Expr} (h : e ∈ es) : e.rank ≤ rankList es := by
  induction es with
  | nil => exact absurd h List.not_mem_nil
  | cons x xs ih =>
    simp only [rankList]
    rcases List.mem_cons.mp h with rfl | hx
    · exact Nat.le_add_right _ _
    · exact (ih hx).trans (Nat.le_add_left _ _)

theorem rank_le_rankFields {f : String × Expr} {fs : List (String × Expr)} (h : f ∈ fs) :
    f.2.rank ≤ rankFields fs := by
  induction fs with
  | nil => exact absurd h List.not_mem_nil
  | cons x xs ih =>
    simp only [rankFields]
    rcases List.mem_cons.mp h with rfl | hx
    · exact Nat.le_add_right _ _
    · exact (ih hx).trans (Nat.le_add_left _ _)

theorem rank_le_rankArms {a : MatchPattern × Expr} {arms : List (MatchPattern × Expr)}
    (h : a ∈ arms) : a.2.rank ≤ rankArms arms := by
  induction arms with
  | nil => exact absurd h List.not_mem_nil
  | cons x xs ih =>
    simp only [rankArms]
    rcases List.mem_cons.mp h with rfl | hx
    · exact Nat.le_add_right _ _
    · exact (ih hx).trans (Nat.le_add_left _ _)

theorem mem_children_iff {e c : Expr} : c ∈ e.children ↔ ∃ bs, (bs, c) ∈ e.parts := by
  simp [Expr.children]

theorem mem_children_recordUpdate {b c : Expr} {fs : List (String × Expr)}
    (h : c ∈ fs.map Prod.snd) : c ∈ (Expr.recordUpdate b fs).children := by
  obtain ⟨f, hf, rfl⟩ := List.mem_map.mp h
  exact List.mem_map.mpr ⟨unbound f.2, List.mem_cons_of_mem _ (List.mem_map.mpr ⟨f, hf, rfl⟩), rfl⟩

theorem rank_le_of_mem_list {bs : List String} {c : Expr} {es : List Expr}
    (h : (bs, c) ∈ es.map unbound) : c.rank ≤ rankList es := by
  obtain ⟨x, hx, heq⟩ := List.mem_map.mp h
  cases heq
  exact rank_le_rankList hx

theorem rank_le_of_mem_fields {bs : List String} {c : Expr} {fs : List (String × Expr)}
    (h : (bs, c) ∈ fs.map fun f => unbound f.2) : c.rank ≤ rankFields fs := by
  obtain ⟨x, hx, heq⟩ := List.mem_map.mp h
  cases heq
  exact rank_le_rankFields hx

theorem rank_le_of_mem_arms {bs : List String} {c : Expr} {arms : List (MatchPattern × Expr)}
    (h : (bs, c) ∈ arms.map fun a => (a.1.names, a.2)) : c.rank ≤ rankArms arms := by
  obtain ⟨x, hx, heq⟩ := List.mem_map.mp h
  cases heq
  exact rank_le_rankArms hx

theorem rank_part_lt {e c : Expr} {bs : List String} (h : (bs, c) ∈ e.parts) :
    c.rank < e.rank := by
  cases e with
  | intLiteral | stringLiteral | bytesLiteral | boolLiteral | emptyCollection | ident | temporalRef
  | msgField | sysField | traceField | traceCall | enumVariant | noneE =>
    exact absurd h List.not_mem_nil
  | arrayLit es | macroRef _ es | fnCall _ es | block es | tuple es | enumVariantWithData _ _ es
  | namespacedCall _ _ es _ =>
    have hle := rank_le_of_mem_list h
    simp only [Expr.rank]
    omega
  | binOp | index | range | unaryOp | fieldAccess | cast | someE | encode | letE | forE | closure =>
    simp only [Expr.parts, unbound, List.mem_cons, List.not_mem_nil, or_false, Prod.mk.injEq] at h
    simp only [Expr.rank]
    grind
  | ifE c t e =>
    simp only [Expr.parts, unbound, List.mem_cons, Prod.mk.injEq, List.mem_map,
      Option.mem_toList] at h
    simp only [Expr.rank]
    rcases h with ⟨-, rfl⟩ | ⟨-, rfl⟩ | ⟨x, rfl, -, rfl⟩
    · omega
    · omega
    · simp only [rankOption]
      omega
  | methodCall b _ args =>
    simp only [Expr.rank]
    rcases List.mem_cons.mp h with heq | hargs
    · cases heq
      omega
    · have hle := rank_le_of_mem_list hargs
      omega
  | recordConstruct _ fs =>
    have hle := rank_le_of_mem_fields h
    simp only [Expr.rank]
    omega
  | recordUpdate b fs =>
    simp only [Expr.rank]
    rcases List.mem_cons.mp h with heq | hfs
    · cases heq
      omega
    · have hle := rank_le_of_mem_fields hfs
      omega
  | matchE e arms =>
    simp only [Expr.rank]
    rcases List.mem_cons.mp h with heq | harms
    · cases heq
      omega
    · have hle := rank_le_of_mem_arms harms
      omega
  | addressOf _ args ws =>
    simp only [Expr.rank]
    rcases List.mem_append.mp h with hargs | hws
    · have hle := rank_le_of_mem_list hargs
      omega
    · have hle := rank_le_of_mem_fields hws
      omega

theorem rank_child_lt {e c : Expr} (h : c ∈ e.children) : c.rank < e.rank := by
  obtain ⟨bs, hpart⟩ := mem_children_iff.mp h
  exact rank_part_lt hpart

/-! ### Free occurrences -/

/-- From an expression to an immediate subexpression that is not under a binder of `x`. -/
def FreeStep (x : String) (a b : Expr) : Prop := ∃ bs, (bs, b) ∈ a.parts ∧ x ∉ bs

/-- `x` occurs free in `e`: some path of subexpressions, none of whose steps binds
    `x`, ends in the identifier `x`. -/
def OccursFree (x : String) (e : Expr) : Prop := ReflTransGen (FreeStep x) e (.ident x)

/-- `x` occurs free in `e` below a subexpression that a traversal with the given
    visited children does not descend into. -/
def OccursSkipped (visited : Expr → List Expr) (x : String) (e : Expr) : Prop :=
  ∃ a b, ReflTransGen (fun s t => FreeStep x s t ∧ t ∈ visited s) e a ∧ FreeStep x a b ∧
    b ∉ visited a ∧ OccursFree x b

theorem OccursSkipped.occursFree {visited : Expr → List Expr} {x : String} {e : Expr}
    (h : OccursSkipped visited x e) : OccursFree x e := by
  obtain ⟨a, b, hpre, hstep, -, hpost⟩ := h
  have hfree : ReflTransGen (FreeStep x) e a :=
    ReflTransGen.mono (fun _ _ hst => hst.1) _ _ hpre
  exact hfree.trans (.head hstep hpost)

/-- A free occurrence is either visited or skipped. -/
theorem OccursFree.reached_or_skipped {x : String} {e : Expr} (h : OccursFree x e)
    (visited : Expr → List Expr) :
    ReflTransGen (fun s t => t ∈ visited s) e (.ident x) ∨ OccursSkipped visited x e := by
  rcases path_split h with hall | hskip
  · exact Or.inl (ReflTransGen.mono (fun _ _ hst => hst.2) _ _ hall)
  · exact Or.inr hskip

end CambrianLang.Ast
