/-
  **Values and the patterns that match them.**

  Types are read in the scope of an entity, or of the program for code outside
  entities: aliases are resolved, then the name is a primitive type or one of the
  enums in scope.  A type the patterns cannot look into has unnamed values.
-/
import CambrianLang.Lib.PatternCoverage
import CambrianLang.Validate.EvmTypes

namespace CambrianLang.Semantics

open Ast PatternCoverage Validate

/-! ### Types -/

inductive Ctor where
  | bool (value : Bool)
  | int (value : Int)
  | noneC
  | someC
  | tuple (arity : Nat)
  | variant (enum variant : String)
  | other (id : Nat)
deriving DecidableEq

abbrev Value := Val Ctor

/-- What a type is to a pattern. -/
inductive Shape where
  | bool
  | int (lo hi : Int)
  | option (elem : Ty)
  | tuple (elems : List Ty)
  | enum (decl : EnumDecl)
  | other

/-- `usize` and `isize` as wide as the widest target has them. -/
def unsignedWidths : List (String × Nat) :=
  [("u8", 8), ("u16", 16), ("u32", 32), ("u64", 64), ("u128", 128), ("U256", 256), ("usize", 256),
    ("uint8", 8), ("uint16", 16), ("uint32", 32), ("uint64", 64), ("uint128", 128), ("uint256", 256)]

def signedWidths : List (String × Nat) :=
  [("i8", 8), ("i16", 16), ("i32", 32), ("i64", 64), ("i128", 128), ("isize", 256),
    ("int8", 8), ("int16", 16), ("int32", 32), ("int64", 64), ("int128", 128), ("int256", 256)]

def intRange (name : String) : Option (Int × Int) :=
  ((unsignedWidths.lookup name).map fun w => (0, 2 ^ w - 1)).or
    ((signedWidths.lookup name).map fun w => (-2 ^ (w - 1), 2 ^ (w - 1) - 1))

section Scope

variable (program : Program) (entity : Option Entity)

def enumsInScope : List EnumDecl := ((entity.map (·.enums)).getD []) ++ program.enums

def nameShape (name : String) : Shape :=
  if name = "bool" then .bool
  else
    match intRange name with
    | some (lo, hi) => .int lo hi
    | none =>
        match (enumsInScope program entity).find? (·.name == name) with
        | some decl => .enum decl
        | none => .other

def shape (ty : Ty) : Shape :=
  match resolveAliasForValidate program entity (aliasCount program entity + 1) ty with
  | .simple name => nameShape program entity name
  | .generic "Option" [elem] => .option elem
  | .generic _ _ => .other
  | .tuple elems => .tuple elems
  | .typedAddress _ => .other

/-- The constructors of a shape, with the types of their arguments. -/
def Shape.args : Shape → Ctor → Option (List Ty)
  | .bool, .bool _ => some []
  | .int lo hi, .int n => if lo ≤ n ∧ n ≤ hi then some [] else none
  | .option _, .noneC => some []
  | .option elem, .someC => some [elem]
  | .tuple elems, .tuple n => if n = elems.length then some elems else none
  | .enum decl, .variant e c =>
      if e = decl.name then (decl.variants.find? (·.name == c)).map (·.fields) else none
  | .other, .other _ => some []
  | _, _ => none

theorem of_args_bool {c : Ctor} {ts : List Ty} (h : Shape.bool.args c = some ts) :
    ∃ b, c = .bool b := by
  cases c with
  | bool b => exact ⟨b, rfl⟩
  | int | noneC | someC | tuple | variant | other => cases h

theorem of_args_option {elem : Ty} {c : Ctor} {ts : List Ty}
    (h : (Shape.option elem).args c = some ts) : c = .someC ∨ c = .noneC := by
  cases c with
  | someC => exact Or.inl rfl
  | noneC => exact Or.inr rfl
  | bool | int | tuple | variant | other => cases h

theorem of_args_int {lo hi : Int} {c : Ctor} {ts : List Ty}
    (h : (Shape.int lo hi).args c = some ts) : ∃ n, c = .int n ∧ lo ≤ n ∧ n ≤ hi := by
  cases c with
  | int n =>
    simp only [Shape.args] at h
    split at h
    · rename_i hn
      exact ⟨n, rfl, hn⟩
    · cases h
  | bool | noneC | someC | tuple | variant | other => cases h

theorem of_args_enum {decl : EnumDecl} {c : Ctor} {ts : List Ty}
    (h : (Shape.enum decl).args c = some ts) :
    ∃ v ∈ decl.variants, c = .variant decl.name v.name := by
  cases c with
  | variant e var =>
    simp only [Shape.args] at h
    split at h
    · rename_i he
      obtain ⟨v, hv, -⟩ := Option.map_eq_some_iff.mp h
      have hname : v.name = var := by simpa using List.find?_some hv
      exact ⟨v, List.mem_of_find?_eq_some hv, by rw [he, hname]⟩
    · cases h
  | bool | int | noneC | someC | tuple | other => cases h

/-- The constructors that nested patterns ask for, beside one of them. -/
def siblings : Ctor → List (Ctor × Nat)
  | .noneC | .someC => [(.noneC, 0), (.someC, 1)]
  | .tuple n => [(.tuple n, n)]
  | _ => []

theorem mem_siblings {s : Shape} {c : Ctor} {ts : List Ty} (h : s.args c = some ts)
    (hne : siblings c ≠ []) (d : Ctor) (k : Nat) :
    (d, k) ∈ siblings c ↔ ∃ us, s.args d = some us ∧ us.length = k := by
  cases s <;> cases c <;> simp [Shape.args, siblings] at h hne <;>
    cases d <;> simp [Shape.args, siblings] <;> grind

theorem siblings_ne_nil {s : Shape} {c d : Ctor} {ts us : List Ty} (h : s.args c = some ts)
    (hne : siblings c ≠ []) (hd : s.args d = some us) : siblings d ≠ [] := by
  have hmem := (mem_siblings h hne d us.length).mpr ⟨us, hd, rfl⟩
  cases c <;> simp [siblings] at hmem hne <;> grind [siblings]

def typing : Signature Ctor Ty where
  args ty c := (shape program entity ty).args c
  siblings := siblings
  mem_siblings h hne := mem_siblings h hne
  siblings_ne_nil h hne hd := siblings_ne_nil h hne hd

end Scope

end CambrianLang.Semantics

namespace CambrianLang.Ast

open PatternCoverage Semantics

/-! ### Patterns -/

mutual
/-- A nested pattern; names bind what they match. -/
def Pattern.toPat : Pattern → Pat Ctor
  | .ident _ => .wild
  | .wildcard => .wild
  | .tuple ps => .con (.tuple ps.length) (toPats ps)
  | .deref p => p.toPat
  | .some p => .con .someC [p.toPat]
  | .none => .con .noneC []
def toPats : List Pattern → List (Pat Ctor)
  | [] => []
  | p :: ps => p.toPat :: toPats ps
end

/-- The constructor the pattern asks for. -/
def MatchPattern.head : MatchPattern → Option Ctor
  | .wildcard | .ident _ => .none
  | .intLiteral n => .some (.int n.toNat)
  | .boolLiteral b => .some (.bool b)
  | .none => .some .noneC
  | .some _ => .some .someC
  | .enumVariant e c | .enumVariantWithData e c _ => .some (.variant e c)

/-- The patterns for its arguments; a variant may be named without any. -/
def MatchPattern.fields : MatchPattern → Option (List Pattern)
  | .some p => .some [p]
  | .enumVariantWithData _ _ ps => .some ps
  | _ => .none

/-- The pattern is one for values of that type. -/
def MatchPattern.fits (S : Signature Ctor Ty) (p : MatchPattern) (ty : Ty) : Bool :=
  match p.head with
  | .none => true
  | .some c =>
      match S.args ty c, p.fields with
      | .none, _ => false
      | .some _, .none => true
      | .some ts, .some ps => allFit S (toPats ps) ts

def MatchPattern.matches (p : MatchPattern) : Value → Bool
  | .node c vs =>
      match p.head, p.fields with
      | .none, _ => true
      | .some d, .none => decide (d = c)
      | .some d, .some ps => decide (d = c) && allMatch (toPats ps) vs

end CambrianLang.Ast
