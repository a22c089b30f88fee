/-
  **Map member transforms in the Lean back end** (`codegen/lean/core/hashmap.rs`):
  the value a transform body is lowered to and the update of the key list that is
  written next to it.

  Expressions other than map operations are left open: a `Meaning` says what the
  term written for one evaluates to in a state and a scope.
-/
import CambrianLang.Ast.Entity
import CambrianLang.Prelude.AddressMap

namespace CambrianLang.Ghost

open Ast Prelude

/-- The entity's generated `State`: map members, their key lists and the other members. -/
structure State (Val : Type) [DecidableEq Val] where
  maps : String → AddressMap Val Val
  keys : String → List Val
  vals : String → Val

/-- The Lean variables in scope. -/
abbrev Scope (Val : Type) := String → Option Val

/-- What the terms of `gen_expr` that are no map operations mean. -/
structure Meaning (Val : Type) [DecidableEq Val] where
  expr : State Val → Scope Val → Expr → Val
  truth : Val → Bool
  asMap : Val → AddressMap Val Val
  bind : Pattern → Val → Scope Val → Scope Val

/-! ### Map operations -/

inductive MapOp where
  | put (key value : Expr)
  | del (key : Expr)

/-- `insert` and `update` with two arguments, `remove` with one. -/
def mapOp (method : String) : List Expr → Option MapOp
  | [k, v] => if method = "insert" ∨ method = "update" then some (.put k v) else none
  | [k] => if method = "remove" then some (.del k) else none
  | _ => none

/-- `map_member_name`. -/
def mapMemberName : Expr → Option String
  | .ident name => some name
  | .methodCall base _ _ => mapMemberName base
  | .index base _ => mapMemberName base
  | _ => none

/-- `member_is_hashmap`. -/
def memberIsHashmap (m : Member) : Bool :=
  match m.ty with
  | .generic name params => name == "HashMap" && params.length == 2
  | _ => false

def isMapMember (entity : Entity) (name : String) : Bool :=
  entity.members.any fun m => m.name == name && memberIsHashmap m

/-! ### Values -/

section Lowering

variable {Val : Type} [DecidableEq Val] (M : Meaning Val) (entity : Entity) (s : State Val)

/-- `try_gen_map_method_call`: the map an operation is applied to.  A receiver that is no
    operation itself stands for the member its name is. -/
def receiverValue (ρ : Scope Val) : Expr → AddressMap Val Val
  | .emptyCollection => AddressMap.empty
  | .methodCall base method args =>
      match mapOp method args with
      | some (.put k v) => (receiverValue ρ base).insert (M.expr s ρ k) (M.expr s ρ v)
      | some (.del k) => (receiverValue ρ base).remove (M.expr s ρ k)
      | none => M.asMap (M.expr s ρ (.methodCall base method args))
  | e =>
      match mapMemberName e with
      | some name => if isMapMember entity name then s.maps name else M.asMap (M.expr s ρ e)
      | none => M.asMap (M.expr s ρ e)

mutual
/-- `gen_expr` on the body of a map transform. -/
def mapValue : Scope Val → Expr → AddressMap Val Val
  | _, .emptyCollection => AddressMap.empty
  | ρ, .ident name =>
      match ρ name with
      | some v => M.asMap v
      | none => if isMapMember entity name then s.maps name else M.asMap (M.expr s ρ (.ident name))
  | ρ, .methodCall base method args => receiverValue M entity s ρ (.methodCall base method args)
  | ρ, .ifE c t (some e) => if M.truth (M.expr s ρ c) then mapValue ρ t else mapValue ρ e
  | ρ, .letE p v b => mapValue (M.bind p (M.expr s ρ v) ρ) b
  | ρ, .block items => lastValue ρ items
  | ρ, e => M.asMap (M.expr s ρ e)
def lastValue : Scope Val → List Expr → AddressMap Val Val
  | ρ, [] => M.asMap (M.expr s ρ (.block []))
  | ρ, [e] => mapValue ρ e
  | ρ, _ :: e :: es => lastValue ρ (e :: es)
end

end Lowering

/-! ### The key update -/

/-- `collect_insert_keys`. -/
def collectInsertKeys (member : String) : Expr → List Expr
  | .methodCall base method args =>
      match mapOp method args with
      | some (.put k _) =>
          collectInsertKeys member base ++ if mapMemberName base = some member then [k] else []
      | _ => []
  | _ => []

/-- `extract_last_remove_key`. -/
def extractLastRemoveKey (member : String) : Expr → Option Expr
  | .methodCall base method args =>
      match mapOp method args with
      | some (.del k) =>
          if mapMemberName base = some member then some k else extractLastRemoveKey member base
      | _ => extractLastRemoveKey member base
  | _ => none

/-- The terms written for a key list; `ghost` is the member's own list. -/
inductive KeysTerm where
  | ghost
  | nil
  | ite (cond : Expr) (thenT elseT : KeysTerm)
  | push (keys : KeysTerm) (key : Expr)
  | drop (keys : KeysTerm) (key : Expr)

/-- `keys_update_term` on a body that is a method call. -/
def chainUpdate (member : String) (base : Expr) (method : String) (args : List Expr) :
    Option KeysTerm :=
  if mapMemberName base = some member then
    match mapOp method args with
    | some (.put _ _) =>
        some ((collectInsertKeys member (.methodCall base method args)).foldl .push .ghost)
    | some (.del k) => some (.drop .ghost k)
    | none => (extractLastRemoveKey member base).map (.drop .ghost)
  else none

mutual
/-- `keys_update_term`. -/
def keysUpdateTerm (member : String) : Expr → Option KeysTerm
  | .emptyCollection => some .nil
  | .ifE c t none =>
      match keysUpdateTerm member t with
      | some term => some (.ite c term .ghost)
      | none => none
  | .ifE c t (some e) =>
      match keysUpdateTerm member t, keysUpdateTerm member e with
      | none, none => none
      | some term, some term' => some (.ite c term term')
      | some term, none => some (.ite c term .ghost)
      | none, some term' => some (.ite c .ghost term')
  | .block items => lastUpdate member items
  | .letE _ _ b => keysUpdateTerm member b
  | .methodCall base method args => chainUpdate member base method args
  | _ => none
def lastUpdate (member : String) : List Expr → Option KeysTerm
  | [] => none
  | [e] => keysUpdateTerm member e
  | _ :: e :: es => lastUpdate member (e :: es)
end

section Keys

variable {Val : Type} [DecidableEq Val] (M : Meaning Val) (entity : Entity) (s : State Val)

/-- What a key-list term evaluates to, in the scope it is written in. -/
def KeysTerm.eval (ρ : Scope Val) (ghost : List Val) : KeysTerm → List Val
  | .ghost => ghost
  | .nil => []
  | .ite c t e => if M.truth (M.expr s ρ c) then t.eval ρ ghost else e.eval ρ ghost
  | .push t k => AddressMap.pushKeyIfNew (t.eval ρ ghost) (M.expr s ρ k)
  | .drop t k => AddressMap.removeKey (t.eval ρ ghost) (M.expr s ρ k)

/-- The key list after a transform; without an update it stays. -/
def keysAfter (ρ : Scope Val) (member : String) (body : Expr) : List Val :=
  match keysUpdateTerm member body with
  | some term => term.eval M s ρ (s.keys member)
  | none => s.keys member

/-! ### When the update follows the value -/

/-- A chain without the insertions it ends in. -/
def stripInserts : Expr → Expr
  | .methodCall base method args =>
      match mapOp method args with
      | some (.put _ _) => stripInserts base
      | _ => .methodCall base method args
  | e => e

/-- The keys `ks` mean the same where the update is written as in the transform. -/
def SameKeys (ρ₀ ρ : Scope Val) (ks : List Expr) : Prop := ∀ k ∈ ks, M.expr s ρ₀ k = M.expr s ρ k

/-- Apart from the keys `ks` the map has the keys the member had. -/
def OthersKept (ρ : Scope Val) (member : String) (ks : List Expr) (m : AddressMap Val Val) : Prop :=
  ∀ x, (∀ k ∈ ks, x ≠ M.expr s ρ k) → (x ∈ m.keys ↔ x ∈ (s.maps member).keys)

/-- The update looks at the insertions a chain on the member ends in, or at the removal it ends
    in; whatever comes before must leave the other keys alone. -/
def ChainFollows (ρ₀ ρ : Scope Val) (member : String) (base : Expr) (method : String)
    (args : List Expr) : Prop :=
  if mapMemberName base = some member then
    match mapOp method args with
    | some (.put _ _) =>
        SameKeys M s ρ₀ ρ (collectInsertKeys member (.methodCall base method args)) ∧
          OthersKept M s ρ member (collectInsertKeys member (.methodCall base method args))
            (receiverValue M entity s ρ (stripInserts base))
    | some (.del k) =>
        SameKeys M s ρ₀ ρ [k] ∧ OthersKept M s ρ member [k] (receiverValue M entity s ρ base)
    | none =>
        extractLastRemoveKey member base = none ∧
          OthersKept M s ρ member [] (mapValue M entity s ρ (.methodCall base method args))
  else OthersKept M s ρ member [] (mapValue M entity s ρ (.methodCall base method args))

mutual
/-- The update follows the value of the body: `ρ` is the scope of the transform, `ρ₀` the one
    the update is written in.  An `if` without `else` has no map value. -/
def Follows (ρ₀ : Scope Val) (member : String) : Scope Val → Expr → Prop
  | _, .emptyCollection => True
  | _, .ifE _ _ none => False
  | ρ, .ifE c t (some e) =>
      (M.truth (M.expr s ρ₀ c) = M.truth (M.expr s ρ c) ∨
        (keysUpdateTerm member t = none ∧ keysUpdateTerm member e = none)) ∧
      if M.truth (M.expr s ρ c) then Follows ρ₀ member ρ t else Follows ρ₀ member ρ e
  | ρ, .letE p v b => Follows ρ₀ member (M.bind p (M.expr s ρ v) ρ) b
  | ρ, .block items => LastFollows ρ₀ member ρ items
  | ρ, .methodCall base method args => ChainFollows M entity s ρ₀ ρ member base method args
  | ρ, e => OthersKept M s ρ member [] (mapValue M entity s ρ e)
def LastFollows (ρ₀ : Scope Val) (member : String) : Scope Val → List Expr → Prop
  | _, [] => False
  | ρ, [e] => Follows ρ₀ member ρ e
  | ρ, _ :: e :: es => LastFollows ρ₀ member ρ (e :: es)
end

end Keys

end CambrianLang.Ghost
