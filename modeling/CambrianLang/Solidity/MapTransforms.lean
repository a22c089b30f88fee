/-
  **Map member transforms in the Solidity back end** (`gen_mapping_transform_split`,
  `codegen/solidity/evm/transform.rs`): the storage writes a transform body becomes.

  Keys, values and conditions are read into locals before anything is written,
  except that a branch of an `if` reads its own when it is entered.  What the
  Solidity of an expression evaluates to is left open: a `Reading` gives it for
  every place of the body, a place being the branches and items that lead there.
-/
import CambrianLang.Ghost.MapLowering
import CambrianLang.Lib.EnumerableMap
import CambrianLang.Validate.EvmTypes

namespace CambrianLang.Solidity

open Ast Ghost Validate

/-- A write of one entry. -/
inductive EntryWrite (Val : Type) where
  | put (key value : Val)
  | del (key : Val)

/-- What the Solidity of an expression evaluates to in a place, under the locals in scope. -/
abbrev Reading (Val : Type) := List Nat → Ghost.Scope Val → Expr → Val

/-- `is_hashmap_valued_expr`. -/
def isHashmapValuedExpr (entity : Entity) : Expr → Bool
  | .ident name =>
      match entity.members.find? (·.name == name) with
      | some m => isHashMap m.ty
      | none => false
  | .index (.ident name) _ =>
      match entity.members.find? (·.name == name) with
      | some m =>
          match m.ty with
          | .generic g [_, v] => g == "HashMap" && isHashMap v
          | _ => false
      | none => false
  | .ifE _ t _ => isHashmapValuedExpr entity t
  | _ => false

/-- What becomes of a `let`: an alias of a map is put in for its name, a tuple that holds a map
    or that a generated name stands for is dropped, and any other value is a local. -/
inductive LetKind where
  | alias
  | dropped
  | bound
deriving DecidableEq

def letKind (entity : Entity) (x : String) (v : Expr) : LetKind :=
  if isHashmapValuedExpr entity v then .alias
  else
    match v with
    | .tuple es =>
        if es.any (isHashmapValuedExpr entity) || (x.startsWith "_" && es.length > 1) then .dropped
        else .bound
    | _ => .bound

/-- A value that is itself an update of a map goes to a slot of a nested mapping. -/
def isNestedUpdate : Expr → Bool
  | .methodCall _ method [_, _] => method == "update" || method == "insert"
  | _ => false

/-- `collect_update_chain` of a chain on the member: the keys and values written. -/
def collectUpdateChain (member : String) : Expr → Option (List (Expr × Expr))
  | .methodCall base method args =>
      match mapOp method args with
      | some (.put k v) =>
          if isNestedUpdate v then none
          else (collectUpdateChain member base).map (· ++ [(k, v)])
      -- what stands before the insertions is not written
      | _ => some []
  | .ident name => if name == member then some [] else none
  | .emptyCollection => some []
  | .index _ _ => none
  | _ => some []

section Writes

variable {Val : Type} [DecidableEq Val] (M : Ghost.Meaning Val) (entity : Entity) (read : Reading Val)
variable (member : String)

mutual
/-- `gen_mapping_transform_split`; `none` where the writes are not of whole entries of the
    member (nested mappings, aliases of maps). -/
def mapWrites : List Nat → Ghost.Scope Val → Expr → Option (List (EntryWrite Val))
  | place, ρ, .letE (.ident x) v b =>
      match letKind entity x v with
      | .alias => none
      | .dropped => mapWrites place ρ b
      | .bound => mapWrites place (M.bind (.ident x) (read place ρ v) ρ) b
  | place, ρ, .letE .wildcard _ b => mapWrites place ρ b
  | place, ρ, .methodCall base method args =>
      match mapOp method args with
      | some (.put _ _) =>
          (collectUpdateChain member (.methodCall base method args)).map
            (List.map fun kv => .put (read place ρ kv.1) (read place ρ kv.2))
      | some (.del k) =>
          match base with
          | .ident name => if name == member then some [.del (read place ρ k)] else none
          -- what stands before a removal is not written
          | _ => some [.del (read place ρ k)]
      | none => some []
  | place, ρ, .ifE c t (some e) =>
      if M.truth (read place ρ c) then mapWrites (place ++ [0]) ρ t
      else mapWrites (place ++ [1]) ρ e
  | place, ρ, .ifE c t none =>
      if M.truth (read place ρ c) then mapWrites (place ++ [0]) ρ t else some []
  | place, ρ, .block items => itemWrites place 0 ρ items
  | _, _, .ident name => if name == member then some [] else none
  | _, _, _ => some []
def itemWrites : List Nat → Nat → Ghost.Scope Val → List Expr → Option (List (EntryWrite Val))
  | _, _, _, [] => some []
  | place, i, ρ, e :: es =>
      match mapWrites (place ++ [i]) ρ e, itemWrites place (i + 1) ρ es with
      | some ws, some ws' => some (ws ++ ws')
      | _, _ => none
end

end Writes

/-! ### The table of an iterated map -/

section Tables

variable {Val : Type} [DecidableEq Val] [Inhabited Val]

def EntryWrite.exec (m : EnumerableMap Val Val) : EntryWrite Val → Option (EnumerableMap Val Val)
  | .put k v => some (m.put k v)
  | .del k => m.del k

/-- The writes in order; a panic undoes the call. -/
def execWrites (ws : List (EntryWrite Val)) (m : EnumerableMap Val Val) :
    Option (EnumerableMap Val Val) :=
  ws.foldlM EntryWrite.exec m

end Tables

end CambrianLang.Solidity
