/-
  **Expressions as trees with labelled positions.**

  `Expr.slots` refines `Expr.parts`: besides the names that are bound around a
  subexpression, the label says which form binds them and whether the subexpression
  is what an index or a method call is applied to.
-/
import CambrianLang.Ast.Expr
import CambrianLang.Lib.SlotTrees

namespace CambrianLang.Ast

open SlotTrees Relation

/-- Where an immediate subexpression stands. -/
inductive Slot where
  | operand
  | indexed
  | receiver (method : String)
  | binding (names : List String)
  | closure (names : List String)
  | arm (names : List String)
deriving DecidableEq

/-- The names bound around the subexpression. -/
def Slot.names : Slot → List String
  | .operand | .indexed | .receiver _ => []
  | .binding names | .closure names | .arm names => names

def inOperand (e : Expr) : Slot × Expr := (.operand, e)

/-- The immediate subexpressions, each with its position. -/
def Expr.slots : Expr → List (Slot × Expr)
  | .intLiteral _ | .stringLiteral _ | .bytesLiteral _ | .boolLiteral _ | .emptyCollection
  | .ident _ | .temporalRef _ | .msgField _ | .sysField _ | .traceField _ | .traceCall _ _
  | .enumVariant _ _ | .noneE => []
  | .arrayLit es | .macroRef _ es | .fnCall _ es | .block es | .tuple es
  | .enumVariantWithData _ _ es | .namespacedCall _ _ es _ => es.map inOperand
  | .binOp l _ r => [inOperand l, inOperand r]
  | .index b k => [(.indexed, b), inOperand k]
  | .range s e => [inOperand s, inOperand e]
  | .unaryOp _ e | .fieldAccess e _ | .cast e _ | .someE e | .encode _ e => [inOperand e]
  | .methodCall b m args => (.receiver m, b) :: args.map inOperand
  | .ifE c t e => inOperand c :: inOperand t :: e.toList.map inOperand
  | .letE p v b => [inOperand v, (.binding p.names, b)]
  | .forE p it b => [inOperand it, (.binding p.names, b)]
  | .closure ps b => [(.closure (patternNames ps), b)]
  | .recordConstruct _ fs => fs.map fun f => inOperand f.2
  | .recordUpdate b fs => inOperand b :: fs.map fun f => inOperand f.2
  | .matchE e arms => inOperand e :: arms.map fun a => (.arm a.1.names, a.2)
  | .addressOf _ args ws => args.map inOperand ++ ws.map fun w => inOperand w.2

/-- A function of position and subexpression applied to the immediate subexpressions. -/
def mapSlots (g : Slot → Expr → Expr) : Expr → Expr
  | .binOp l op r => .binOp (g .operand l) op (g .operand r)
  | .unaryOp op e => .unaryOp op (g .operand e)
  | .fieldAccess e field => .fieldAccess (g .operand e) field
  | .index b k => .index (g .indexed b) (g .operand k)
  | .methodCall b m args => .methodCall (g (.receiver m) b) m (args.map (g .operand))
  | .fnCall name args => .fnCall name (args.map (g .operand))
  | .ifE c t e => .ifE (g .operand c) (g .operand t) (e.map (g .operand))
  | .letE p v b => .letE p (g .operand v) (g (.binding p.names) b)
  | .block items => .block (items.map (g .operand))
  | .recordConstruct name fs => .recordConstruct name (fs.map fun f => (f.1, g .operand f.2))
  | .recordUpdate b fs => .recordUpdate (g .operand b) (fs.map fun f => (f.1, g .operand f.2))
  | .closure ps b => .closure ps (g (.closure (patternNames ps)) b)
  | .cast e ty => .cast (g .operand e) ty
  | .tuple elems => .tuple (elems.map (g .operand))
  | .matchE e arms => .matchE (g .operand e) (arms.map fun a => (a.1, g (.arm a.1.names) a.2))
  | .enumVariantWithData enum variant args =>
    .enumVariantWithData enum variant (args.map (g .operand))
  | .someE e => .someE (g .operand e)
  | .range lo hi => .range (g .operand lo) (g .operand hi)
  | .forE p it b => .forE p (g .operand it) (g (.binding p.names) b)
  | .namespacedCall ns name args tys => .namespacedCall ns name (args.map (g .operand)) tys
  | .addressOf entity args ws =>
    .addressOf entity (args.map (g .operand)) (ws.map fun w => (w.1, g .operand w.2))
  | .encode ty value => .encode ty (g .operand value)
  | .arrayLit elems => .arrayLit (elems.map (g .operand))
  | .macroRef name args => .macroRef name (args.map (g .operand))
  | e => e

theorem parts_eq_slots (e : Expr) : e.parts = e.slots.map fun s => (s.1.names, s.2) := by
  cases e <;>
    simp [Expr.parts, Expr.slots, inOperand, unbound, Slot.names, Function.comp_def]

theorem rank_slot_lt {e : Expr} {s : Slot × Expr} (h : s ∈ e.slots) : s.2.rank < e.rank := by
  have hpart : (s.1.names, s.2) ∈ e.parts := by
    rw [parts_eq_slots]
    exact List.mem_map.mpr ⟨s, h, rfl⟩
  exact rank_part_lt hpart

theorem slots_mapSlots (g : Slot → Expr → Expr) (e : Expr) :
    (mapSlots g e).slots = e.slots.map fun s => (s.1, g s.1 s.2) := by
  cases e with
  | ifE c t e => cases e <;> simp [mapSlots, Expr.slots, inOperand]
  | _ => simp [mapSlots, Expr.slots, inOperand, Function.comp_def]

theorem mapSlots_congr {g h : Slot → Expr → Expr} {e : Expr}
    (heq : ∀ s ∈ e.slots, g s.1 s.2 = h s.1 s.2) : mapSlots g e = mapSlots h e := by
  cases e with
  | ifE c t e => cases e <;> simp_all [mapSlots, Expr.slots, inOperand]
  | arrayLit | macroRef | fnCall | block | tuple | enumVariantWithData | namespacedCall =>
    simp only [Expr.slots, inOperand, List.forall_mem_map] at heq
    simp only [mapSlots, List.map_congr_left heq]
  | methodCall =>
    simp only [Expr.slots, inOperand, List.forall_mem_cons, List.forall_mem_map] at heq
    simp only [mapSlots, heq.1, List.map_congr_left heq.2]
  | recordConstruct =>
    simp only [Expr.slots, inOperand, List.forall_mem_map] at heq
    simp only [mapSlots, Expr.recordConstruct.injEq, true_and]
    exact List.map_congr_left fun f hf => by rw [heq f hf]
  | recordUpdate | matchE =>
    simp only [Expr.slots, inOperand, List.forall_mem_cons, List.forall_mem_map] at heq
    simp only [mapSlots, heq.1, Expr.recordUpdate.injEq, Expr.matchE.injEq, true_and]
    exact List.map_congr_left fun f hf => by rw [heq.2 f hf]
  | addressOf =>
    simp only [Expr.slots, inOperand, List.forall_mem_append, List.forall_mem_map] at heq
    simp only [mapSlots, List.map_congr_left heq.1, Expr.addressOf.injEq, true_and]
    exact List.map_congr_left fun f hf => by rw [heq.2 f hf]
  | _ => simp_all [mapSlots, Expr.slots, inOperand]

theorem mapSlots_mapSlots (g h : Slot → Expr → Expr) (e : Expr) :
    mapSlots g (mapSlots h e) = mapSlots (fun k c => g k (h k c)) e := by
  cases e <;> simp [mapSlots, Function.comp_def]

theorem mapSlots_id (e : Expr) : mapSlots (fun _ c => c) e = e := by
  cases e <;> simp [mapSlots]

/-- Expressions as trees with slots. -/
def exprSlots : Slotted Slot Expr where
  slots := Expr.slots
  mapSlots := mapSlots
  rank := Expr.rank
  rank_lt := rank_slot_lt
  slots_mapSlots := slots_mapSlots
  mapSlots_congr := mapSlots_congr
  mapSlots_mapSlots := mapSlots_mapSlots
  mapSlots_id := mapSlots_id

/-- The slots on the way from an expression to one in it. -/
abbrev Path (e : Expr) (ks : List Slot) (d : Expr) : Prop := exprSlots.Path e ks d

/-- The names bound along a path. -/
def boundNames (ks : List Slot) : List String := ks.flatMap Slot.names

theorem leaf_ident (x : String) : exprSlots.Leaf (.ident x) := rfl

/-- A free occurrence is a path to the name that does not bind it. -/
theorem occursFree_iff {x : String} {e : Expr} :
    OccursFree x e ↔ ∃ ks, Path e ks (.ident x) ∧ x ∉ boundNames ks := by
  constructor
  · intro h
    induction h using ReflTransGen.head_induction_on with
    | refl => exact ⟨[], .here _, List.not_mem_nil⟩
    | head hstep _ ih =>
      obtain ⟨bs, hpart, hx⟩ := hstep
      obtain ⟨ks, hpath, hks⟩ := ih
      rw [parts_eq_slots] at hpart
      obtain ⟨s, hs, heq⟩ := List.mem_map.mp hpart
      cases heq
      refine ⟨s.1 :: ks, .down hs hpath, ?_⟩
      simp only [boundNames, List.flatMap_cons, List.mem_append, not_or]
      exact ⟨hx, hks⟩
  · rintro ⟨ks, hpath, hks⟩
    generalize hd : Expr.ident x = d at hpath
    induction hpath with
    | here => exact hd ▸ .refl
    | @down e d s ks hmem _ ih =>
      simp only [boundNames, List.flatMap_cons, List.mem_append, not_or] at hks
      have hpart : (s.1.names, s.2) ∈ e.parts := by
        rw [parts_eq_slots]
        exact List.mem_map.mpr ⟨s, hmem, rfl⟩
      exact .head ⟨s.1.names, hpart, hks.1⟩ (ih hks.2 hd)

theorem occursFree_ident {x y : String} : OccursFree x (.ident y) ↔ x = y := by
  rw [occursFree_iff]
  constructor
  · rintro ⟨ks, hpath, -⟩
    have heq := (hpath.of_leaf (leaf_ident y)).2
    exact Expr.ident.inj heq
  · rintro rfl
    exact ⟨[], .here _, List.not_mem_nil⟩

end CambrianLang.Ast
