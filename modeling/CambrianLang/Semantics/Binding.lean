/-
  **Expressions and the names in them.**

  A node computes something from what its subexpressions compute for any values of the names
  that are bound around them, and a name has the value that the environment gives it.  The
  name that a plain `let` binds is seen by nothing but its body, so it can be renamed.
-/
import CambrianLang.Ast.Slots
import CambrianLang.Ast.ExprMap

namespace CambrianLang.Semantics

open Ast Traversal Relation

/-! ### Environments -/

/-- The environment in which the names have the given values, by position. -/
def bindNames {V : Type} (names : List String) (vs : Nat → V) (ρ : String → V) : String → V :=
  fun y => if y ∈ names then vs (names.idxOf y) else ρ y

@[simp] theorem bindNames_nil {V : Type} (vs : Nat → V) (ρ : String → V) : bindNames [] vs ρ = ρ := by
  funext y
  exact if_neg List.not_mem_nil

theorem bindNames_of_notMem {V : Type} {names : List String} {y : String} (h : y ∉ names)
    (vs : Nat → V) (ρ : String → V) : bindNames names vs ρ y = ρ y := if_neg h

theorem bindNames_of_mem {V : Type} {names : List String} {y : String} (h : y ∈ names)
    (vs : Nat → V) (ρ : String → V) : bindNames names vs ρ y = vs (names.idxOf y) := if_pos h

theorem bindNames_singleton_self {V : Type} (x : String) (vs : Nat → V) (ρ : String → V) :
    bindNames [x] vs ρ x = vs 0 := by
  rw [bindNames_of_mem (List.mem_singleton_self x), List.idxOf_cons_self]

/-! ### Values -/

/-- The node without its subexpressions and without the name that a plain `let` binds. -/
def skeleton : Expr → Expr
  | .letE (.ident _) _ _ => .letE (.ident "") .noneE .noneE
  | e => mapSlots (fun _ _ => .noneE) e

/-- What names and nodes compute. -/
structure Computes (V R : Type) where
  value : V → R
  node : Expr → List ((Nat → V) → R) → R

/-- What an expression computes. -/
def Computes.eval {V R : Type} (M : Computes V R) (e : Expr) (ρ : String → V) : R :=
  match e with
  | .ident x => M.value (ρ x)
  | e => M.node (skeleton e)
      (e.slots.attach.map fun s vs => Computes.eval M s.1.2 (bindNames s.1.1.names vs ρ))
termination_by e.rank
decreasing_by exact rank_slot_lt s.2

variable {V R : Type} {M : Computes V R}

theorem eval_ident (x : String) (ρ : String → V) : M.eval (.ident x) ρ = M.value (ρ x) := by
  rw [Computes.eval]

theorem eval_node {e : Expr} (h : ∀ x, e ≠ .ident x) (ρ : String → V) :
    M.eval e ρ = M.node (skeleton e)
      (e.slots.map fun s vs => M.eval s.2 (bindNames s.1.names vs ρ)) := by
  have hattach := @List.attach_map_val _ _ e.slots fun s (vs : Nat → V) =>
    M.eval s.2 (bindNames s.1.names vs ρ)
  rw [← hattach, Computes.eval]
  exact h

theorem eval_letE (x : String) (v b : Expr) (ρ : String → V) :
    M.eval (.letE (.ident x) v b) ρ = M.node (.letE (.ident "") .noneE .noneE)
      [fun _ => M.eval v ρ, fun vs => M.eval b (bindNames [x] vs ρ)] := by
  have hne : ∀ y, Expr.letE (.ident x) v b ≠ .ident y := fun _ h => nomatch h
  rw [eval_node hne]
  simp [skeleton, Expr.slots, inOperand, Slot.names, Pattern.names]

/-! ### The names in an expression -/

/-- The identifiers of an expression. -/
def identWalker : Walker Expr String where
  own
    | .ident x => [x]
    | _ => []
  visited := Expr.children
  rank := Expr.rank
  rank_lt := rank_child_lt

/-- The names that the binders of an expression bind. -/
def binderWalker : Walker Expr String where
  own e := e.parts.flatMap Prod.fst
  visited := Expr.children
  rank := Expr.rank
  rank_lt := rank_child_lt

abbrev idents (e : Expr) : List String := identWalker.walk e

abbrev binders (e : Expr) : List String := binderWalker.walk e

theorem mem_children_of_slot {e : Expr} {s : Slot × Expr} (hs : s ∈ e.slots) : s.2 ∈ e.children := by
  rw [Expr.children, parts_eq_slots, List.map_map]
  exact List.mem_map.mpr ⟨s, hs, rfl⟩

theorem exists_slot_of_mem_children {e c : Expr} (hc : c ∈ e.children) : ∃ s ∈ e.slots, s.2 = c := by
  rw [Expr.children, parts_eq_slots, List.map_map] at hc
  obtain ⟨s, hs, rfl⟩ := List.mem_map.mp hc
  exact ⟨s, hs, rfl⟩

theorem idents_ident (x : String) : idents (.ident x) = [x] := by
  rw [idents, Walker.walk_eq]
  rfl

theorem mem_idents_node {e : Expr} (h : ∀ x, e ≠ .ident x) {y : String} :
    y ∈ idents e ↔ ∃ s ∈ e.slots, y ∈ idents s.2 := by
  have hown : identWalker.own e = [] := by
    cases e with
    | ident x => exact absurd rfl (h x)
    | _ => rfl
  rw [idents, Walker.walk_eq, hown, List.nil_append, List.mem_flatMap]
  constructor
  · rintro ⟨c, hc, hy⟩
    obtain ⟨s, hs, rfl⟩ := exists_slot_of_mem_children hc
    exact ⟨s, hs, hy⟩
  · rintro ⟨s, hs, hy⟩
    exact ⟨s.2, mem_children_of_slot hs, hy⟩

theorem mem_binders {e : Expr} {y : String} :
    y ∈ binders e ↔ ∃ s ∈ e.slots, y ∈ s.1.names ∨ y ∈ binders s.2 := by
  rw [binders, Walker.walk_eq, List.mem_append, List.mem_flatMap]
  constructor
  · rintro (hown | ⟨c, hc, hy⟩)
    · obtain ⟨part, hpart, hy⟩ := List.mem_flatMap.mp hown
      rw [parts_eq_slots] at hpart
      obtain ⟨s, hs, rfl⟩ := List.mem_map.mp hpart
      exact ⟨s, hs, Or.inl hy⟩
    · obtain ⟨s, hs, rfl⟩ := exists_slot_of_mem_children hc
      exact ⟨s, hs, Or.inr hy⟩
  · rintro ⟨s, hs, hy | hy⟩
    · refine Or.inl (List.mem_flatMap.mpr ⟨(s.1.names, s.2), ?_, hy⟩)
      rw [parts_eq_slots]
      exact List.mem_map.mpr ⟨s, hs, rfl⟩
    · exact Or.inr ⟨s.2, mem_children_of_slot hs, hy⟩

/-- Induction on an expression, its subexpressions given. -/
theorem slot_induction {P : Expr → Prop} (hstep : ∀ e, (∀ s ∈ e.slots, P s.2) → P e) (e : Expr) :
    P e := by
  induction hr : e.rank using Nat.strongRecOn generalizing e with
  | ind n ih =>
    apply hstep e
    intro s hs
    exact ih s.2.rank (hr ▸ rank_slot_lt hs) s.2 rfl

/-! ### Renaming -/

/-- `rename_ident`: an identifier renamed wherever it stands. -/
def renameIdent (e : Expr) (old new : String) : Expr :=
  Authored.mapExpr (fun
    | .ident n => .ident (if n = old then new else n)
    | e => e) e

theorem mapChildren_eq_mapSlots (g : Expr → Expr) (e : Expr) :
    Authored.mapChildren g e = mapSlots (fun _ => g) e := by
  cases e <;> rfl

theorem renameIdent_ident (n old new : String) :
    renameIdent (.ident n) old new = .ident (if n = old then new else n) := rfl

theorem mapSlots_ne_ident {e : Expr} (h : ∀ x, e ≠ .ident x) (g : Slot → Expr → Expr) (x : String) :
    mapSlots g e ≠ .ident x := by
  cases e with
  | ident y => exact absurd rfl (h y)
  | _ => exact fun heq => nomatch heq

theorem renameIdent_node {e : Expr} (h : ∀ x, e ≠ .ident x) (old new : String) :
    renameIdent e old new = mapSlots (fun _ c => renameIdent c old new) e := by
  rw [renameIdent, Authored.mapExpr_eq, mapChildren_eq_mapSlots]
  have hne := mapSlots_ne_ident h
    (fun _ => Authored.mapExpr fun
      | .ident n => .ident (if n = old then new else n)
      | e => e)
  split
  · exact absurd ‹_› (hne _)
  · rfl

theorem slots_renameIdent {e : Expr} (h : ∀ x, e ≠ .ident x) (old new : String) :
    (renameIdent e old new).slots = e.slots.map fun s => (s.1, renameIdent s.2 old new) := by
  rw [renameIdent_node h, slots_mapSlots]

theorem skeleton_mapSlots (g : Slot → Expr → Expr) (e : Expr) :
    skeleton (mapSlots g e) = skeleton e := by
  have hgeneric : mapSlots (fun _ _ => .noneE) (mapSlots g e) = mapSlots (fun _ _ => .noneE) e :=
    mapSlots_mapSlots _ _ e
  cases e with
  | letE p v b => cases p <;> rfl
  | _ => exact hgeneric

theorem eq_ident_or (e : Expr) : (∃ x, e = .ident x) ∨ ∀ x, e ≠ .ident x := by
  by_cases h : ∃ x, e = .ident x
  · exact Or.inl h
  · exact Or.inr fun x hx => h ⟨x, hx⟩

theorem mem_slots_renameIdent {e : Expr} (h : ∀ x, e ≠ .ident x) {old new : String} {s : Slot × Expr} :
    s ∈ (renameIdent e old new).slots ↔ ∃ c, (s.1, c) ∈ e.slots ∧ s.2 = renameIdent c old new := by
  rw [slots_renameIdent h, List.mem_map]
  constructor
  · rintro ⟨⟨k, c⟩, hs, rfl⟩
    exact ⟨c, hs, rfl⟩
  · rintro ⟨c, hc, heq⟩
    exact ⟨(s.1, c), hc, by rw [← heq]⟩

theorem mem_binders_renameIdent (e : Expr) (old new y : String) :
    y ∈ binders (renameIdent e old new) ↔ y ∈ binders e := by
  induction e using slot_induction with
  | hstep e ih =>
    rcases eq_ident_or e with ⟨x, rfl⟩ | hne
    · rw [renameIdent_ident, mem_binders, mem_binders]
      exact Iff.rfl
    · rw [mem_binders, mem_binders]
      constructor
      · rintro ⟨s, hs, hy⟩
        obtain ⟨c, hc, heq⟩ := (mem_slots_renameIdent hne).mp hs
        rw [heq, ih _ hc] at hy
        exact ⟨_, hc, hy⟩
      · rintro ⟨s, hs, hy⟩
        rw [← ih s hs] at hy
        exact ⟨(s.1, renameIdent s.2 old new), (mem_slots_renameIdent hne).mpr ⟨s.2, hs, rfl⟩, hy⟩

theorem mem_idents_renameIdent {e : Expr} {old new y : String}
    (hy : y ∈ idents (renameIdent e old new)) : y ∈ idents e ∨ y = new := by
  induction e using slot_induction with
  | hstep e ih =>
    rcases eq_ident_or e with ⟨x, rfl⟩ | hne
    · rw [renameIdent_ident, idents_ident, List.mem_singleton] at hy
      rw [idents_ident, List.mem_singleton]
      split at hy
      · exact Or.inr hy
      · exact Or.inl hy
    · have hne' : ∀ x, renameIdent e old new ≠ .ident x := by
        rw [renameIdent_node hne]
        exact mapSlots_ne_ident hne _
      obtain ⟨s, hs, hy⟩ := (mem_idents_node hne').mp hy
      obtain ⟨c, hc, heq⟩ := (mem_slots_renameIdent hne).mp hs
      rw [heq] at hy
      exact (ih _ hc hy).imp_left fun hc' => (mem_idents_node hne).mpr ⟨_, hc, hc'⟩

/-- One environment has under the new name what the other has under the old one. -/
structure Renamed (old new : String) (ρ ρ' : String → V) : Prop where
  moved : ρ new = ρ' old
  other : ∀ y, y ≠ old → y ≠ new → ρ y = ρ' y

theorem Renamed.bindNames {old new : String} {ρ ρ' : String → V} (h : Renamed old new ρ ρ')
    {names : List String} (hold : old ∉ names) (hnew : new ∉ names) (vs : Nat → V) :
    Renamed old new (bindNames names vs ρ) (bindNames names vs ρ') where
  moved := by
    rw [bindNames_of_notMem hnew, bindNames_of_notMem hold, h.moved]
  other := by
    intro y hy hy'
    by_cases hmem : y ∈ names
    · rw [bindNames_of_mem hmem, bindNames_of_mem hmem]
    · rw [bindNames_of_notMem hmem, bindNames_of_notMem hmem, h.other y hy hy']

/-- **Renaming a name that nothing in the expression binds** to one that does not occur there
    changes nothing but where its value is looked up. -/
theorem eval_renameIdent {e : Expr} {old new : String} (hold : old ∉ binders e)
    (hnew : new ∉ binders e) (hfresh : new ∉ idents e) {ρ ρ' : String → V} (h : Renamed old new ρ ρ') :
    M.eval (renameIdent e old new) ρ = M.eval e ρ' := by
  induction e using slot_induction generalizing ρ ρ' with
  | hstep e ih =>
    rcases eq_ident_or e with ⟨x, rfl⟩ | hne
    · rw [idents_ident, List.mem_singleton] at hfresh
      rw [renameIdent_ident, eval_ident, eval_ident]
      by_cases hx : x = old
      · rw [if_pos hx, hx, h.moved]
      · rw [if_neg hx, h.other x hx fun hxn => hfresh hxn.symm]
    · have hne' : ∀ x, renameIdent e old new ≠ .ident x := by
        rw [renameIdent_node hne]
        exact mapSlots_ne_ident hne _
      have hskeleton : skeleton (renameIdent e old new) = skeleton e := by
        rw [renameIdent_node hne, skeleton_mapSlots]
      rw [eval_node hne', eval_node hne, hskeleton, slots_renameIdent hne, List.map_map]
      congr 1
      refine List.map_congr_left fun s hs => ?_
      have hbound : ∀ y, y ∉ binders e → y ∉ s.1.names ∧ y ∉ binders s.2 := by
        intro y hy
        rw [mem_binders] at hy
        exact ⟨fun hmem => hy ⟨s, hs, Or.inl hmem⟩, fun hmem => hy ⟨s, hs, Or.inr hmem⟩⟩
      have hunused : new ∉ idents s.2 := fun hmem => hfresh ((mem_idents_node hne).mpr ⟨s, hs, hmem⟩)
      funext vs
      exact ih s hs (hbound old hold).2 (hbound new hnew).2 hunused
        (h.bindNames (hbound old hold).1 (hbound new hnew).1 vs)

end CambrianLang.Semantics
