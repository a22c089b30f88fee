/-
  **Rewriting a tree from its leaves up.**

  A pass that rewrites every node after its children is `f` applied once to each
  node of the tree.  What it establishes everywhere, what it leaves alone and when
  running it twice is running it once follow from what `f` does to a node whose
  children are done.  The tree type is a parameter.
-/
import Mathlib.Logic.Relation
import Mathlib.Data.List.Basic

namespace CambrianLang.BottomUp

open Relation

universe u

/-- A type of trees: the children of a node, the node with a function applied to
    its children, and a rank that decreases on the way down. -/
structure Layered (α : Type u) where
  children : α → List α
  mapChildren : (α → α) → α → α
  rank : α → Nat
  rank_lt {a b : α} : b ∈ children a → rank b < rank a
  children_mapChildren (g : α → α) (a : α) : children (mapChildren g a) = (children a).map g
  mapChildren_fixed {g : α → α} {a : α} : (∀ b ∈ children a, g b = b) → mapChildren g a = a

namespace Layered

variable {α : Type u} (L : Layered α)

/-- `b` is `a` or a node below it. -/
def Below (a b : α) : Prop := ReflTransGen (fun x y => y ∈ L.children x) a b

/-- `P` holds of every node of the tree. -/
def Everywhere (P : α → Prop) (a : α) : Prop := ∀ b, L.Below a b → P b

/-- `w` applies `f` to every node, children first. -/
def Rewrites (f w : α → α) : Prop := ∀ a, w a = f (L.mapChildren w a)

variable {L} {P Q : α → Prop} {f w : α → α} {a : α}

theorem everywhere_iff : L.Everywhere P a ↔ P a ∧ ∀ b ∈ L.children a, L.Everywhere P b := by
  constructor
  · intro h
    exact ⟨h a .refl, fun b hb c hc => h c (.head hb hc)⟩
  · rintro ⟨hroot, hbelow⟩ b hab
    rcases ReflTransGen.cases_head hab with rfl | ⟨c, hc, hcb⟩
    · exact hroot
    · exact hbelow c hc b hcb

theorem Everywhere.root (h : L.Everywhere P a) : P a := h a .refl

theorem Everywhere.child {b : α} (h : L.Everywhere P a) (hb : b ∈ L.children a) :
    L.Everywhere P b := (everywhere_iff.mp h).2 b hb

theorem Everywhere.imp (h : L.Everywhere P a) (hPQ : ∀ b, P b → Q b) : L.Everywhere Q a :=
  fun b hb => hPQ b (h b hb)

/-- Induction on the tree, the children given. -/
theorem induction (hstep : ∀ a, (∀ b ∈ L.children a, P b) → P a) (a : α) : P a := by
  induction hr : L.rank a using Nat.strongRecOn generalizing a with
  | ind n ih =>
    apply hstep a
    intro b hb
    have hlt := L.rank_lt hb
    exact ih (L.rank b) (hr ▸ hlt) b rfl

/-- **What a pass establishes.**  If `f` makes `P` hold throughout a node whose
    children have it throughout, the pass makes `P` hold everywhere. -/
theorem Rewrites.everywhere (hw : L.Rewrites f w)
    (hf : ∀ a, (∀ b ∈ L.children a, L.Everywhere P b) → L.Everywhere P (f a)) (a : α) :
    L.Everywhere P (w a) := by
  induction a using L.induction with
  | hstep a ih =>
    rw [hw a]
    apply hf
    intro b hb
    rw [L.children_mapChildren] at hb
    obtain ⟨c, hc, rfl⟩ := List.mem_map.mp hb
    exact ih c hc

/-- **What a pass keeps.**  `P` may look at a node but not at what its children are. -/
theorem Rewrites.everywhere_kept (hw : L.Rewrites f w)
    (hmap : ∀ a, P a → P (L.mapChildren w a))
    (hf : ∀ a, L.Everywhere P a → L.Everywhere P (f a)) (h : L.Everywhere P a) :
    L.Everywhere P (w a) := by
  induction a using L.induction with
  | hstep a ih =>
    rw [hw a]
    apply hf
    refine everywhere_iff.mpr ⟨hmap a h.root, ?_⟩
    intro b hb
    rw [L.children_mapChildren] at hb
    obtain ⟨c, hc, rfl⟩ := List.mem_map.mp hb
    exact ih c hc (h.child hc)

/-- A pass leaves a tree alone when `f` leaves all its nodes alone. -/
theorem Rewrites.eq_self (hw : L.Rewrites f w) (h : L.Everywhere (fun b => f b = b) a) :
    w a = a := by
  induction a using L.induction with
  | hstep a ih =>
    rw [hw a, L.mapChildren_fixed fun b hb => ih b hb (h.child hb)]
    exact h.root

end Layered

end CambrianLang.BottomUp
