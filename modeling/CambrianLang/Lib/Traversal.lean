/-
  **Partial traversals of trees.**

  A checker that walks a syntax tree by hand visits, at each node, some of its
  children: those its author listed.  What it reports is then exactly what is
  reported at the nodes it reaches, and what it misses hangs below a first child
  it does not visit.  Both facts are stated here once, for any type of trees.

  A search that also goes into the bodies of the functions it calls keeps the names
  it is inside of and does not enter one of them again.  It ends because each body
  entered uses up a name.
-/
import Mathlib.Algebra.Order.BigOperators.Group.List
import Mathlib.Algebra.Order.Group.Nat
import Mathlib.Algebra.GroupWithZero.Nat
import Mathlib.Data.List.Count

namespace CambrianLang.Traversal

open Relation

universe u v

/-- A traversal: what it reports at a node, the nodes it descends into, and a rank
    that decreases on the way down. -/
structure Walker (α : Type u) (δ : Type v) where
  own : α → List δ
  visited : α → List α
  rank : α → Nat
  rank_lt {a b : α} : b ∈ visited a → rank b < rank a

namespace Walker

variable {α : Type u} {δ : Type v}

/-- The traversal cut off below depth `n`. -/
def walkTo (W : Walker α δ) : Nat → α → List δ
  | 0, _ => []
  | n + 1, a => W.own a ++ (W.visited a).flatMap (W.walkTo n)

/-- The whole traversal, node before children. -/
def walk (W : Walker α δ) (a : α) : List δ := W.walkTo (W.rank a + 1) a

/-- The traversal steps from `a` to `b`. -/
def Visits (W : Walker α δ) (a b : α) : Prop := b ∈ W.visited a

/-- The traversal started at `a` comes to `b`. -/
def Reaches (W : Walker α δ) : α → α → Prop := ReflTransGen W.Visits

theorem walkTo_stable (W : Walker α δ) : ∀ (n m : Nat) (a : α), W.rank a < n → W.rank a < m →
    W.walkTo n a = W.walkTo m a := by
  intro n
  induction n with
  | zero =>
    intro m a hn _
    exact absurd hn (Nat.not_lt_zero _)
  | succ n ih =>
    intro m a hn hm
    cases m with
    | zero => exact absurd hm (Nat.not_lt_zero _)
    | succ m =>
      have hparts : ∀ b ∈ W.visited a, W.walkTo n b = W.walkTo m b := by
        intro b hb
        have hlt := W.rank_lt hb
        exact ih m b (by omega) (by omega)
      simp only [walkTo, List.flatMap_congr hparts]

/-- The recursion the traversal is written as. -/
theorem walk_eq (W : Walker α δ) (a : α) : W.walk a = W.own a ++ (W.visited a).flatMap W.walk := by
  have hparts : ∀ b ∈ W.visited a, W.walkTo (W.rank a) b = W.walk b := by
    intro b hb
    have hlt := W.rank_lt hb
    exact W.walkTo_stable _ _ b hlt (Nat.lt_succ_self _)
  simp only [walk, walkTo, List.flatMap_congr hparts]

/-- **What a traversal reports** is what it reports at the nodes it reaches. -/
theorem mem_walk (W : Walker α δ) {a : α} {d : δ} :
    d ∈ W.walk a ↔ ∃ b, W.Reaches a b ∧ d ∈ W.own b := by
  constructor
  · intro hd
    induction hr : W.rank a using Nat.strongRecOn generalizing a with
    | ind n ih =>
      rw [walk_eq, List.mem_append, List.mem_flatMap] at hd
      rcases hd with hown | ⟨b, hb, hd⟩
      · exact ⟨a, .refl, hown⟩
      · have hlt := W.rank_lt hb
        obtain ⟨c, hbc, hc⟩ := ih (W.rank b) (by omega) hd rfl
        exact ⟨c, .head hb hbc, hc⟩
  · rintro ⟨b, hab, hd⟩
    induction hab using ReflTransGen.head_induction_on with
    | refl =>
      rw [walk_eq, List.mem_append]
      exact Or.inl hd
    | head hac _ ih =>
      rw [walk_eq, List.mem_append, List.mem_flatMap]
      exact Or.inr ⟨_, hac, ih⟩

end Walker

/-- **A path either stays inside a smaller relation or leaves it at a first step.** -/
theorem path_split {α : Type u} {R V : α → α → Prop} {a c : α} (h : ReflTransGen R a c) :
    ReflTransGen (fun x y => R x y ∧ V x y) a c ∨
      ∃ x y, ReflTransGen (fun x y => R x y ∧ V x y) a x ∧ R x y ∧ ¬ V x y ∧ ReflTransGen R y c := by
  induction h using ReflTransGen.head_induction_on with
  | refl => exact Or.inl .refl
  | @head x y hxy hyc ih =>
    by_cases hV : V x y
    · rcases ih with hall | ⟨x', y', hpre, hR, hnV, hpost⟩
      · exact Or.inl (.head ⟨hxy, hV⟩ hall)
      · exact Or.inr ⟨x', y', .head ⟨hxy, hV⟩ hpre, hR, hnV, hpost⟩
    · exact Or.inr ⟨x, y, .refl, hxy, hV, hyc⟩

/-! ### Callees -/

/-- What a node calls, by name, with the bodies there are. -/
structure Calls (α : Type u) where
  bodies : List (String × α)
  called : α → List (String × α)
  known {a : α} {c : String × α} : c ∈ called a → c ∈ bodies


/-- A body that is not entered yet. -/
def unentered (stack : List String) (b : String × α) : Bool := !stack.contains b.1

theorem unentered_of_cons {stack : List String} {name : String} {b : String × α}
    (h : unentered (name :: stack) b = true) : unentered stack b = true := by
  rw [unentered, List.contains_cons, Bool.not_or, Bool.and_eq_true] at h
  exact h.2

/-- How many bodies are left to enter. -/
def Calls.left (C : Calls α) (stack : List String) : Nat := C.bodies.countP (unentered stack)

theorem Calls.left_lt (C : Calls α) {stack : List String} {a : α} {c : String × α}
    (hc : c ∈ C.called a) (hstack : unentered stack c = true) :
    C.left (c.1 :: stack) < C.left stack := by
  obtain ⟨front, back, hbodies⟩ := List.append_of_mem (C.known hc)
  have hmono : ∀ xs : List (String × α),
      xs.countP (unentered (c.1 :: stack)) ≤ xs.countP (unentered stack) :=
    fun xs => List.countP_mono_left fun b _ hb => unentered_of_cons hb
  have hf := hmono front
  have hb := hmono back
  have hnew : ¬ unentered (c.1 :: stack) c = true := by simp [unentered]
  rw [Calls.left, Calls.left, hbodies, List.countP_append, List.countP_append,
    List.countP_cons_of_neg hnew, List.countP_cons_of_pos hstack]
  omega

/-- The walk that also follows calls; a node carries the names it is inside of. -/
def Walker.following (W : Walker α δ) (C : Calls α) : Walker (List String × α) δ where
  own n := W.own n.2
  visited n := (W.visited n.2).map (n.1, ·) ++
    ((C.called n.2).filter (unentered n.1)).map fun c => (c.1 :: n.1, c.2)
  rank n := C.left n.1 * ((C.bodies.map fun b => W.rank b.2).sum + 1) + W.rank n.2
  rank_lt {n m} h := by
    rcases List.mem_append.mp h with h | h
    · obtain ⟨b, hb, rfl⟩ := List.mem_map.mp h
      exact Nat.add_lt_add_left (W.rank_lt hb) _
    · obtain ⟨c, hc, rfl⟩ := List.mem_map.mp h
      rw [List.mem_filter] at hc
      have hleft := C.left_lt hc.1 hc.2
      have hbody : W.rank c.2 ≤ (C.bodies.map fun b => W.rank b.2).sum :=
        List.single_le_sum (fun _ _ => Nat.zero_le _) _
          (List.mem_map_of_mem (f := fun b : String × α => W.rank b.2) (C.known hc.1))
      have hstep := Nat.mul_le_mul_right ((C.bodies.map fun b => W.rank b.2).sum + 1) hleft
      rw [Nat.succ_mul] at hstep
      dsimp only
      omega

/-- The walk from a node that is inside no body. -/
def Walker.walkInto (W : Walker α δ) (C : Calls α) (a : α) : List δ := (W.following C).walk ([], a)

end CambrianLang.Traversal
