/-
  **Tarjan's strongly connected components over a partial successor map.**

  The algorithm keeps a stack of the nodes whose component is open and, for the
  node being visited, a lowlink: a bound on the discovery indices of the open
  nodes that its part of the stack has an edge to.  When the lowlink is the node's
  own index nothing below it on the stack is reached, and the part above it is a
  component.

  What is proved is what a cycle check rests on: every node ends up in a
  component, an edge never leads to a component emitted later (`Closed`), and a
  graph all of whose components are single nodes without a loop has no cycle.
  The recursion is given fuel, and the number of nodes is enough.
-/
import CambrianLang.Lib.Unfolding

namespace CambrianLang.Tarjan

set_option linter.unusedSectionVars false

open Relation Unfolding

variable {α : Type} [DecidableEq α]

/-- The map from a node to the nodes it depends on; a later entry is listed first. -/
abbrev Deps (α : Type) : Type := List (α × List α)

structure State (α : Type) where
  indexOf : α → Option Nat
  lowlink : α → Nat
  onStack : α → Bool
  stack : List α
  index : Nat
  sccs : List (List α)

def State.empty : State α :=
  { indexOf := fun _ => none, lowlink := fun _ => 0, onStack := fun _ => false, stack := []
    index := 0, sccs := [] }

/-- The first lines of `strongconnect`. -/
def State.push (s : State α) (v : α) : State α :=
  { s with
    indexOf := Function.update s.indexOf v (some s.index)
    lowlink := Function.update s.lowlink v s.index
    index := s.index + 1
    stack := v :: s.stack
    onStack := Function.update s.onStack v true }

/-- `lowlink[v] = min(lowlink[v], l)`. -/
def State.lower (s : State α) (v : α) (l : Nat) : State α :=
  { s with lowlink := Function.update s.lowlink v (min (s.lowlink v) l) }

/-- Pop up to and including `v`: the component and the rest of the stack. -/
def popComponent (v : α) : List α → List α × List α
  | [] => ([], [])
  | w :: rest =>
      if w = v then ([w], rest)
      else ((w :: (popComponent v rest).1), (popComponent v rest).2)

/-- The last lines of `strongconnect`. -/
def State.close (s : State α) (v : α) : State α :=
  if s.indexOf v = some (s.lowlink v) then
    let p := popComponent v s.stack
    { s with
      stack := p.2
      onStack := fun x => s.onStack x && !decide (x ∈ p.1)
      sccs := s.sccs ++ [p.1] }
  else s

/-- One round of the loop over the callees of `v`. -/
def visitCallee (deps : Deps α) (visit : α → State α → State α) (v : α) (s : State α) (w : α) :
    State α :=
  if (deps.lookup w).isNone then s
  else match s.indexOf w with
    | none =>
        let t := visit w s
        t.lower v (t.lowlink w)
    | some iw => if s.onStack w then s.lower v iw else s

def strongconnect (deps : Deps α) : Nat → α → State α → State α
  | 0, _, s => s
  | fuel + 1, v, s =>
      let callees := (deps.lookup v).getD []
      (callees.foldl (visitCallee deps (strongconnect deps fuel) v) (s.push v)).close v

/-- One round of the outer loop. -/
def visitRoot (deps : Deps α) (fuel : Nat) (s : State α) (n : α) : State α :=
  if (s.indexOf n).isSome then s else strongconnect deps fuel n s

/-- All nodes that can be visited. -/
def nodes (names : List α) (deps : Deps α) : List α := names ++ deps.map Prod.fst

def tarjanSccs (names : List α) (deps : Deps α) : List (List α) :=
  (names.foldl (visitRoot deps (nodes names deps).length) State.empty).sccs

/-! ### Edges and the order of components -/

/-- An edge to a node that has an entry of its own. -/
def Edge (deps : Deps α) (v w : α) : Prop :=
  w ∈ (deps.lookup v).getD [] ∧ (deps.lookup w).isSome = true

/-- Edges stay in a component or lead to one emitted earlier. -/
inductive Closed (deps : Deps α) : List (List α) → Prop
  | nil : Closed deps []
  | snoc {sccs : List (List α)} {comp : List α} (h : Closed deps sccs)
      (hc : ∀ v ∈ comp, ∀ w, Edge deps v w → w ∈ comp ∨ w ∈ sccs.flatten) :
      Closed deps (sccs ++ [comp])

def State.idx (s : State α) (x : α) : Nat := (s.indexOf x).getD 0

/-- The emitted nodes. -/
def State.done (s : State α) : List α := s.sccs.flatten

/-- What holds between any two steps. -/
structure Inv (deps : Deps α) (s : State α) : Prop where
  sorted : s.stack.Pairwise fun a b => s.idx b < s.idx a
  indexed : ∀ x, (s.indexOf x).isSome = true ↔ x ∈ s.stack ∨ x ∈ s.done
  bound : ∀ x i, s.indexOf x = some i → i < s.index
  onStack : ∀ x, s.onStack x = true ↔ x ∈ s.stack
  disjoint : ∀ x ∈ s.done, x ∉ s.stack
  closed : Closed deps s.sccs

/-- What a visit leaves alone. -/
structure Grows (s t : State α) : Prop where
  indexOf : ∀ x i, s.indexOf x = some i → t.indexOf x = some i
  fresh : ∀ x i, s.indexOf x = none → t.indexOf x = some i → s.index ≤ i
  lowlink : ∀ x, (s.indexOf x).isSome = true → t.lowlink x = s.lowlink x
  done : ∀ x ∈ s.done, x ∈ t.done
  index : s.index ≤ t.index

/-- The edges of `u` lead to emitted nodes or to open ones of index at least `l`. -/
def Bounded (deps : Deps α) (s : State α) (l : Nat) (u : α) : Prop :=
  ∀ w, Edge deps u w → w ∈ s.done ∨ w ∈ s.stack ∧ l ≤ s.idx w

/-- What a visit of `v` achieves: `v` is emitted, or it stays open together with the
    nodes found after it, because one of them reaches an older open node. -/
structure Visited (deps : Deps α) (v : α) (s t : State α) : Prop where
  inv : Inv deps t
  grows : Grows s t
  part : ∃ seg, t.stack = seg ++ s.stack ∧ ∀ u ∈ seg, Bounded deps t (t.lowlink v) u
  outcome : (v ∈ t.done ∧ t.lowlink v = t.idx v ∧ t.stack = s.stack) ∨
    (v ∈ t.stack ∧ ∃ x ∈ s.stack, t.lowlink v = t.idx x)

/-! ### Frame facts -/

theorem Grows.idx {s t : State α} (h : Grows s t) {x : α} (hx : (s.indexOf x).isSome = true) :
    t.idx x = s.idx x := by
  obtain ⟨i, hi⟩ := Option.isSome_iff_exists.mp hx
  rw [State.idx, State.idx, h.indexOf x i hi, hi]

theorem Inv.idx_lt {deps : Deps α} {s : State α} (h : Inv deps s) {x : α}
    (hx : (s.indexOf x).isSome = true) : s.idx x < s.index := by
  obtain ⟨i, hi⟩ := Option.isSome_iff_exists.mp hx
  rw [State.idx, hi]
  exact h.bound x i hi

theorem Inv.isSome_of_mem_stack {deps : Deps α} {s : State α} (h : Inv deps s) {x : α}
    (hx : x ∈ s.stack) : (s.indexOf x).isSome = true := (h.indexed x).mpr (Or.inl hx)

theorem inv_empty (deps : Deps α) : Inv deps (State.empty : State α) where
  sorted := List.Pairwise.nil
  indexed := by simp [State.empty, State.done]
  bound := by simp [State.empty]
  onStack := by simp [State.empty]
  disjoint := by simp [State.empty, State.done]
  closed := Closed.nil

/-! ### The loop over the callees -/

/-- The loop of a visit of `v` that started in `s₀`, with the callees handled so far. -/
structure LoopInv (deps : Deps α) (v : α) (s₀ : State α) (handled : List α) (s : State α) : Prop where
  inv : Inv deps s
  grows : Grows s₀ s
  own : s.indexOf v = some s₀.index
  part : ∃ above, s.stack = above ++ v :: s₀.stack ∧ ∀ u ∈ above, Bounded deps s (s.lowlink v) u
  seen : ∀ w ∈ handled, (deps.lookup w).isSome = true →
    w ∈ s.done ∨ w ∈ s.stack ∧ s.lowlink v ≤ s.idx w
  le : s.lowlink v ≤ s₀.index
  low : ∃ x ∈ s.stack, s.lowlink v = s.idx x

variable {deps : Deps α} {v : α} {s₀ s : State α} {handled : List α}

theorem idx_push_self (s : State α) (v : α) : (s.push v).idx v = s.index := by
  simp only [State.idx, State.push, Function.update_self, Option.getD_some]

theorem idx_push_of_ne {x : α} (h : x ≠ v) : (s.push v).idx x = s.idx x := by
  simp only [State.idx, State.push, Function.update_of_ne h]

theorem ne_of_indexed {x : α} (hv : s.indexOf v = none) (hx : (s.indexOf x).isSome = true) :
    x ≠ v := by
  rintro rfl
  rw [hv] at hx
  cases hx

theorem inv_push (h : Inv deps s) (hv : s.indexOf v = none) : Inv deps (s.push v) where
  sorted := by
    refine List.pairwise_cons.mpr ⟨?_, ?_⟩
    · intro b hb
      have hbi := h.isSome_of_mem_stack hb
      rw [idx_push_self, idx_push_of_ne (ne_of_indexed hv hbi)]
      exact h.idx_lt hbi
    · refine h.sorted.imp_of_mem ?_
      intro a b ha hb hab
      rw [idx_push_of_ne (ne_of_indexed hv (h.isSome_of_mem_stack ha)),
        idx_push_of_ne (ne_of_indexed hv (h.isSome_of_mem_stack hb))]
      exact hab
  indexed := by
    intro x
    by_cases hx : x = v
    · subst hx
      simp [State.push]
    · have hiff := h.indexed x
      simpa [State.push, State.done, Function.update_of_ne hx, hx] using hiff
  bound := by
    intro x i hi
    by_cases hx : x = v
    · subst hx
      simp only [State.push, Function.update_self, Option.some.injEq] at hi
      simp only [State.push]
      omega
    · simp only [State.push, Function.update_of_ne hx] at hi
      have hlt := h.bound x i hi
      simp only [State.push]
      omega
  onStack := by
    intro x
    by_cases hx : x = v
    · subst hx
      simp [State.push]
    · have hiff := h.onStack x
      simpa [State.push, Function.update_of_ne hx, hx] using hiff
  disjoint := by
    intro x hx hmem
    rcases List.mem_cons.mp hmem with rfl | hold
    · exact ne_of_indexed hv ((h.indexed x).mpr (Or.inr hx)) rfl
    · exact h.disjoint x hx hold
  closed := h.closed

theorem grows_push (hv : s.indexOf v = none) : Grows s (s.push v) where
  indexOf := by
    intro x i hi
    have hx : x ≠ v := ne_of_indexed hv (by rw [hi]; rfl)
    simp only [State.push, Function.update_of_ne hx, hi]
  fresh := by
    intro x i hx hi
    by_cases hxv : x = v
    · subst hxv
      simp only [State.push, Function.update_self, Option.some.injEq] at hi
      omega
    · simp only [State.push, Function.update_of_ne hxv, hx] at hi
      cases hi
  lowlink := by
    intro x hx
    simp only [State.push, Function.update_of_ne (ne_of_indexed hv hx)]
  done := fun _ hx => hx
  index := Nat.le_succ _

theorem loopInv_push (h : Inv deps s₀) (hv : s₀.indexOf v = none) :
    LoopInv deps v s₀ [] (s₀.push v) where
  inv := inv_push h hv
  grows := grows_push hv
  own := by simp only [State.push, Function.update_self]
  part := ⟨[], rfl, fun u hu => absurd hu List.not_mem_nil⟩
  seen := fun w hw => absurd hw List.not_mem_nil
  le := by simp only [State.push, Function.update_self, Nat.le_refl]
  low := by
    refine ⟨v, List.mem_cons_self, ?_⟩
    rw [idx_push_self]
    simp only [State.push, Function.update_self]

/-! ### Lowering -/

theorem lowlink_lower (s : State α) (v : α) (l : Nat) :
    (s.lower v l).lowlink v = min (s.lowlink v) l := Function.update_self ..

theorem inv_lower (h : Inv deps s) (l : Nat) : Inv deps (s.lower v l) :=
  ⟨h.sorted, h.indexed, h.bound, h.onStack, h.disjoint, h.closed⟩

theorem Bounded.mono {t : State α} {l l' : Nat} {u : α} (h : Bounded deps s l u) (hl : l' ≤ l)
    (hdone : ∀ x ∈ s.done, x ∈ t.done) (hstack : ∀ x ∈ s.stack, x ∈ t.stack ∧ t.idx x = s.idx x) :
    Bounded deps t l' u := by
  intro w hw
  rcases h w hw with hd | ⟨hs, hle⟩
  · exact Or.inl (hdone w hd)
  · obtain ⟨hmem, hidx⟩ := hstack w hs
    exact Or.inr ⟨hmem, by omega⟩

theorem grows_lower {t : State α} (h : Grows s₀ t) (hv : s₀.indexOf v = none) (l : Nat) :
    Grows s₀ (t.lower v l) where
  indexOf := h.indexOf
  fresh := h.fresh
  lowlink := by
    intro x hx
    have hne := ne_of_indexed hv hx
    rw [State.lower]
    simp only [Function.update_of_ne hne]
    exact h.lowlink x hx
  done := h.done
  index := h.index

/-- Lowering to the index of an open node keeps the loop invariant and handles that
    node. -/
theorem loopInv_lower (h : LoopInv deps v s₀ handled s) (hv : s₀.indexOf v = none) {w : α}
    (hw : w ∈ s.stack) : LoopInv deps v s₀ (handled ++ [w]) (s.lower v (s.idx w)) where
  inv := inv_lower h.inv _
  grows := grows_lower h.grows hv _
  own := h.own
  part := by
    obtain ⟨above, hstack, hb⟩ := h.part
    refine ⟨above, hstack, ?_⟩
    intro u hu
    rw [lowlink_lower]
    exact (hb u hu).mono (Nat.min_le_left ..) (fun _ hx => hx) fun _ hx => ⟨hx, rfl⟩
  seen := by
    intro x hx hkey
    rw [lowlink_lower]
    rcases List.mem_append.mp hx with hold | hnew
    · rcases h.seen x hold hkey with hd | ⟨hs, hle⟩
      · exact Or.inl hd
      · exact Or.inr ⟨hs, Nat.le_trans (Nat.min_le_left ..) hle⟩
    · rw [List.mem_singleton.mp hnew]
      exact Or.inr ⟨hw, Nat.min_le_right ..⟩
  le := by
    rw [lowlink_lower]
    exact Nat.le_trans (Nat.min_le_left ..) h.le
  low := by
    obtain ⟨x, hx, heq⟩ := h.low
    rw [lowlink_lower]
    rcases Nat.le_total (s.lowlink v) (s.idx w) with hle | hle
    · exact ⟨x, hx, by rw [Nat.min_eq_left hle]; exact heq⟩
    · exact ⟨w, hw, by rw [Nat.min_eq_right hle]; rfl⟩

/-! ### A callee visited for the first time -/

theorem Grows.trans {t u : State α} (h : Grows s t) (h' : Grows t u) : Grows s u where
  indexOf := fun x i hi => h'.indexOf x i (h.indexOf x i hi)
  fresh := by
    intro x i hx hi
    cases ht : t.indexOf x with
    | none => exact Nat.le_trans h.index (h'.fresh x i ht hi)
    | some j =>
      have hj := h'.indexOf x j ht
      rw [hi, Option.some.injEq] at hj
      rw [hj]
      exact h.fresh x j hx ht
  lowlink := by
    intro x hx
    obtain ⟨i, hi⟩ := Option.isSome_iff_exists.mp hx
    rw [h'.lowlink x (by rw [h.indexOf x i hi]; rfl), h.lowlink x hx]
  done := fun x hx => h'.done x (h.done x hx)
  index := Nat.le_trans h.index h'.index

theorem LoopInv.own_isSome (h : LoopInv deps v s₀ handled s) : (s.indexOf v).isSome = true := by
  rw [h.own]
  rfl

/-- The state after a visit that started inside the loop keeps what was open. -/
theorem Visited.open_kept {w : α} {t : State α} (h : LoopInv deps v s₀ handled s)
    (ht : Visited deps w s t) : ∀ x ∈ s.stack, x ∈ t.stack ∧ t.idx x = s.idx x := by
  intro x hx
  obtain ⟨seg, hstack, -⟩ := ht.part
  refine ⟨?_, ht.grows.idx (h.inv.isSome_of_mem_stack hx)⟩
  rw [hstack]
  exact List.mem_append_right _ hx

/-- The visited node is newer than the one whose loop it is in. -/
theorem Visited.newer {w : α} {t : State α} (h : LoopInv deps v s₀ handled s)
    (hw : s.indexOf w = none) (ht : Visited deps w s t) : s₀.index < t.idx w := by
  have hsome : (t.indexOf w).isSome = true := by
    rw [ht.inv.indexed]
    rcases ht.outcome with ⟨hd, -⟩ | ⟨hs, -⟩
    · exact Or.inr hd
    · exact Or.inl hs
  obtain ⟨i, hi⟩ := Option.isSome_iff_exists.mp hsome
  have hfresh := ht.grows.fresh w i hw hi
  have hown := h.inv.bound v s₀.index h.own
  rw [State.idx, hi, Option.getD_some]
  omega

theorem loopInv_child {w : α} {t : State α} (h : LoopInv deps v s₀ handled s)
    (hv : s₀.indexOf v = none) (hw : s.indexOf w = none) (ht : Visited deps w s t) :
    LoopInv deps v s₀ (handled ++ [w]) (t.lower v (t.lowlink w)) := by
  have hkept := ht.open_kept h
  have hnewer := ht.newer h hw
  have hlow : t.lowlink v = s.lowlink v := ht.grows.lowlink v h.own_isSome
  have hle := h.le
  refine ⟨inv_lower ht.inv _, grows_lower (h.grows.trans ht.grows) hv _,
    ht.grows.indexOf v _ h.own, ?_, ?_, ?_, ?_⟩
  · obtain ⟨seg, hseg, hbseg⟩ := ht.part
    obtain ⟨above, hstack, hb⟩ := h.part
    refine ⟨seg ++ above, ?_, ?_⟩
    · rw [List.append_assoc, ← hstack]
      exact hseg
    · intro u hu
      rw [lowlink_lower, hlow]
      rcases List.mem_append.mp hu with hnew | hold
      · exact (hbseg u hnew).mono (Nat.min_le_right ..) (fun _ hx => hx) fun _ hx => ⟨hx, rfl⟩
      · exact (hb u hold).mono (Nat.min_le_left ..) ht.grows.done hkept
  · intro x hx hkey
    rw [lowlink_lower, hlow]
    rcases List.mem_append.mp hx with hold | hnew
    · rcases h.seen x hold hkey with hd | ⟨hs, hxle⟩
      · exact Or.inl (ht.grows.done x hd)
      · obtain ⟨hmem, hidx⟩ := hkept x hs
        refine Or.inr ⟨hmem, ?_⟩
        change min (s.lowlink v) (t.lowlink w) ≤ t.idx x
        omega
    · rw [List.mem_singleton.mp hnew]
      rcases ht.outcome with ⟨hd, -⟩ | ⟨hs, -⟩
      · exact Or.inl hd
      · refine Or.inr ⟨hs, ?_⟩
        change min (s.lowlink v) (t.lowlink w) ≤ t.idx w
        omega
  · rw [lowlink_lower, hlow]
    exact Nat.le_trans (Nat.min_le_left ..) hle
  · obtain ⟨x, hx, heq⟩ := h.low
    obtain ⟨hxt, hxidx⟩ := hkept x hx
    rw [lowlink_lower, hlow]
    rcases Nat.le_total (s.lowlink v) (t.lowlink w) with hmin | hmin
    · refine ⟨x, hxt, ?_⟩
      rw [Nat.min_eq_left hmin]
      change s.lowlink v = t.idx x
      omega
    · rcases ht.outcome with ⟨-, hroot, -⟩ | ⟨-, y, hy, hyeq⟩
      · omega
      · refine ⟨y, (hkept y hy).1, ?_⟩
        rw [Nat.min_eq_right hmin]
        exact hyeq

/-! ### Closing a component -/

theorem popComponent_append {above base : List α} (h : v ∉ above) :
    popComponent v (above ++ v :: base) = (above ++ [v], base) := by
  induction above with
  | nil => simp [popComponent]
  | cons a above ih =>
    have hne : a ≠ v := fun heq => h (heq ▸ List.mem_cons_self)
    have hrest : v ∉ above := fun hmem => h (List.mem_cons_of_mem _ hmem)
    simp only [List.cons_append, popComponent, if_neg hne, ih hrest]

/-- The stack of the loop, split at `v`: what is above is newer, what is below is
    older. -/
theorem LoopInv.split (h : LoopInv deps v s₀ handled s) (h₀ : Inv deps s₀) :
    ∃ above, s.stack = above ++ v :: s₀.stack ∧ v ∉ above ∧
      (∀ u ∈ above, Bounded deps s (s.lowlink v) u ∧ s₀.index < s.idx u) ∧
      ∀ x ∈ s₀.stack, s.idx x < s₀.index := by
  obtain ⟨above, hstack, hb⟩ := h.part
  have hown : s.idx v = s₀.index := by rw [State.idx, h.own, Option.getD_some]
  have hsorted := h.inv.sorted
  rw [hstack] at hsorted
  have hnew : ∀ u ∈ above, s₀.index < s.idx u := by
    intro u hu
    rw [← hown]
    exact (List.pairwise_append.mp hsorted).2.2 u hu v List.mem_cons_self
  refine ⟨above, hstack, ?_, fun u hu => ⟨hb u hu, hnew u hu⟩, ?_⟩
  · intro hmem
    have hlt := hnew v hmem
    omega
  · intro x hx
    have hxi := h₀.isSome_of_mem_stack hx
    rw [h.grows.idx hxi]
    exact h₀.idx_lt hxi

theorem LoopInv.bounded_self (h : LoopInv deps v s₀ ((deps.lookup v).getD []) s) :
    Bounded deps s (s.lowlink v) v := by
  rintro w ⟨hw, hkey⟩
  exact h.seen w hw hkey

/-- Closing at the own index takes `v` and what is above it from the stack. -/
theorem close_popped (h : LoopInv deps v s₀ handled s) (hroot : s.lowlink v = s₀.index)
    {above : List α} (hstack : s.stack = above ++ v :: s₀.stack) (hva : v ∉ above) :
    s.close v = { s with
      stack := s₀.stack
      onStack := fun x => s.onStack x && !decide (x ∈ above ++ [v])
      sccs := s.sccs ++ [above ++ [v]] } := by
  have hpop : popComponent v s.stack = (above ++ [v], s₀.stack) := by
    rw [hstack, popComponent_append hva]
  rw [State.close, if_pos (by rw [h.own, hroot])]
  simp only [hpop]

/-- The component above and including `v`, when its lowlink is its own index. -/
theorem visited_popped (h : LoopInv deps v s₀ ((deps.lookup v).getD []) s) (h₀ : Inv deps s₀)
    (hroot : s.lowlink v = s₀.index) : Visited deps v s₀ (s.close v) := by
  obtain ⟨above, hstack, hva, habove, hbelow⟩ := h.split h₀
  have hclose := close_popped h hroot hstack hva
  have hmem : ∀ x, x ∈ s.stack ↔ x ∈ above ++ [v] ∨ x ∈ s₀.stack := by
    intro x
    rw [hstack]
    simp [or_assoc]
  have hcomp : ∀ u ∈ above ++ [v], Bounded deps s s₀.index u ∧ s₀.index ≤ s.idx u := by
    intro u hu
    rcases List.mem_append.mp hu with ha | hv
    · obtain ⟨hb, hlt⟩ := habove u ha
      rw [hroot] at hb
      exact ⟨hb, by omega⟩
    · rw [List.mem_singleton.mp hv]
      have hb := h.bounded_self
      rw [hroot] at hb
      have hown : s.idx v = s₀.index := by rw [State.idx, h.own, Option.getD_some]
      exact ⟨hb, Nat.le_of_eq hown.symm⟩
  have hapart : ∀ x ∈ above ++ [v], x ∉ s₀.stack := by
    intro x hx hbase
    have hge := (hcomp x hx).2
    have hlt := hbelow x hbase
    omega
  have hdone : ∀ x, x ∈ (s.sccs ++ [above ++ [v]]).flatten ↔ x ∈ s.done ∨ x ∈ above ++ [v] := by
    intro x
    simp [State.done]
  rw [hclose]
  refine ⟨⟨?_, ?_, h.inv.bound, ?_, ?_, ?_⟩, ⟨h.grows.indexOf, h.grows.fresh, h.grows.lowlink, ?_,
    h.grows.index⟩, ⟨[], rfl, fun u hu => absurd hu List.not_mem_nil⟩, Or.inl ⟨?_, ?_, rfl⟩⟩
  · have hsorted := h.inv.sorted
    rw [hstack] at hsorted
    exact (List.pairwise_cons.mp (List.pairwise_append.mp hsorted).2.1).2
  · intro x
    rw [State.done, hdone, h.inv.indexed, hmem]
    tauto
  · intro x
    simp only [Bool.and_eq_true, Bool.not_eq_true', decide_eq_false_iff_not, h.inv.onStack, hmem]
    constructor
    · rintro ⟨hx | hx, hn⟩
      · exact absurd hx hn
      · exact hx
    · intro hx
      exact ⟨Or.inr hx, fun hc => hapart x hc hx⟩
  · intro x hx
    rw [State.done, hdone] at hx
    rcases hx with hold | hnew
    · exact fun hbase => h.inv.disjoint x hold ((hmem x).mpr (Or.inr hbase))
    · exact hapart x hnew
  · refine Closed.snoc h.inv.closed ?_
    intro u hu w hw
    rcases (hcomp u hu).1 w hw with hd | ⟨hs, hle⟩
    · exact Or.inr hd
    · rcases (hmem w).mp hs with hc | hbase
      · exact Or.inl hc
      · have hlt := hbelow w hbase
        omega
  · intro x hx
    rw [State.done, hdone]
    exact Or.inl (h.grows.done x hx)
  · rw [State.done, hdone]
    exact Or.inr (List.mem_append_right _ (List.mem_singleton.mpr rfl))
  · change s.lowlink v = s.idx v
    rw [hroot, State.idx, h.own, Option.getD_some]

/-- Otherwise `v` stays open: its lowlink is the index of an older open node. -/
theorem visited_kept (h : LoopInv deps v s₀ ((deps.lookup v).getD []) s) (h₀ : Inv deps s₀)
    (hroot : s.lowlink v ≠ s₀.index) : Visited deps v s₀ (s.close v) := by
  obtain ⟨above, hstack, hva, habove, hbelow⟩ := h.split h₀
  have hclose : s.close v = s := by
    rw [State.close, if_neg]
    rw [h.own, Option.some.injEq]
    exact fun heq => hroot heq.symm
  have hown : s.idx v = s₀.index := by rw [State.idx, h.own, Option.getD_some]
  have hle := h.le
  rw [hclose]
  refine ⟨h.inv, h.grows, ⟨above ++ [v], by rw [hstack, List.append_assoc, List.singleton_append], ?_⟩,
    Or.inr ⟨?_, ?_⟩⟩
  · intro u hu
    rcases List.mem_append.mp hu with ha | hv
    · exact (habove u ha).1
    · rw [List.mem_singleton.mp hv]
      exact h.bounded_self
  · rw [hstack]
    exact List.mem_append_right _ List.mem_cons_self
  · obtain ⟨x, hx, heq⟩ := h.low
    rw [hstack] at hx
    rcases List.mem_append.mp hx with ha | hvb
    · have hlt := (habove x ha).2
      omega
    · rcases List.mem_cons.mp hvb with rfl | hbase
      · omega
      · exact ⟨x, hbase, heq⟩

/-! ### Fuel -/

/-- How many of the listed nodes are not visited yet. -/
def pending (ns : List α) (s : State α) : Nat := ns.countP fun x => (s.indexOf x).isNone

theorem countP_lt {p q : α → Bool} {l : List α} (h : ∀ x ∈ l, p x = true → q x = true) {a : α}
    (ha : a ∈ l) (hp : p a = false) (hq : q a = true) : l.countP p < l.countP q := by
  induction l with
  | nil => exact absurd ha List.not_mem_nil
  | cons x l ih =>
    obtain ⟨hx, hl⟩ := List.forall_mem_cons.mp h
    have hmono : l.countP p ≤ l.countP q := List.countP_mono_left hl
    rw [List.countP_cons, List.countP_cons]
    rcases List.mem_cons.mp ha with rfl | hmem
    · rw [hp, hq]
      simp only [Bool.false_eq_true, ↓reduceIte]
      omega
    · have hlt := ih hl hmem
      by_cases hpx : p x = true
      · rw [hpx, hx hpx]
        omega
      · rw [Bool.not_eq_true] at hpx
        rw [hpx]
        simp only [Bool.false_eq_true, ↓reduceIte]
        omega

theorem pending_lt {ns : List α} {t : State α} (h : Grows s t) (hns : v ∈ ns)
    (hs : s.indexOf v = none) (ht : (t.indexOf v).isSome = true) : pending ns t < pending ns s := by
  refine countP_lt ?_ hns ?_ ?_
  · intro x _ hx
    cases hsx : s.indexOf x with
    | none => rfl
    | some i =>
      rw [h.indexOf x i hsx] at hx
      cases hx
  · obtain ⟨i, hi⟩ := Option.isSome_iff_exists.mp ht
    rw [hi]
    rfl
  · rw [hs]
    rfl

/-- One round of the loop, given that a first visit does what it should. -/
theorem loopInv_visitCallee {visit : α → State α → State α} (h : LoopInv deps v s₀ handled s)
    (hv : s₀.indexOf v = none) {w : α}
    (hvisit : (deps.lookup w).isSome = true → s.indexOf w = none → Visited deps w s (visit w s)) :
    LoopInv deps v s₀ (handled ++ [w]) (visitCallee deps visit v s w) := by
  have hskip : ((deps.lookup w).isSome = true → w ∈ s.done) →
      LoopInv deps v s₀ (handled ++ [w]) s := by
    intro hdone
    refine { h with seen := ?_ }
    intro x hx hkey
    rcases List.mem_append.mp hx with hold | hnew
    · exact h.seen x hold hkey
    · rw [List.mem_singleton.mp hnew] at hkey ⊢
      exact Or.inl (hdone hkey)
  rw [visitCallee]
  by_cases hkey : (deps.lookup w).isSome = true
  · rw [if_neg (by rw [Option.isNone_iff_eq_none, ← Option.not_isSome_iff_eq_none]; exact not_not_intro hkey)]
    cases hw : s.indexOf w with
    | none => exact loopInv_child h hv hw (hvisit hkey hw)
    | some iw =>
      simp only
      by_cases hon : s.onStack w = true
      · have hidx : s.idx w = iw := by rw [State.idx, hw, Option.getD_some]
        rw [if_pos hon, ← hidx]
        exact loopInv_lower h hv ((h.inv.onStack w).mp hon)
      · rw [if_neg hon]
        refine hskip fun _ => ?_
        rcases (h.inv.indexed w).mp (by rw [hw]; rfl) with hs | hd
        · exact absurd ((h.inv.onStack w).mpr hs) hon
        · exact hd
  · rw [if_pos (by rw [Option.isNone_iff_eq_none, ← Option.not_isSome_iff_eq_none]; exact hkey)]
    exact hskip fun hk => absurd hk hkey

theorem loopInv_foldl {visit : α → State α → State α} (hv : s₀.indexOf v = none)
    (hvisit : ∀ w t, Inv deps t → Grows s₀ t → (t.indexOf v).isSome = true →
      (deps.lookup w).isSome = true → t.indexOf w = none → Visited deps w t (visit w t))
    (rest : List α) (h : LoopInv deps v s₀ handled s) :
    LoopInv deps v s₀ (handled ++ rest) (rest.foldl (visitCallee deps visit v) s) := by
  induction rest generalizing handled s with
  | nil => rwa [List.append_nil, List.foldl_nil]
  | cons w rest ih =>
    have hstep := loopInv_visitCallee h hv fun hkey hw =>
      hvisit w s h.inv h.grows h.own_isSome hkey hw
    have htail := ih hstep
    rwa [List.append_assoc, List.singleton_append] at htail

/-- **A visit does what it should** when its fuel covers the nodes left. -/
theorem strongconnect_visited {ns : List α} (hkeys : ∀ w, (deps.lookup w).isSome = true → w ∈ ns)
    (fuel : Nat) : ∀ (v : α) (s : State α), Inv deps s → s.indexOf v = none → v ∈ ns →
      pending ns s ≤ fuel → Visited deps v s (strongconnect deps fuel v s) := by
  induction fuel with
  | zero =>
    intro v s _ hv hns hp
    have hpos : 0 < pending ns s := List.countP_pos_iff.mpr ⟨v, hns, by rw [hv]; rfl⟩
    omega
  | succ fuel ih =>
    intro v s hinv hv hns hp
    have hvisit : ∀ w t, Inv deps t → Grows s t → (t.indexOf v).isSome = true →
        (deps.lookup w).isSome = true → t.indexOf w = none →
        Visited deps w t (strongconnect deps fuel w t) := by
      intro w t ht hgrows hvt hkey hw
      have hlt := pending_lt hgrows hns hv hvt
      exact ih w t ht hw (hkeys w hkey) (by omega)
    have hloop := loopInv_foldl hv hvisit ((deps.lookup v).getD []) (loopInv_push hinv hv)
    rw [List.nil_append] at hloop
    rw [strongconnect]
    by_cases hroot : (((deps.lookup v).getD []).foldl
        (visitCallee deps (strongconnect deps fuel) v) (s.push v)).lowlink v = s.index
    · exact visited_popped hloop hinv hroot
    · exact visited_kept hloop hinv hroot

/-! ### The outer loop -/

theorem mem_keys_of_lookup {w : α} (h : (deps.lookup w).isSome = true) : w ∈ deps.map Prod.fst := by
  induction deps with
  | nil => cases h
  | cons e deps ih =>
    obtain ⟨k, l⟩ := e
    by_cases hk : w = k
    · rw [hk]
      exact List.mem_cons_self
    · rw [List.lookup_cons, beq_eq_false_iff_ne.mpr hk] at h
      exact List.mem_cons_of_mem _ (ih h)

theorem mem_nodes_of_key {names : List α} {w : α} (h : (deps.lookup w).isSome = true) :
    w ∈ nodes names deps := List.mem_append_right _ (mem_keys_of_lookup h)

/-- Between two roots nothing is open and every handled root is emitted. -/
structure RootInv (deps : Deps α) (handled : List α) (s : State α) : Prop where
  inv : Inv deps s
  stack : s.stack = []
  done : ∀ n ∈ handled, n ∈ s.done

theorem rootInv_visitRoot {names : List α} {n : α} (h : RootInv deps handled s) (hn : n ∈ names) :
    RootInv deps (handled ++ [n]) (visitRoot deps (nodes names deps).length s n) := by
  rw [visitRoot]
  by_cases hi : (s.indexOf n).isSome = true
  · rw [if_pos hi]
    refine ⟨h.inv, h.stack, ?_⟩
    intro x hx
    rcases List.mem_append.mp hx with hold | hnew
    · exact h.done x hold
    · rw [List.mem_singleton.mp hnew]
      rcases (h.inv.indexed n).mp hi with hs | hd
      · rw [h.stack] at hs
        exact absurd hs List.not_mem_nil
      · exact hd
  · rw [if_neg hi]
    rw [Option.not_isSome_iff_eq_none] at hi
    have hkeys : ∀ w, (deps.lookup w).isSome = true → w ∈ nodes names deps :=
      fun w hw => mem_nodes_of_key hw
    have hvisit := strongconnect_visited hkeys (nodes names deps).length n s h.inv hi (List.mem_append_left _ hn) List.countP_le_length
    rcases hvisit.outcome with ⟨hd, -, hstack⟩ | ⟨-, x, hx, -⟩
    · refine ⟨hvisit.inv, hstack.trans h.stack, ?_⟩
      intro x hx
      rcases List.mem_append.mp hx with hold | hnew
      · exact hvisit.grows.done x (h.done x hold)
      · rw [List.mem_singleton.mp hnew]
        exact hd
    -- nothing older is open, so the root cannot stay open
    · rw [h.stack] at hx
      exact absurd hx List.not_mem_nil

theorem rootInv_foldl {names : List α} (rest : List α) (hrest : ∀ n ∈ rest, n ∈ names)
    (h : RootInv deps handled s) :
    RootInv deps (handled ++ rest)
      (rest.foldl (visitRoot deps (nodes names deps).length) s) := by
  induction rest generalizing handled s with
  | nil => rwa [List.append_nil, List.foldl_nil]
  | cons n rest ih =>
    obtain ⟨hn, hrest⟩ := List.forall_mem_cons.mp hrest
    have htail := ih hrest (rootInv_visitRoot h hn)
    rwa [List.append_assoc, List.singleton_append] at htail

theorem tarjanSccs_spec (names : List α) (deps : Deps α) :
    Closed deps (tarjanSccs names deps) ∧ ∀ n ∈ names, n ∈ (tarjanSccs names deps).flatten := by
  have hstart : RootInv deps [] (State.empty : State α) :=
    ⟨inv_empty deps, rfl, fun n hn => absurd hn List.not_mem_nil⟩
  have hend := rootInv_foldl names (fun _ hn => hn) hstart
  rw [List.nil_append] at hend
  exact ⟨hend.inv.closed, hend.done⟩

/-! ### Acyclicity -/

/-- Along closed components that are single nodes without a loop, every node is
    accessible against the direction of the edges. -/
theorem Closed.acc {sccs : List (List α)} (h : Closed deps sccs)
    (hsingle : ∀ comp ∈ sccs, comp.length ≤ 1)
    (hloop : ∀ v ∈ sccs.flatten, ¬ Edge deps v v) :
    ∀ v ∈ sccs.flatten, Acc (fun b a => Edge deps a b) v := by
  induction h with
  | nil => exact fun v hv => absurd hv List.not_mem_nil
  | @snoc sccs comp h hc ih =>
    have hold := ih (fun c hmem => hsingle c (List.mem_append_left _ hmem)) fun v hv =>
      hloop v (by rw [List.flatten_append]; exact List.mem_append_left _ hv)
    intro v hv
    rw [List.flatten_append, List.flatten_singleton] at hv
    rcases List.mem_append.mp hv with hv | hv
    · exact hold v hv
    · have hlen := hsingle comp (List.mem_append_right _ (List.mem_singleton.mpr rfl))
      have hself : ¬ Edge deps v v := by
        refine hloop v ?_
        rw [List.flatten_append, List.flatten_singleton]
        exact List.mem_append_right _ hv
      refine Acc.intro v fun w hw => ?_
      rcases hc v hv w hw with hcomp | hdone
      · have heq : w = v := by
          match comp, hlen, hv, hcomp with
          | [x], _, hv, hcomp =>
            rw [List.mem_singleton.mp hv, List.mem_singleton.mp hcomp]
        rw [heq] at hw
        exact absurd hw hself
      · exact hold w hdone

/-- **A graph whose components are single nodes without a loop has no cycle.** -/
theorem acyclic_of_sccs {names : List α} {deps : Deps α}
    (hnames : ∀ w, (deps.lookup w).isSome = true → w ∈ names)
    (hsingle : ∀ comp ∈ tarjanSccs names deps, comp.length ≤ 1)
    (hloop : ∀ v ∈ (tarjanSccs names deps).flatten, ¬ Edge deps v v) (v : α) :
    ¬ TransGen (Edge deps) v v := by
  obtain ⟨hclosed, hall⟩ := tarjanSccs_spec names deps
  intro hcyc
  have hkey : (deps.lookup v).isSome = true := by
    cases hcyc with
    | single h => exact h.2
    | tail _ h => exact h.2
  exact not_transGen_of_acc (hclosed.acc hsingle hloop v (hall v (hnames v hkey))) hcyc

end CambrianLang.Tarjan
