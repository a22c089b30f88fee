/-
  **Worklist search** for a bad node among those reachable from a stack.

  A node is expanded once; one that is not known is skipped.  The search ends, and
  when it finds nothing no reachable node is bad.  Below it the set of what is reachable,
  grown in rounds until one adds nothing.
-/
import Mathlib.Data.List.Nodup
import Mathlib.Data.List.Perm.Subperm
import Mathlib.Algebra.BigOperators.Group.List.Basic
import Mathlib.Algebra.GroupWithZero.Nat

namespace CambrianLang.Worklist

open Relation

variable {α : Type} [DecidableEq α]

/-- The loop, with the top of the stack first; `none` when the fuel runs out. -/
def search (expand : α → Option (List α)) (bad : α → Bool) :
    Nat → List α → List α → Option (Option α)
  | 0, _, _ => none
  | _ + 1, _, [] => some none
  | fuel + 1, visited, x :: stack =>
      if x ∈ visited then search expand bad fuel visited stack
      else match expand x with
        | none => search expand bad fuel (x :: visited) stack
        | some next =>
            if bad x then some (some x)
            else search expand bad fuel (x :: visited) (next.reverse ++ stack)

/-- The expansion of a known node leads to its successors. -/
def Step (expand : α → Option (List α)) (a b : α) : Prop := ∃ next, expand a = some next ∧ b ∈ next

def Good (expand : α → Option (List α)) (bad : α → Bool) (a : α) : Prop :=
  (expand a).isSome = true → bad a = false

variable {expand : α → Option (List α)} {bad : α → Bool}

/-- What is visited is good and its successors are visited or waiting. -/
def Inv (expand : α → Option (List α)) (bad : α → Bool) (visited stack : List α) : Prop :=
  ∀ a ∈ visited, Good expand bad a ∧ ∀ b, Step expand a b → b ∈ visited ∨ b ∈ stack

theorem search_closed (fuel : Nat) : ∀ visited stack : List α, Inv expand bad visited stack →
    search expand bad fuel visited stack = some none →
    ∃ seen : List α, visited ⊆ seen ∧ stack ⊆ seen ∧ Inv expand bad seen [] := by
  induction fuel with
  | zero => exact fun _ _ _ h => nomatch h
  | succ fuel ih =>
    intro visited stack hinv h
    cases stack with
    | nil => exact ⟨visited, List.Subset.refl _, List.nil_subset _, hinv⟩
    | cons x stack =>
      rw [search] at h
      by_cases hx : x ∈ visited
      · rw [if_pos hx] at h
        have hinv' : Inv expand bad visited stack := by
          intro a ha
          refine ⟨(hinv a ha).1, fun b hb => ?_⟩
          rcases (hinv a ha).2 b hb with hv | hs
          · exact Or.inl hv
          · rcases List.mem_cons.mp hs with rfl | hs
            · exact Or.inl hx
            · exact Or.inr hs
        obtain ⟨seen, hvis, hstack, hclosed⟩ := ih visited stack hinv' h
        exact ⟨seen, hvis, List.cons_subset.mpr ⟨hvis hx, hstack⟩, hclosed⟩
      · rw [if_neg hx] at h
        have hold : ∀ a ∈ visited, ∀ rest : List α, stack ⊆ rest →
            Good expand bad a ∧ ∀ b, Step expand a b → b ∈ x :: visited ∨ b ∈ rest := by
          intro a ha rest hrest
          refine ⟨(hinv a ha).1, fun b hb => ?_⟩
          rcases (hinv a ha).2 b hb with hv | hs
          · exact Or.inl (List.mem_cons_of_mem _ hv)
          · rcases List.mem_cons.mp hs with rfl | hs
            · exact Or.inl List.mem_cons_self
            · exact Or.inr (hrest hs)
        cases hexp : expand x with
        | none =>
          rw [hexp] at h
          have hinv' : Inv expand bad (x :: visited) stack := by
            intro a ha
            rcases List.mem_cons.mp ha with rfl | ha
            · refine ⟨fun hsome => ?_, ?_⟩
              · rw [hexp] at hsome
                cases hsome
              · rintro b ⟨next, hnext, -⟩
                rw [hexp] at hnext
                cases hnext
            · exact hold a ha stack (List.Subset.refl _)
          obtain ⟨seen, hvis, hstack, hclosed⟩ := ih _ _ hinv' h
          exact ⟨seen, fun a ha => hvis (List.mem_cons_of_mem _ ha),
            List.cons_subset.mpr ⟨hvis List.mem_cons_self, hstack⟩, hclosed⟩
        | some next =>
          rw [hexp] at h
          by_cases hbad : bad x = true
          · simp only [hbad, if_true] at h
            cases h
          · simp only [hbad] at h
            have hinv' : Inv expand bad (x :: visited) (next.reverse ++ stack) := by
              intro a ha
              rcases List.mem_cons.mp ha with rfl | ha
              · refine ⟨fun _ => Bool.not_eq_true _ ▸ hbad, ?_⟩
                rintro b ⟨next', hnext, hb⟩
                rw [hexp, Option.some.injEq] at hnext
                rw [← hnext] at hb
                exact Or.inr (List.mem_append_left _ (List.mem_reverse.mpr hb))
              · exact hold a ha _ (List.subset_append_right _ _)
            obtain ⟨seen, hvis, hstack, hclosed⟩ := ih _ _ hinv' h
            exact ⟨seen, fun a ha => hvis (List.mem_cons_of_mem _ ha),
              List.cons_subset.mpr ⟨hvis List.mem_cons_self,
                fun a ha => hstack (List.mem_append_right _ ha)⟩, hclosed⟩

/-- **A search that finds nothing** has seen every reachable node, and none is bad. -/
theorem good_of_search {fuel : Nat} {stack : List α} (h : search expand bad fuel [] stack = some none)
    {a b : α} (ha : a ∈ stack) (hab : ReflTransGen (Step expand) a b) : Good expand bad b := by
  obtain ⟨seen, -, hstack, hclosed⟩ := search_closed fuel [] stack
    (fun a ha => absurd ha List.not_mem_nil) h
  have hb : b ∈ seen := by
    induction hab with
    | refl => exact hstack ha
    | tail _ hstep ih =>
      rcases (hclosed _ ih).2 _ hstep with hmem | hmem
      · exact hmem
      · exact absurd hmem List.not_mem_nil
  exact (hclosed b hb).1

/-! ### Termination -/

/-- What a node can still push. -/
def weight (expand : α → Option (List α)) (visited : List α) (k : α) : Nat :=
  if k ∈ visited then 0 else ((expand k).getD []).length

/-- The successors that nodes not visited can still push. -/
def pending (expand : α → Option (List α)) (keys visited : List α) : Nat :=
  (keys.map (weight expand visited)).sum

theorem weight_visit_le (visited : List α) (x k : α) :
    weight expand (x :: visited) k ≤ weight expand visited k := by
  unfold weight
  by_cases hk : k ∈ visited
  · rw [if_pos (List.mem_cons_of_mem _ hk)]
    exact Nat.zero_le _
  · rw [if_neg hk]
    by_cases hkx : k ∈ x :: visited
    · rw [if_pos hkx]
      exact Nat.zero_le _
    · exact Nat.le_of_eq (if_neg hkx)

theorem pending_visit_le (keys visited : List α) (x : α) :
    pending expand keys (x :: visited) ≤ pending expand keys visited := by
  unfold pending
  induction keys with
  | nil => exact Nat.le_refl _
  | cons k keys ih =>
    have hk : weight expand (x :: visited) k ≤ weight expand visited k := weight_visit_le visited x k
    rw [List.map_cons, List.map_cons, List.sum_cons, List.sum_cons]
    omega

/-- Visiting a node takes its successors off. -/
theorem pending_visit {keys visited next : List α} {x : α} (hx : x ∉ visited)
    (hexp : expand x = some next) (hkey : x ∈ keys) :
    pending expand keys (x :: visited) + next.length ≤ pending expand keys visited := by
  induction keys with
  | nil => exact absurd hkey List.not_mem_nil
  | cons k keys ih =>
    have hrest : pending expand keys (x :: visited) ≤ pending expand keys visited :=
      pending_visit_le keys visited x
    have hk : weight expand (x :: visited) k ≤ weight expand visited k := weight_visit_le visited x k
    unfold pending at ih hrest ⊢
    rw [List.map_cons, List.map_cons, List.sum_cons, List.sum_cons]
    rcases List.mem_cons.mp hkey with rfl | hmem
    · have hzero : weight expand (x :: visited) x = 0 := if_pos List.mem_cons_self
      have hall : weight expand visited x = next.length := by
        rw [weight, if_neg hx, hexp, Option.getD_some]
      omega
    · have hih := ih hmem
      omega

theorem search_isSome {keys : List α} (hkeys : ∀ a, (expand a).isSome = true → a ∈ keys) (fuel : Nat) :
    ∀ visited stack : List α, stack.length + pending expand keys visited < fuel →
      (search expand bad fuel visited stack).isSome = true := by
  induction fuel with
  | zero => exact fun _ _ h => absurd h (Nat.not_lt_zero _)
  | succ fuel ih =>
    intro visited stack hlt
    cases stack with
    | nil => rfl
    | cons x stack =>
      rw [search]
      rw [List.length_cons] at hlt
      by_cases hx : x ∈ visited
      · rw [if_pos hx]
        exact ih visited stack (by omega)
      · rw [if_neg hx]
        cases hexp : expand x with
        | none =>
          have hle : pending expand keys (x :: visited) ≤ pending expand keys visited :=
            pending_visit_le keys visited x
          exact ih _ _ (by omega)
        | some next =>
          have hle := pending_visit hx hexp (hkeys x (by rw [hexp]; rfl))
          by_cases hbad : bad x = true
          · simp only [hbad, if_true, Option.isSome_some]
          · simp only [hbad]
            refine ih _ _ ?_
            rw [List.length_append, List.length_reverse]
            omega

/-! ### A set closed in rounds -/

section Rounds

variable (deps : α → List α)

/-- The set with all that its elements ask for. -/
def growSet (set : List α) : List α := (set.flatMap deps).foldl (fun set d => set.insert d) set

/-- `while changed`. -/
def rounds : Nat → List α → Option (List α)
  | 0, _ => none
  | fuel + 1, set =>
      if (growSet deps set).length = set.length then some set else rounds fuel (growSet deps set)

variable {deps}

theorem mem_foldl_insert {l set : List α} {x : α} :
    x ∈ l.foldl (fun set d => set.insert d) set ↔ x ∈ l ∨ x ∈ set := by
  induction l generalizing set with
  | nil => simp
  | cons d l ih =>
    rw [List.foldl_cons, ih, List.mem_insert_iff, List.mem_cons]
    tauto

theorem nodup_foldl_insert {l set : List α} (h : set.Nodup) :
    (l.foldl (fun set d => set.insert d) set).Nodup := by
  induction l generalizing set with
  | nil => exact h
  | cons d l ih => exact ih (List.Nodup.insert h)

theorem length_foldl_insert (l set : List α) :
    set.length ≤ (l.foldl (fun set d => set.insert d) set).length ∧
      ((l.foldl (fun set d => set.insert d) set).length = set.length → ∀ d ∈ l, d ∈ set) := by
  induction l generalizing set with
  | nil => exact ⟨Nat.le_refl _, fun _ _ h => absurd h List.not_mem_nil⟩
  | cons d l ih =>
    obtain ⟨hle, heq⟩ := ih (set.insert d)
    rw [List.foldl_cons]
    by_cases hd : d ∈ set
    · rw [List.insert_of_mem hd] at hle heq ⊢
      refine ⟨hle, fun hlen => List.forall_mem_cons.mpr ⟨hd, heq hlen⟩⟩
    · rw [List.length_insert_of_not_mem hd] at hle
      exact ⟨by omega, fun hlen => by omega⟩

theorem mem_growSet {set : List α} {x : α} :
    x ∈ growSet deps set ↔ (∃ a ∈ set, x ∈ deps a) ∨ x ∈ set := by
  rw [growSet, mem_foldl_insert, List.mem_flatMap]

/-- **The rounds end with what the set reaches**, when nothing outside a finite set is asked
    for. -/
theorem rounds_spec {univ : List α} (hdeps : ∀ a, deps a ⊆ univ) (fuel : Nat) :
    ∀ set : List α, set.Nodup → set ⊆ univ → univ.length < set.length + fuel →
      ∃ closed, rounds deps fuel set = some closed ∧ closed.Nodup ∧
        ∀ x, x ∈ closed ↔ ∃ a ∈ set, ReflTransGen (fun a b => b ∈ deps a) a x := by
  induction fuel with
  | zero =>
    intro set hnodup hsub hlt
    have hle := (hnodup.subperm hsub).length_le
    omega
  | succ fuel ih =>
    intro set hnodup hsub hlt
    obtain ⟨hle, hstop⟩ := length_foldl_insert (set.flatMap deps) set
    rw [rounds]
    by_cases hlen : (growSet deps set).length = set.length
    · refine ⟨set, if_pos hlen, hnodup, fun x => ⟨fun hx => ⟨x, hx, .refl⟩, ?_⟩⟩
      rintro ⟨a, ha, hpath⟩
      induction hpath with
      | refl => exact ha
      | tail _ hstep ih => exact hstop hlen _ (List.mem_flatMap.mpr ⟨_, ih, hstep⟩)
    · have hgrown : set.length < (growSet deps set).length := Nat.lt_of_le_of_ne hle (Ne.symm hlen)
      have hsub' : growSet deps set ⊆ univ := by
        intro x hx
        rcases mem_growSet.mp hx with ⟨a, -, hx⟩ | hx
        · exact hdeps a hx
        · exact hsub hx
      obtain ⟨closed, hclosed, hnd, hmem⟩ :=
        ih (growSet deps set) (nodup_foldl_insert hnodup) hsub' (by omega)
      refine ⟨closed, by rw [if_neg hlen]; exact hclosed, hnd, fun x => ?_⟩
      rw [hmem]
      constructor
      · rintro ⟨b, hb, hpath⟩
        rcases mem_growSet.mp hb with ⟨a, ha, hstep⟩ | hb
        · exact ⟨a, ha, .head hstep hpath⟩
        · exact ⟨b, hb, hpath⟩
      · rintro ⟨a, ha, hpath⟩
        exact ⟨a, mem_growSet.mpr (Or.inr ha), hpath⟩

end Rounds

end CambrianLang.Worklist
