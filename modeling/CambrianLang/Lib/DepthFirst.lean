/-
  **A depth-first order of the nodes `0..n`, dependencies first.**

  A node is put into the order when all it depends on has been visited, so a dependency that
  comes later was still open at that moment.  The open nodes are those a visit came through:
  each of them reaches the node being visited.  So a dependency comes first unless it reaches
  the node itself, whatever cycles there are elsewhere.
-/
import Mathlib.Data.List.Perm.Basic

namespace CambrianLang.DepthFirst

open Relation

inductive Mark where
  | unvisited | onStack | done
deriving DecidableEq

structure State where
  state : List Mark
  ordered : List Nat

def State.mark (s : State) (i : Nat) (m : Mark) : State := { s with state := s.state.set i m }

/-- The end of a visit. -/
def State.finish (s : State) (i : Nat) : State :=
  { state := s.state.set i .done, ordered := s.ordered ++ [i] }

/-- One round of the loop over the dependencies. -/
def visitDep (visit : Nat → State → Option State) (s : State) (di : Nat) : Option State :=
  if di < s.state.length then visit di s else some s

def visit (deps : Nat → List Nat) : Nat → Nat → State → Option State
  | 0, _, _ => none
  | fuel + 1, idx, s =>
      match s.state[idx]? with
      | none => none
      | some .onStack | some .done => some s
      | some .unvisited =>
          ((deps idx).foldlM (visitDep (visit deps fuel)) (s.mark idx .onStack)).map (·.finish idx)

def initial (n : Nat) : State := { state := List.replicate n .unvisited, ordered := [] }

/-- `dfs_topo`. -/
def dfsTopo (fuel n : Nat) (deps : Nat → List Nat) : Option (List Nat) :=
  ((List.range n).foldlM (fun s i => visit deps fuel i s) (initial n)).map State.ordered

/-! ### The order -/

/-- The first comes before the second in the list. -/
def Before {α : Type} (l : List α) (a b : α) : Prop := ∃ l₁ l₂, l = l₁ ++ b :: l₂ ∧ a ∈ l₁

/-- A dependency among the nodes. -/
def Edge (deps : Nat → List Nat) (n i j : Nat) : Prop := j ∈ deps i ∧ j < n

abbrev Reach (deps : Nat → List Nat) (n : Nat) : Nat → Nat → Prop := ReflTransGen (Edge deps n)

theorem Before.append {α : Type} {l : List α} {a b : α} (h : Before l a b) (more : List α) :
    Before (l ++ more) a b := by
  obtain ⟨l₁, l₂, rfl, ha⟩ := h
  exact ⟨l₁, l₂ ++ more, by simp, ha⟩

theorem before_snoc {α : Type} {l : List α} {a : α} (ha : a ∈ l) (b : α) : Before (l ++ [b]) a b :=
  ⟨l, [], rfl, ha⟩

theorem Before.filterMap {α β : Type} {l : List α} {a b : α} {f : α → Option β} {a' b' : β}
    (h : Before l a b) (ha : f a = some a') (hb : f b = some b') : Before (l.filterMap f) a' b' := by
  obtain ⟨l₁, l₂, rfl, hmem⟩ := h
  refine ⟨l₁.filterMap f, l₂.filterMap f, ?_, List.mem_filterMap.mpr ⟨a, hmem, ha⟩⟩
  rw [List.filterMap_append, List.filterMap_cons_some hb]

/-! ### The invariant -/

variable {deps : Nat → List Nat} {n : Nat}

/-- What holds between any two steps. -/
structure Inv (deps : Nat → List Nat) (n : Nat) (s : State) : Prop where
  length : s.state.length = n
  nodup : s.ordered.Nodup
  finished : ∀ i, i ∈ s.ordered ↔ s.state[i]? = some .done
  ahead : ∀ i ∈ s.ordered, ∀ j, Edge deps n i j → Before s.ordered j i ∨ Reach deps n j i

/-- How many nodes are left. -/
def left (s : State) : Nat := s.state.count .unvisited

/-- What a visit leaves alone. -/
structure Grows (s t : State) : Prop where
  ordered : ∃ more, t.ordered = s.ordered ++ more
  opened : ∀ i : Nat, t.state[i]? = some .onStack ↔ s.state[i]? = some .onStack
  left : left t ≤ left s

theorem Grows.refl (s : State) : Grows s s :=
  ⟨⟨[], (List.append_nil _).symm⟩, fun _ => Iff.rfl, Nat.le_refl _⟩

theorem Grows.trans {s t u : State} (h : Grows s t) (h' : Grows t u) : Grows s u := by
  obtain ⟨more, hmore⟩ := h.ordered
  obtain ⟨more', hmore'⟩ := h'.ordered
  refine ⟨⟨more ++ more', ?_⟩, fun i => (h'.opened i).trans (h.opened i),
    Nat.le_trans h'.left h.left⟩
  rw [hmore', hmore, List.append_assoc]

theorem Grows.mem {s t : State} (h : Grows s t) {i : Nat} (hi : i ∈ s.ordered) : i ∈ t.ordered := by
  obtain ⟨more, hmore⟩ := h.ordered
  rw [hmore]
  exact List.mem_append_left _ hi

/-- What a visit of `i` achieves. -/
structure Visited (deps : Nat → List Nat) (n i : Nat) (s t : State) : Prop where
  inv : Inv deps n t
  grows : Grows s t
  outcome : i ∈ t.ordered ∨ t.state[i]? = some .onStack

theorem inv_initial (deps : Nat → List Nat) (n : Nat) : Inv deps n (initial n) where
  length := List.length_replicate
  nodup := List.nodup_nil
  finished := by
    intro i
    simp [initial, List.getElem?_replicate]
  ahead := fun i hi => absurd hi List.not_mem_nil

theorem getElem?_set {l : List Mark} {i : Nat} (hi : i < l.length) (m : Mark) (j : Nat) :
    (l.set i m)[j]? = if j = i then some m else l[j]? := by
  by_cases heq : j = i
  · rw [if_pos heq, heq, List.getElem?_set_self hi]
  · rw [if_neg heq, List.getElem?_set_ne (Ne.symm heq)]

section Step

variable {s : State} {v : Nat} (hinv : Inv deps n s) (hv : s.state[v]? = some .unvisited)

include hinv hv

theorem inv_mark : Inv deps n (s.mark v .onStack) := by
  have hlt : v < s.state.length := (List.getElem?_eq_some_iff.mp hv).1
  refine ⟨?_, hinv.nodup, ?_, hinv.ahead⟩
  · rw [State.mark, List.length_set, hinv.length]
  · intro i
    rw [State.mark, getElem?_set hlt, hinv.finished]
    by_cases heq : i = v
    · simp [heq, hv]
    · rw [if_neg heq]

omit hinv in
theorem left_mark : left (s.mark v .onStack) + 1 = left s := by
  obtain ⟨hlt, hget⟩ := List.getElem?_eq_some_iff.mp hv
  have hpos : 0 < s.state.count .unvisited :=
    List.count_pos_iff.mpr (hget ▸ List.getElem_mem hlt)
  rw [left, left, State.mark, List.count_set hlt, hget]
  simp
  omega

/-- The loop of a visit of `v`, with the dependencies handled so far. -/
def Loop (deps : Nat → List Nat) (n v : Nat) (s₀ : State) (handled : List Nat) (s : State) : Prop :=
  Inv deps n s ∧ Grows (s₀.mark v .onStack) s ∧ ∀ j ∈ handled, j < n → j ∈ s.ordered ∨
    s.state[j]? = some .onStack

omit hinv hv in
theorem opened_iff {s₀ : State} (hlt : v < s₀.state.length) (h : Grows (s₀.mark v .onStack) s)
    (i : Nat) : s.state[i]? = some .onStack ↔ i = v ∨ s₀.state[i]? = some .onStack := by
  rw [h.opened, State.mark, getElem?_set hlt]
  by_cases heq : i = v
  · simp [heq]
  · simp [heq]

omit hinv hv in
theorem finish_getElem? {t : State} (hlt : v < t.state.length) (i : Nat) :
    (t.finish v).state[i]? = if i = v then some .done else t.state[i]? :=
  getElem?_set hlt .done i

omit hinv hv in
/-- An open node that depends on what is in the order, or on nodes that reach it, can be put
    into the order. -/
theorem inv_finish {t : State} (ht : Inv deps n t) (hvt : t.state[v]? = some .onStack)
    (hdeps : ∀ j, Edge deps n v j → j ∈ t.ordered ∨ Reach deps n j v) :
    Inv deps n (t.finish v) := by
  have hlt : v < t.state.length := (List.getElem?_eq_some_iff.mp hvt).1
  have hnew : v ∉ t.ordered := by
    rw [ht.finished, hvt]
    decide
  refine ⟨?_, ?_, ?_, ?_⟩
  · rw [State.finish, List.length_set, ht.length]
  · refine List.nodup_append.mpr ⟨ht.nodup, List.pairwise_singleton _ v, ?_⟩
    rintro a ha b hb rfl
    exact hnew (List.mem_singleton.mp hb ▸ ha)
  · intro i
    rw [finish_getElem? hlt, State.finish, List.mem_append, List.mem_singleton, ht.finished]
    by_cases heq : i = v
    · simp [heq]
    · simp [heq]
  · intro i hi j hedge
    rcases List.mem_append.mp hi with hold | hlast
    · exact (ht.ahead i hold j hedge).imp_left fun h => h.append [v]
    · rw [List.mem_singleton.mp hlast] at hedge ⊢
      rcases hdeps j hedge with hmem | hreach
      · exact Or.inl (before_snoc hmem v)
      · exact Or.inr hreach

omit hinv in
theorem grows_finish {t : State} (hgrows : Grows (s.mark v .onStack) t)
    (htlt : v < t.state.length) : Grows s (t.finish v) := by
  have hlt : v < s.state.length := (List.getElem?_eq_some_iff.mp hv).1
  refine ⟨?_, ?_, ?_⟩
  · obtain ⟨more, hmore⟩ := hgrows.ordered
    exact ⟨more ++ [v], by rw [State.finish, hmore, List.append_assoc]; rfl⟩
  · intro i
    rw [finish_getElem? htlt]
    by_cases heq : i = v
    · simp [heq, hv]
    · simp [heq, opened_iff hlt hgrows]
  · have hmark := left_mark hv
    have hcount : left (t.finish v) ≤ left t := by
      rw [left, left, State.finish, List.count_set htlt]
      simp
    have hle := hgrows.left
    omega

/-- Finishing `v`: what it depends on is in the order or was open when it was visited. -/
theorem visited_finish {t : State} (hloop : Loop deps n v s (deps v) t)
    (hopen : ∀ g : Nat, s.state[g]? = some .onStack → Reach deps n g v) :
    Visited deps n v s (t.finish v) := by
  obtain ⟨ht, hgrows, hall⟩ := hloop
  have hlt : v < s.state.length := (List.getElem?_eq_some_iff.mp hv).1
  have htlt : v < t.state.length := by rwa [ht.length, ← hinv.length]
  have hopened := opened_iff hlt hgrows
  refine ⟨inv_finish ht ((hopened v).mpr (Or.inl rfl)) ?_, grows_finish hv hgrows htlt,
    Or.inl (List.mem_append_right _ List.mem_cons_self)⟩
  intro j hedge
  rcases hall j hedge.1 hedge.2 with hmem | hon
  · exact Or.inl hmem
  · rcases (hopened j).mp hon with rfl | hold
    · exact Or.inr .refl
    · exact Or.inr (hopen j hold)

end Step

/-! ### The recursion -/

theorem loop_foldlM {visitAt : Nat → State → Option State} {v : Nat} {s₀ : State}
    (hvisit : ∀ j t, j < n → Inv deps n t → Grows (s₀.mark v .onStack) t → j ∈ deps v →
      ∃ u, visitAt j t = some u ∧ Visited deps n j t u)
    (rest : List Nat) (hrest : ∀ j ∈ rest, j ∈ deps v) (handled : List Nat) {s : State}
    (h : Loop deps n v s₀ handled s) :
    ∃ t, rest.foldlM (visitDep visitAt) s = some t ∧ Loop deps n v s₀ (handled ++ rest) t := by
  induction rest generalizing handled s with
  | nil => exact ⟨s, rfl, by rwa [List.append_nil]⟩
  | cons j rest ih =>
    obtain ⟨hj, hrest⟩ := List.forall_mem_cons.mp hrest
    obtain ⟨hinv, hgrows, hhandled⟩ := h
    have hstep : ∃ u, visitDep visitAt s j = some u ∧ Loop deps n v s₀ (handled ++ [j]) u := by
      rw [visitDep, hinv.length]
      by_cases hlt : j < n
      · obtain ⟨u, hu, hdone⟩ := hvisit j s hlt hinv hgrows hj
        refine ⟨u, by rw [if_pos hlt, hu], hdone.inv, hgrows.trans hdone.grows, ?_⟩
        intro k hk hkn
        rcases List.mem_append.mp hk with hold | hnew
        · rcases hhandled k hold hkn with hmem | hon
          · exact Or.inl (hdone.grows.mem hmem)
          · exact Or.inr ((hdone.grows.opened k).mpr hon)
        · rw [List.mem_singleton.mp hnew]
          exact hdone.outcome
      · refine ⟨s, by rw [if_neg hlt], hinv, hgrows, ?_⟩
        intro k hk hkn
        rcases List.mem_append.mp hk with hold | hnew
        · exact hhandled k hold hkn
        · rw [List.mem_singleton.mp hnew] at hkn
          exact absurd hkn hlt
    obtain ⟨u, hu, hloop⟩ := hstep
    obtain ⟨t, ht, hend⟩ := ih hrest _ hloop
    refine ⟨t, ?_, by rwa [List.append_assoc] at hend⟩
    rw [List.foldlM_cons, hu]
    exact ht

/-- **A visit does what it should** when its fuel covers the nodes left and every open node
    reaches the visited one. -/
theorem visit_spec (fuel : Nat) : ∀ (v : Nat) (s : State), Inv deps n s → v < n →
    (∀ g : Nat, s.state[g]? = some .onStack → Reach deps n g v) → left s < fuel →
      ∃ t, visit deps fuel v s = some t ∧ Visited deps n v s t := by
  induction fuel with
  | zero => exact fun _ _ _ _ _ hlt => absurd hlt (Nat.not_lt_zero _)
  | succ fuel ih =>
    intro v s hinv hlt hopen hfuel
    have hlen : v < s.state.length := by rwa [hinv.length]
    rw [visit]
    cases hv : s.state[v]? with
    | none =>
      rw [List.getElem?_eq_none_iff] at hv
      omega
    | some m =>
      cases m with
      | onStack => exact ⟨s, rfl, hinv, .refl s, Or.inr hv⟩
      | done => exact ⟨s, rfl, hinv, .refl s, Or.inl ((hinv.finished v).mpr hv)⟩
      | unvisited =>
        have hmark := left_mark hv
        have hvisit : ∀ j t, j < n → Inv deps n t → Grows (s.mark v .onStack) t → j ∈ deps v →
            ∃ u, visit deps fuel j t = some u ∧ Visited deps n j t u := by
          intro j t hj ht hgrows hdep
          have hle := hgrows.left
          refine ih j t ht hj ?_ (by omega)
          -- whatever is open reaches `v`, and `v` depends on `j`
          intro g hg
          rcases (opened_iff hlen hgrows g).mp hg with rfl | hold
          · exact .single ⟨hdep, hj⟩
          · exact (hopen g hold).tail ⟨hdep, hj⟩
        obtain ⟨t, ht, hloop⟩ := loop_foldlM hvisit (deps v) (fun _ hj => hj) []
          ⟨inv_mark hinv hv, .refl _, fun _ hj => absurd hj List.not_mem_nil⟩
        simp only [ht, Option.map_some]
        exact ⟨t.finish v, rfl, visited_finish hinv hv hloop hopen⟩

theorem roots_foldlM {fuel : Nat} (hfuel : n < fuel) (rest : List Nat) (hrest : ∀ i ∈ rest, i < n)
    (handled : List Nat) {s : State} (hinv : Inv deps n s)
    (hclosed : ∀ i : Nat, s.state[i]? ≠ some .onStack) (hhandled : ∀ i ∈ handled, i ∈ s.ordered) :
    ∃ t, rest.foldlM (fun s i => visit deps fuel i s) s = some t ∧ Inv deps n t ∧
      ∀ i ∈ handled ++ rest, i ∈ t.ordered := by
  induction rest generalizing handled s with
  | nil => exact ⟨s, rfl, hinv, by rwa [List.append_nil]⟩
  | cons i rest ih =>
    obtain ⟨hi, hrest⟩ := List.forall_mem_cons.mp hrest
    have hleft : left s ≤ n := hinv.length ▸ List.count_le_length
    obtain ⟨u, hu, hdone⟩ := visit_spec fuel i s hinv hi
      (fun g hg => absurd hg (hclosed g)) (by omega)
    have hclosed' : ∀ j : Nat, u.state[j]? ≠ some .onStack :=
      fun j hj => hclosed j ((hdone.grows.opened j).mp hj)
    obtain ⟨t, ht, hend, hall⟩ := ih hrest (handled ++ [i]) hdone.inv hclosed' (by
      intro k hk
      rcases List.mem_append.mp hk with hold | hnew
      · exact hdone.grows.mem (hhandled k hold)
      · rw [List.mem_singleton.mp hnew]
        exact hdone.outcome.resolve_right (hclosed' i))
    refine ⟨t, ?_, hend, by rwa [List.append_assoc] at hall⟩
    rw [List.foldlM_cons, hu]
    exact ht

/-- **The order is a permutation of the nodes, and a dependency comes first unless it
    reaches what depends on it.** -/
theorem dfsTopo_spec (n : Nat) (deps : Nat → List Nat) {fuel : Nat} (hfuel : n < fuel) :
    ∃ order, dfsTopo fuel n deps = some order ∧ order.Perm (List.range n) ∧
      ∀ i < n, ∀ j, Edge deps n i j → ¬ Reach deps n j i → Before order j i := by
  have hclosed : ∀ i : Nat, (initial n).state[i]? ≠ some .onStack := by
    intro i
    simp [initial, List.getElem?_replicate]
  obtain ⟨t, ht, hinv, hall⟩ := roots_foldlM hfuel (List.range n)
    (fun i hi => List.mem_range.mp hi) [] (inv_initial deps n) hclosed
    (fun _ hi => absurd hi List.not_mem_nil)
  rw [List.nil_append] at hall
  have hmem : ∀ i, i ∈ t.ordered ↔ i ∈ List.range n := by
    refine fun i => ⟨fun hi => ?_, hall i⟩
    obtain ⟨hlt, -⟩ := List.getElem?_eq_some_iff.mp ((hinv.finished i).mp hi)
    rw [List.mem_range, ← hinv.length]
    exact hlt
  refine ⟨t.ordered, by rw [dfsTopo, ht, Option.map_some], ?_, ?_⟩
  · exact (List.perm_ext_iff_of_nodup hinv.nodup List.nodup_range).mpr hmem
  · intro i hi j hedge hno
    exact (hinv.ahead i ((hmem i).mpr (List.mem_range.mpr hi)) j hedge).resolve_right hno

end CambrianLang.DepthFirst
