/-
  **Breadth-first search that recognises a node by a key.**

  The queue holds nodes; a node whose key has been seen is dropped, so of the nodes with one key
  only the first is expanded.  The nodes found have different keys and are reachable.  They stand
  for every reachable key when nodes with one key lead to the same keys.
-/
import Mathlib.Data.Finset.Card

namespace CambrianLang.KeyedWalk

open Relation

variable {α κ : Type*} [DecidableEq κ] {key : α → κ} {next : α → List α}

/-- The nodes that are expanded, in order, each with whether it was queued as a root; `none` when
the fuel runs out. -/
def walk (key : α → κ) (next : α → List α) : ℕ → List κ → List (α × Bool) → Option (List (α × Bool))
  | 0, _, _ => none
  | _ + 1, _, [] => some []
  | fuel + 1, seen, x :: queue =>
      if key x.1 ∈ seen then walk key next fuel seen queue
      else (walk key next fuel (key x.1 :: seen) (queue ++ (next x.1).map (·, false))).map (x :: ·)

/-- From a node to one it leads to. -/
def Step (next : α → List α) (x y : α) : Prop := y ∈ next x

/-- What can be reached from a list of nodes. -/
def Reaches (next : α → List α) (roots : List α) (x : α) : Prop :=
  ∃ r ∈ roots, ReflTransGen (Step next) r x

/-- A step of the walk: the head of the queue is dropped or expanded. -/
theorem walk_cons {fuel : ℕ} {seen : List κ} {x : α × Bool} {queue found : List (α × Bool)}
    (h : walk key next (fuel + 1) seen (x :: queue) = some found) :
    (key x.1 ∈ seen ∧ walk key next fuel seen queue = some found) ∨
      (key x.1 ∉ seen ∧ ∃ rest, found = x :: rest ∧
        walk key next fuel (key x.1 :: seen) (queue ++ (next x.1).map (·, false)) = some rest) := by
  rw [walk] at h
  split at h
  · rename_i hseen
    exact Or.inl ⟨hseen, h⟩
  · rename_i hnew
    obtain ⟨rest, hrest, rfl⟩ := Option.map_eq_some_iff.mp h
    exact Or.inr ⟨hnew, rest, rfl, hrest⟩

theorem walk_succ {fuel : ℕ} : ∀ {seen : List κ} {queue found : List (α × Bool)},
    walk key next fuel seen queue = some found → walk key next (fuel + 1) seen queue = some found := by
  induction fuel with
  | zero => exact fun h => nomatch h
  | succ fuel ih =>
    intro seen queue found h
    cases queue with
    | nil => exact h
    | cons x queue =>
      rw [walk]
      rcases walk_cons h with ⟨hseen, hrest⟩ | ⟨hnew, rest, rfl, hrest⟩
      · rw [if_pos hseen]
        exact ih hrest
      · rw [if_neg hnew, ih hrest, Option.map_some]

theorem walk_mono {fuel more : ℕ} (hle : fuel ≤ more) {seen : List κ} {queue found : List (α × Bool)}
    (h : walk key next fuel seen queue = some found) : walk key next more seen queue = some found := by
  induction hle with
  | refl => exact h
  | step _ ih => exact walk_succ ih

/-- The keys found are new, and no key is found twice. -/
theorem walk_nodup {fuel : ℕ} : ∀ {seen : List κ} {queue found : List (α × Bool)},
    walk key next fuel seen queue = some found →
      (found.map fun x => key x.1).Nodup ∧ ∀ x ∈ found, key x.1 ∉ seen := by
  induction fuel with
  | zero => exact fun h => nomatch h
  | succ fuel ih =>
    intro seen queue found h
    cases queue with
    | nil =>
      cases h
      exact ⟨List.nodup_nil, fun x hx => absurd hx List.not_mem_nil⟩
    | cons x queue =>
      rcases walk_cons h with ⟨hseen, hrest⟩ | ⟨hnew, rest, rfl, hrest⟩
      · exact ih hrest
      · obtain ⟨hnodup, hfresh⟩ := ih hrest
        refine ⟨?_, fun y hy => ?_⟩
        · rw [List.map_cons, List.nodup_cons]
          refine ⟨fun hmem => ?_, hnodup⟩
          obtain ⟨y, hy, heq⟩ := List.mem_map.mp hmem
          exact hfresh y hy (heq ▸ List.mem_cons_self)
        · rcases List.mem_cons.mp hy with rfl | hy
          · exact hnew
          · exact fun hmem => hfresh y hy (List.mem_cons_of_mem _ hmem)

theorem walk_reaches {fuel : ℕ} : ∀ {seen : List κ} {queue found : List (α × Bool)},
    walk key next fuel seen queue = some found →
      ∀ x ∈ found, Reaches next (queue.map Prod.fst) x.1 := by
  induction fuel with
  | zero => exact fun h => nomatch h
  | succ fuel ih =>
    intro seen queue found h
    cases queue with
    | nil =>
      cases h
      exact fun x hx => absurd hx List.not_mem_nil
    | cons x queue =>
      rcases walk_cons h with ⟨hseen, hrest⟩ | ⟨hnew, rest, rfl, hrest⟩
      · intro y hy
        obtain ⟨r, hr, hreach⟩ := ih hrest y hy
        exact ⟨r, List.mem_cons_of_mem _ hr, hreach⟩
      · intro y hy
        rcases List.mem_cons.mp hy with rfl | hy
        · exact ⟨y.1, List.mem_cons_self, .refl⟩
        · obtain ⟨r, hr, hreach⟩ := ih hrest y hy
          rw [List.map_append, List.mem_append] at hr
          rcases hr with hr | hr
          · exact ⟨r, List.mem_cons_of_mem _ hr, hreach⟩
          · have hstep : Step next x.1 r := by
              simpa [Step, Function.comp_def] using hr
            exact ⟨x.1, List.mem_cons_self, .head hstep hreach⟩

/-- The keys that are known when the walk ends: of everything queued, and of what the nodes found
lead to. -/
theorem walk_closed {fuel : ℕ} : ∀ {seen : List κ} {queue found : List (α × Bool)},
    walk key next fuel seen queue = some found →
      (∀ x ∈ queue, key x.1 ∈ seen ∨ key x.1 ∈ found.map fun y => key y.1) ∧
        ∀ x ∈ found, ∀ y, Step next x.1 y → key y ∈ seen ∨ key y ∈ found.map fun y => key y.1 := by
  induction fuel with
  | zero => exact fun h => nomatch h
  | succ fuel ih =>
    intro seen queue found h
    cases queue with
    | nil =>
      cases h
      exact ⟨fun x hx => absurd hx List.not_mem_nil, fun x hx => absurd hx List.not_mem_nil⟩
    | cons x queue =>
      rcases walk_cons h with ⟨hseen, hrest⟩ | ⟨hnew, rest, rfl, hrest⟩
      · obtain ⟨hqueue, hfound⟩ := ih hrest
        refine ⟨fun y hy => ?_, hfound⟩
        rcases List.mem_cons.mp hy with rfl | hy
        · exact Or.inl hseen
        · exact hqueue y hy
      · obtain ⟨hqueue, hfound⟩ := ih hrest
        have hweaken : ∀ {k : κ}, (k ∈ key x.1 :: seen ∨ k ∈ rest.map fun y => key y.1) →
            k ∈ seen ∨ k ∈ (x :: rest).map fun y => key y.1 := by
          intro k hk
          rw [List.map_cons]
          rcases hk with hk | hk
          · rcases List.mem_cons.mp hk with rfl | hk
            · exact Or.inr List.mem_cons_self
            · exact Or.inl hk
          · exact Or.inr (List.mem_cons_of_mem _ hk)
        constructor
        · intro y hy
          rcases List.mem_cons.mp hy with rfl | hy
          · exact Or.inr List.mem_cons_self
          · exact hweaken (hqueue y (List.mem_append_left _ hy))
        · intro y hy z hz
          rcases List.mem_cons.mp hy with rfl | hy
          · exact hweaken (hqueue (z, false)
              (List.mem_append_right _ (List.mem_map.mpr ⟨z, hz, rfl⟩)))
          · exact hweaken (hfound y hy z hz)

/-- The roots are at the front of the queue: a node found was queued as a root exactly when its key
is that of a root. -/
theorem walk_roots {fuel : ℕ} : ∀ {seen : List κ} (roots others : List α) {found : List (α × Bool)},
    walk key next fuel seen (roots.map (·, true) ++ others.map (·, false)) = some found →
      ∀ x ∈ found, x.2 = true ↔ key x.1 ∈ roots.map key := by
  induction fuel with
  | zero =>
    intro seen roots others found h
    cases h
  | succ fuel ih =>
    intro seen roots others found h
    cases roots with
    | nil =>
      cases others with
      | nil =>
        cases h
        exact fun x hx => absurd hx List.not_mem_nil
      | cons o others =>
        rw [List.map_nil, List.nil_append, List.map_cons] at h
        rcases walk_cons h with ⟨hseen, hrest⟩ | ⟨hnew, rest, rfl, hrest⟩
        · exact ih [] others hrest
        · rw [← List.map_append] at hrest
          intro x hx
          rcases List.mem_cons.mp hx with rfl | hx
          · simp
          · exact ih [] (others ++ next o) hrest x hx
    | cons r roots =>
      rw [List.map_cons, List.cons_append] at h
      rcases walk_cons h with ⟨hseen, hrest⟩ | ⟨hnew, rest, rfl, hrest⟩
      · intro x hx
        -- what is found later has another key
        have hne : key x.1 ≠ key r := fun heq => (walk_nodup hrest).2 x hx (heq ▸ hseen)
        rw [List.map_cons, List.mem_cons, or_iff_right hne]
        exact ih roots others hrest x hx
      · rw [List.append_assoc, ← List.map_append] at hrest
        intro x hx
        rcases List.mem_cons.mp hx with rfl | hx
        · simp
        · have hne : key x.1 ≠ key r :=
            fun heq => (walk_nodup hrest).2 x hx (heq ▸ List.mem_cons_self)
          rw [List.map_cons, List.mem_cons, or_iff_right hne]
          exact ih roots (others ++ next r) hrest x hx

/-- **The walk ends** when the reachable keys are among finitely many. -/
theorem exists_walk {keys : Finset κ} : ∀ (unseen : ℕ) (seen : List κ), (keys \ seen.toFinset).card = unseen →
    ∀ queue : List (α × Bool), (∀ x, Reaches next (queue.map Prod.fst) x → key x ∈ keys) →
      ∃ fuel found, walk key next fuel seen queue = some found := by
  intro unseen
  induction unseen using Nat.strong_induction_on with
  | _ unseen ihUnseen =>
    intro seen hcard queue
    induction queue with
    | nil => exact fun _ => ⟨1, [], rfl⟩
    | cons x queue ihQueue =>
      intro hkeys
      have hrest : ∀ y, Reaches next (queue.map Prod.fst) y → key y ∈ keys := by
        rintro y ⟨r, hr, hreach⟩
        exact hkeys y ⟨r, List.mem_cons_of_mem _ hr, hreach⟩
      by_cases hseen : key x.1 ∈ seen
      · obtain ⟨fuel, found, hfound⟩ := ihQueue hrest
        exact ⟨fuel + 1, found, by rw [walk, if_pos hseen, hfound]⟩
      · have hx : key x.1 ∈ keys := hkeys x.1 ⟨x.1, List.mem_cons_self, .refl⟩
        have hless : (keys \ (key x.1 :: seen).toFinset).card < unseen := by
          rw [← hcard]
          refine Finset.card_lt_card (Finset.ssubset_iff_of_subset ?_ |>.mpr ⟨key x.1, ?_, ?_⟩)
          · exact Finset.sdiff_subset_sdiff (Finset.Subset.refl _)
              (by rw [List.toFinset_cons]; exact Finset.subset_insert _ _)
          · exact Finset.mem_sdiff.mpr ⟨hx, by rwa [List.mem_toFinset]⟩
          · simp
        have hnext : ∀ y, Reaches next ((queue ++ (next x.1).map (·, false)).map Prod.fst) y →
            key y ∈ keys := by
          rintro y ⟨r, hr, hreach⟩
          rw [List.map_append, List.mem_append] at hr
          rcases hr with hr | hr
          · exact hrest y ⟨r, hr, hreach⟩
          · have hstep : Step next x.1 r := by
              simpa [Step, Function.comp_def] using hr
            exact hkeys y ⟨x.1, List.mem_cons_self, .head hstep hreach⟩
        obtain ⟨fuel, found, hfound⟩ := ihUnseen _ hless (key x.1 :: seen) rfl _ hnext
        exact ⟨fuel + 1, x :: found, by rw [walk, if_neg hseen, hfound, Option.map_some]⟩

/-- **Every reachable key is found** when reachable nodes with one key lead to the same keys. -/
theorem mem_keys_of_reaches {fuel : ℕ} {queue found : List (α × Bool)}
    (h : walk key next fuel [] queue = some found)
    (hagree : ∀ x y z, Reaches next (queue.map Prod.fst) x → Reaches next (queue.map Prod.fst) y →
      key x = key y → Step next x z → ∃ z', Step next y z' ∧ key z' = key z) {x : α}
    (hx : Reaches next (queue.map Prod.fst) x) : key x ∈ found.map fun y => key y.1 := by
  obtain ⟨hqueue, hfound⟩ := walk_closed h
  obtain ⟨r, hr, hreach⟩ := hx
  obtain ⟨root, hroot, rfl⟩ := List.mem_map.mp hr
  induction hreach with
  | refl => exact (hqueue root hroot).resolve_left List.not_mem_nil
  | tail hreach hstep ih =>
    obtain ⟨y, hy, heq⟩ := List.mem_map.mp ih
    obtain ⟨z, hz, hkey⟩ := hagree _ y.1 _ ⟨root.1, hr, hreach⟩ (walk_reaches h y hy) heq.symm hstep
    rw [← hkey]
    exact (hfound y hy z hz).resolve_left List.not_mem_nil

end CambrianLang.KeyedWalk
