/-
  **A partial function over a list**: what is known of the elements and the results
  when `mapM` into `Option` succeeds.
-/
import Mathlib.Data.List.Forall2

namespace CambrianLang.MapM

variable {α β : Type*} {f : α → Option β} {xs : List α}

theorem mapM_congr {g : α → Option β} (h : ∀ x ∈ xs, f x = g x) : xs.mapM f = xs.mapM g := by
  induction xs with
  | nil => rfl
  | cons x xs ih =>
    rw [List.mapM_cons, List.mapM_cons, h x List.mem_cons_self,
      ih fun y hy => h y (List.mem_cons_of_mem _ hy)]

theorem mapM_eq_some_map {g : α → β} (xs : List α) (h : ∀ x ∈ xs, f x = some (g x)) :
    xs.mapM f = some (xs.map g) := by
  induction xs with
  | nil => rfl
  | cons x xs ih =>
    rw [List.mapM_cons, h x List.mem_cons_self, ih fun y hy => h y (List.mem_cons_of_mem x hy)]
    rfl

theorem mapM_eq_some {ys : List β} :
    xs.mapM f = some ys ↔ List.Forall₂ (fun x y => f x = some y) xs ys := by
  induction xs generalizing ys with
  | nil => simp [eq_comm]
  | cons x xs ih =>
    rw [List.mapM_cons]
    cases hx : f x with
    | none => simp [List.forall₂_cons_left_iff, hx]
    | some y =>
      cases hxs : xs.mapM f with
      | none =>
        simp only [Option.bind_eq_bind, Option.bind_some, Option.bind_none, reduceCtorEq, false_iff]
        intro hall
        obtain ⟨_, zs, _, hzs, rfl⟩ := List.forall₂_cons_left_iff.mp hall
        rw [ih.mpr hzs] at hxs
        cases hxs
      | some zs =>
        have hzs := ih.mp hxs
        constructor
        · rintro heq
          cases heq
          exact .cons hx hzs
        · intro hall
          obtain ⟨_, ws, hw, hws, rfl⟩ := List.forall₂_cons_left_iff.mp hall
          rw [hx] at hw
          cases hw
          rw [ih.mpr hws] at hxs
          cases hxs
          rfl

theorem mapM_returns : (∃ ys, xs.mapM f = some ys) ↔ ∀ x ∈ xs, ∃ y, f x = some y := by
  induction xs with
  | nil => simp
  | cons x xs ih =>
    rw [List.forall_mem_cons, ← ih, List.mapM_cons]
    cases f x with
    | none => simp
    | some y => cases xs.mapM f <;> simp

theorem mem_of_mapM {ys : List β} (h : xs.mapM f = some ys) :
    (∀ x ∈ xs, ∃ y ∈ ys, f x = some y) ∧ ∀ y ∈ ys, ∃ x ∈ xs, f x = some y := by
  induction xs generalizing ys with
  | nil =>
    rw [List.mapM_nil] at h
    rw [← Option.some.inj h]
    exact ⟨fun x hx => absurd hx List.not_mem_nil, fun y hy => absurd hy List.not_mem_nil⟩
  | cons x xs ih =>
    rw [List.mapM_cons, Option.bind_eq_bind, Option.bind_eq_some_iff] at h
    obtain ⟨y, hy, h⟩ := h
    rw [Option.bind_eq_bind, Option.bind_eq_some_iff] at h
    obtain ⟨rest, hrest, heq⟩ := h
    obtain ⟨hto, hfrom⟩ := ih hrest
    rw [← Option.some.inj heq]
    constructor
    · intro z hz
      rcases List.mem_cons.mp hz with rfl | hz
      · exact ⟨y, List.mem_cons_self, hy⟩
      · obtain ⟨w, hw, hzw⟩ := hto z hz
        exact ⟨w, List.mem_cons_of_mem _ hw, hzw⟩
    · intro z hz
      rcases List.mem_cons.mp hz with rfl | hz
      · exact ⟨x, List.mem_cons_self, hy⟩
      · obtain ⟨w, hw, hwz⟩ := hfrom z hz
        exact ⟨w, List.mem_cons_of_mem _ hw, hwz⟩

end CambrianLang.MapM
