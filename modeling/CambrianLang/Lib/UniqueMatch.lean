/-
  **Resolution by a unique match.**

  A name is resolved by collecting the positions of the elements that match it and
  asking for exactly one.  What becomes of a unique match when the list is filtered,
  cut or changed element by element is stated here for any predicate.
-/
import Mathlib.Data.List.Nodup

namespace CambrianLang.UniqueMatch

universe u v

variable {α : Type u} {β : Type v} {m : α → Bool} {k : β → Bool}

/-- The positions of the elements that satisfy `m`. -/
def indices (m : α → Bool) (xs : List α) : List Nat :=
  (xs.zipIdx.filter fun x => m x.1).map (·.2)

@[simp] theorem indices_nil : indices m [] = [] := rfl

theorem indices_cons (m : α → Bool) (x : α) (xs : List α) :
    indices m (x :: xs) = (if m x then [0] else []) ++ (indices m xs).map (· + 1) := by
  have htail : (xs.zipIdx 1).filter (fun y => m y.1) =
      (xs.zipIdx.filter fun y => m y.1).map fun y => (y.1, y.2 + 1) := by
    rw [List.zipIdx_succ (i := 0), List.filter_map]
    rfl
  rw [indices, List.zipIdx_cons, List.filter_cons, htail]
  cases m x <;> simp [indices, Function.comp_def]

/-- Only what `m` says of the elements counts. -/
theorem indices_eq_of_map : ∀ {xs : List α} {ys : List β}, xs.map m = ys.map k →
    indices m xs = indices k ys := by
  intro xs
  induction xs with
  | nil =>
    intro ys h
    rw [List.map_eq_nil_iff.mp h.symm, indices_nil, indices_nil]
  | cons x xs ih =>
    intro ys h
    obtain ⟨y, ys, rfl, hhead, htail⟩ := List.map_eq_cons_iff.mp h.symm
    rw [indices_cons, indices_cons, ih htail.symm, hhead]

theorem indices_append (m : α → Bool) (xs ys : List α) :
    indices m (xs ++ ys) = indices m xs ++ (indices m ys).map (· + xs.length) := by
  induction xs with
  | nil => simp
  | cons x xs ih =>
    simp only [List.cons_append, indices_cons, ih, List.map_append, List.map_map,
      List.append_assoc, List.length_cons, Function.comp_def]
    rfl

theorem indices_eq_nil {xs : List α} : indices m xs = [] ↔ ∀ x ∈ xs, m x = false := by
  simp only [indices, List.map_eq_nil_iff, List.filter_eq_nil_iff]
  constructor
  · intro h x hx
    obtain ⟨i, hi, rfl⟩ := List.getElem_of_mem hx
    have hmem : (xs[i], i) ∈ xs.zipIdx := by
      rw [List.mem_zipIdx_iff_getElem?]
      exact List.getElem?_eq_getElem hi
    simpa using h _ hmem
  · rintro h ⟨x, i⟩ hx
    have hmem : x ∈ xs := List.mem_of_getElem? (List.mem_zipIdx_iff_getElem?.mp hx)
    simp [h x hmem]

/-- The element at position `i` is the only one that satisfies `m`. -/
structure UniqueAt (m : α → Bool) (xs : List α) (i : Nat) (x : α) : Prop where
  get : xs[i]? = some x
  holds : m x = true
  before : ∀ y ∈ xs.take i, m y = false
  after : ∀ y ∈ xs.drop (i + 1), m y = false

theorem UniqueAt.split {xs : List α} {i : Nat} {x : α} (h : UniqueAt m xs i x) :
    xs = xs.take i ++ x :: xs.drop (i + 1) := by
  obtain ⟨hi, hx⟩ := List.getElem?_eq_some_iff.mp h.get
  conv_lhs => rw [← List.take_append_drop i xs, List.drop_eq_getElem_cons hi, hx]

/-- **A single position is found exactly where the match is unique.** -/
theorem indices_eq_singleton {xs : List α} {i : Nat} :
    indices m xs = [i] ↔ ∃ x, UniqueAt m xs i x := by
  constructor
  · intro h
    induction xs generalizing i with
    | nil => exact absurd h (List.cons_ne_nil _ _).symm
    | cons y ys ih =>
      rw [indices_cons] at h
      cases hy : m y with
      | true =>
        rw [hy] at h
        obtain ⟨rfl, htail⟩ := List.cons.inj h
        have hnone := indices_eq_nil.mp (List.map_eq_nil_iff.mp htail)
        exact ⟨y, rfl, hy, by simp, by simpa using hnone⟩
      | false =>
        rw [hy] at h
        obtain ⟨j, hj, rfl⟩ := List.map_eq_singleton_iff.mp h
        obtain ⟨x, hx⟩ := ih hj
        refine ⟨x, hx.get, hx.holds, ?_, hx.after⟩
        rw [List.take_succ_cons]
        exact List.forall_mem_cons.mpr ⟨hy, hx.before⟩
  · rintro ⟨x, hx⟩
    obtain ⟨hi, -⟩ := List.getElem?_eq_some_iff.mp hx.get
    rw [hx.split, indices_append, indices_eq_nil.mpr hx.before, indices_cons, hx.holds,
      indices_eq_nil.mpr hx.after, List.length_take, Nat.min_eq_left (Nat.le_of_lt hi)]
    simp

/-- The position an element gets when the list is filtered. -/
def rank (u : α → Bool) (xs : List α) (i : Nat) : Nat := ((xs.take i).filter u).length

/-- The element at `i` is found at its rank in the filtered list. -/
theorem getElem?_rank {u : α → Bool} {xs : List α} {i : Nat} {x : α} (hx : xs[i]? = some x)
    (hu : u x = true) : (xs.filter u)[rank u xs i]? = some x := by
  obtain ⟨hi, hget⟩ := List.getElem?_eq_some_iff.mp hx
  have hsplit : xs.filter u = (xs.take i).filter u ++ x :: (xs.drop (i + 1)).filter u := by
    conv_lhs => rw [← List.take_append_drop i xs, List.drop_eq_getElem_cons hi, hget]
    rw [List.filter_append, List.filter_cons_of_pos hu]
  rw [hsplit, rank, List.getElem?_append_right (Nat.le_refl _), Nat.sub_self]
  rfl

theorem UniqueAt.filter {u : α → Bool} {xs : List α} {i : Nat} {x : α} (h : UniqueAt m xs i x) :
    indices m (xs.filter u) = if u x then [rank u xs i] else [] := by
  have hbefore : ∀ y ∈ (xs.take i).filter u, m y = false :=
    fun y hy => h.before y (List.mem_filter.mp hy).1
  have hafter : ∀ y ∈ (xs.drop (i + 1)).filter u, m y = false :=
    fun y hy => h.after y (List.mem_filter.mp hy).1
  conv_lhs => rw [h.split, List.filter_append, List.filter_cons]
  cases hu : u x with
  | true =>
    rw [if_pos rfl, indices_append, indices_cons, h.holds, indices_eq_nil.mpr hbefore,
      indices_eq_nil.mpr hafter]
    simp [rank]
  | false =>
    rw [if_neg Bool.false_ne_true, indices_append, indices_eq_nil.mpr hbefore,
      indices_eq_nil.mpr hafter]
    simp

/-- In an initial part of the list, the match is where it was or is missing. -/
theorem UniqueAt.indices_take {xs : List α} {i n : Nat} {x : α} (h : UniqueAt m xs i x) :
    (i < n → UniqueAt m (xs.take n) i x) ∧ (n ≤ i → ∀ y ∈ xs.take n, m y = false) := by
  constructor
  · intro hn
    refine ⟨?_, h.holds, ?_, ?_⟩
    · rw [List.getElem?_take_of_lt hn]
      exact h.get
    · rw [List.take_take, Nat.min_eq_left (Nat.le_of_lt hn)]
      exact h.before
    · intro y hy
      rw [List.drop_take] at hy
      exact h.after y (List.mem_of_mem_take hy)
  · intro hn y hy
    apply h.before y
    rw [← Nat.min_eq_left hn, ← List.take_take] at hy
    exact List.mem_of_mem_take hy

/-- The element at `i` is found at its rank, with its position. -/
theorem getElem?_rank_zipIdx {u : α → Bool} {xs : List α} {i : Nat} {x : α}
    (hx : xs[i]? = some x) (hu : u x = true) :
    (xs.zipIdx.filter fun y => u y.1)[rank u xs i]? = some (x, i) := by
  have hrank : rank (fun y : α × Nat => u y.1) xs.zipIdx i = rank u xs i := by
    have hfst : ((xs.zipIdx.take i).filter fun y => u y.1).map Prod.fst = (xs.take i).filter u := by
      conv_rhs => rw [← List.zipIdx_map_fst 0 xs, ← List.map_take, List.filter_map]
      rfl
    rw [rank, rank, ← hfst, List.length_map]
  have hget : xs.zipIdx[i]? = some (x, i) := by simp [List.getElem?_zipIdx, hx]
  rw [← hrank]
  exact getElem?_rank hget hu

theorem nodup_filter_zipIdx (u : α → Bool) (xs : List α) :
    (xs.zipIdx.filter fun y => u y.1).Nodup := by
  apply List.Nodup.filter
  apply List.Nodup.of_map Prod.snd
  rw [List.zipIdx_map_snd]
  exact List.nodup_range'

/-- The filtered list holds nothing else: each of its places is the rank of a position. -/
theorem rank_of_getElem? {u : α → Bool} {xs : List α} {i k : Nat} {x : α}
    (h : (xs.zipIdx.filter fun y => u y.1)[k]? = some (x, i)) :
    xs[i]? = some x ∧ u x = true ∧ rank u xs i = k := by
  obtain ⟨hmem, hu⟩ := List.mem_filter.mp (List.mem_of_getElem? h)
  have hx : xs[i]? = some x := List.mem_zipIdx_iff_getElem?.mp hmem
  refine ⟨hx, hu, ?_⟩
  have hrank := getElem?_rank_zipIdx hx hu
  obtain ⟨hlt, -⟩ := List.getElem?_eq_some_iff.mp hrank
  apply (List.getElem?_inj hlt (nodup_filter_zipIdx u xs)).mp
  rw [hrank, h]

theorem rank_inj {u : α → Bool} {xs : List α} {i j : Nat} {x y : α} (hx : xs[i]? = some x)
    (hux : u x = true) (hy : xs[j]? = some y) (huy : u y = true)
    (h : rank u xs i = rank u xs j) : i = j := by
  have hi := getElem?_rank_zipIdx hx hux
  rw [h, getElem?_rank_zipIdx hy huy] at hi
  exact (congrArg Prod.snd (Option.some.inj hi)).symm

end CambrianLang.UniqueMatch
