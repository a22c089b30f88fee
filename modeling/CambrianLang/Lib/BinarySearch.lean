/-
  **Binary search in a strictly increasing list.**

  The search halves a window of which the first entry is known not to be above the key, unless
  nothing has been compared yet.  It answers with the place of the key or the place where the
  key would go, and both say how many entries are at most the key.
-/
import Mathlib.Data.List.GetD

namespace CambrianLang.BinarySearch

variable (l : List Nat) (key : Nat)

/-- The loop over windows of `size` entries from `base` on. -/
def narrow (fuel size base : Nat) : Nat :=
  match fuel with
  | 0 => base
  | fuel + 1 =>
      if 1 < size then
        let mid := base + size / 2
        narrow fuel (size - size / 2) (if key < l.getD mid 0 then base else mid)
      else base

/-- `binary_search`: `ok` with the place of the key, or `error` with the place to insert it. -/
def binarySearch : Except Nat Nat :=
  if l.isEmpty then .error 0
  else
    let base := narrow l key l.length l.length 0
    if l.getD base 0 = key then .ok base
    else .error (if l.getD base 0 < key then base + 1 else base)

/-- How many entries are at most the key. -/
def rank : Nat := l.countP (· ≤ key)

variable {l key}

/-! ### Rank and places -/

theorem rank_cons_of_lt {a : Nat} (h : (a :: l).Pairwise (· < ·)) (hlt : key < a) :
    rank (a :: l) key = 0 := by
  rw [rank, List.countP_eq_zero]
  intro b hb
  rcases List.mem_cons.mp hb with rfl | hb
  · simpa using hlt
  · have hab := (List.pairwise_cons.mp h).1 b hb
    simp only [decide_eq_true_eq, Nat.not_le]
    omega

/-- In an increasing list the entries at most the key stand in front. -/
theorem le_iff_lt_rank (h : l.Pairwise (· < ·)) {i : Nat} (hi : i < l.length) :
    l.getD i 0 ≤ key ↔ i < rank l key := by
  induction l generalizing i with
  | nil => cases hi
  | cons a l ih =>
    by_cases hle : a ≤ key
    · have hrank : rank (a :: l) key = rank l key + 1 :=
        List.countP_cons_of_pos (decide_eq_true hle)
      rw [hrank]
      cases i with
      | zero => simpa using hle
      | succ i =>
        have hi' : i < l.length := Nat.lt_of_succ_lt_succ hi
        have hstep := ih (List.pairwise_cons.mp h).2 hi'
        simp only [List.getD_cons_succ, hstep]
        omega
    · rw [rank_cons_of_lt h (by omega)]
      cases i with
      | zero => simpa using hle
      | succ i =>
        have hi' : i < l.length := Nat.lt_of_succ_lt_succ hi
        have hmem : l.getD i 0 ∈ l := by
          rw [List.getD_eq_getElem _ _ hi']
          exact List.getElem_mem hi'
        have hab := (List.pairwise_cons.mp h).1 _ hmem
        simp only [List.getD_cons_succ]
        omega

theorem rank_le_length : rank l key ≤ l.length := List.countP_le_length

/-! ### The search -/

/-- The window holds the last entry at most the key, if there is one. -/
structure Window (l : List Nat) (key size base : Nat) : Prop where
  pos : 0 < size
  inside : base + size ≤ l.length
  low : base = 0 ∨ base < rank l key
  high : rank l key ≤ base + size

theorem narrow_spec (h : l.Pairwise (· < ·)) (fuel : Nat) : ∀ {size base : Nat},
    Window l key size base → size ≤ fuel + 1 → Window l key 1 (narrow l key fuel size base) := by
  induction fuel with
  | zero =>
    intro size base hw hfuel
    obtain rfl : size = 1 := by
      have hpos := hw.pos
      omega
    exact hw
  | succ fuel ih =>
    intro size base hw hfuel
    obtain ⟨hpos, hinside, hlow, hhigh⟩ := hw
    rw [narrow]
    by_cases hsize : 1 < size
    · rw [if_pos hsize]
      have hmid : base + size / 2 < l.length := by omega
      have hcmp := @le_iff_lt_rank l key h _ hmid
      refine ih ?_ (by omega)
      by_cases hgt : key < l.getD (base + size / 2) 0
      · rw [if_pos hgt]
        refine ⟨by omega, by omega, hlow, ?_⟩
        have hnot : ¬ base + size / 2 < rank l key := fun hlt => by
          have := hcmp.mpr hlt
          omega
        omega
      · rw [if_neg hgt]
        exact ⟨by omega, by omega, Or.inr (hcmp.mp (by omega)), by omega⟩
    · rw [if_neg hsize]
      obtain rfl : size = 1 := by omega
      exact ⟨hpos, hinside, hlow, hhigh⟩

/-- **Both answers give the rank of the key**: a place of the key is one below it, a place to
    insert the key is the rank. -/
theorem binarySearch_rank (h : l.Pairwise (· < ·)) :
    match binarySearch l key with
    | .ok i => i + 1 = rank l key
    | .error i => i = rank l key := by
  cases l with
  | nil => rfl
  | cons a l =>
    have hstart : Window (a :: l) key (a :: l).length 0 :=
      ⟨Nat.succ_pos _, Nat.le_of_eq (Nat.zero_add _), Or.inl rfl, by
        rw [Nat.zero_add]
        exact rank_le_length⟩
    obtain ⟨-, hinside, hlow, hhigh⟩ := narrow_spec h (a :: l).length hstart (Nat.le_succ _)
    rw [binarySearch, List.isEmpty_cons, if_neg Bool.false_ne_true]
    generalize narrow (a :: l) key (a :: l).length (a :: l).length 0 = base at hinside hlow hhigh
    have hcmp := @le_iff_lt_rank (a :: l) key h base (by omega)
    by_cases heq : (a :: l).getD base 0 = key
    · simp only [heq, if_true]
      have hlt := hcmp.mp (Nat.le_of_eq heq)
      omega
    · simp only [heq, if_false]
      by_cases hless : (a :: l).getD base 0 < key
      · simp only [hless, if_true]
        have hlt := hcmp.mp (Nat.le_of_lt hless)
        omega
      · simp only [hless, if_false]
        have hnot : ¬ base < rank (a :: l) key := fun hlt => by
          have := hcmp.mpr hlt
          omega
        omega

end CambrianLang.BinarySearch
