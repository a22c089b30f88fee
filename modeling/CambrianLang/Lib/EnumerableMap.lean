/-
  **Maps that can be enumerated.**

  A hash table that keeps its keys in an array beside it, with the position of
  every key and a flag for the keys it has.  A new key goes to the end of the
  array; a key is taken out by moving the last one into its place.  On the array
  alone this is `push` and `swapRemove` (`keys_put`, `del_spec`), and taking a key
  out keeps the order of the others only near the end (`swapRemove_eq_filter_iff`).
-/
import Mathlib.Data.List.Nodup

namespace CambrianLang.EnumerableMap

variable {K V : Type} [DecidableEq K]

/-! ### Arrays of keys -/

/-- Append a key that is not there. -/
def push (l : List K) (k : K) : List K := if k ∈ l then l else l ++ [k]

/-- Overwrite a key with the last one and drop the last place. -/
def swapRemove (k : K) : List K → List K
  | [] => []
  | x :: xs =>
      if x = k then
        match xs.getLast? with
        | none => []
        | some z => z :: xs.dropLast
      else x :: swapRemove k xs

/-- The key is not listed, or at most one key is listed after it. -/
def NearEnd (k : K) (l : List K) : Prop := (l.dropWhile (· ≠ k)).length ≤ 2

instance (k : K) (l : List K) : Decidable (NearEnd k l) := Nat.decLe _ _

omit [DecidableEq K] in
theorem getLast?_eq_some {l : List K} (h : l ≠ []) : l.getLast? = some (l.getLast h) :=
  List.getLast?_eq_some_getLast h

theorem swapRemove_append {a b : List K} {k : K} (h : k ∉ a) :
    swapRemove k (a ++ b) = a ++ swapRemove k b := by
  induction a with
  | nil => rfl
  | cons x xs ih =>
    rw [List.mem_cons, not_or] at h
    rw [List.cons_append, swapRemove, if_neg (Ne.symm h.1), ih h.2, List.cons_append]

theorem swapRemove_of_not_mem {l : List K} {k : K} (h : k ∉ l) : swapRemove k l = l := by
  have happ := swapRemove_append (b := []) h
  simpa [swapRemove] using happ

theorem swapRemove_head {xs : List K} {k : K} (h : xs ≠ []) :
    swapRemove k (k :: xs) = xs.getLast h :: xs.dropLast := by
  rw [swapRemove, if_pos rfl, getLast?_eq_some h]

theorem swapRemove_perm {l : List K} (k : K) (h : l.Nodup) :
    (swapRemove k l).Perm (l.filter (· ≠ k)) := by
  induction l with
  | nil => exact List.Perm.refl _
  | cons x xs ih =>
    obtain ⟨hx, hxs⟩ := List.nodup_cons.mp h
    by_cases hk : x = k
    · subst hk
      have hkeep : xs.filter (· ≠ x) = xs := by
        rw [List.filter_eq_self]
        intro y hy
        simp only [decide_eq_true_eq]
        rintro rfl
        exact hx hy
      rw [List.filter_cons_of_neg (by simp), hkeep]
      by_cases hnil : xs = []
      · subst hnil
        simp [swapRemove]
      · rw [swapRemove_head hnil]
        have hlast := List.dropLast_append_getLast hnil
        have hperm : (xs.getLast hnil :: xs.dropLast).Perm (xs.dropLast ++ [xs.getLast hnil]) :=
          (List.perm_append_singleton _ _).symm
        rw [hlast] at hperm
        exact hperm
    · rw [swapRemove, if_neg hk, List.filter_cons_of_pos (by simpa using hk)]
      exact (ih hxs).cons x

theorem mem_swapRemove {l : List K} {k x : K} (h : l.Nodup) :
    x ∈ swapRemove k l ↔ x ∈ l ∧ x ≠ k := by
  rw [(swapRemove_perm k h).mem_iff, List.mem_filter, decide_eq_true_eq]

theorem nodup_swapRemove {l : List K} (k : K) (h : l.Nodup) : (swapRemove k l).Nodup :=
  (swapRemove_perm k h).nodup_iff.mpr (h.filter _)

/-- **The other keys keep their order exactly when the key is near the end.** -/
theorem swapRemove_eq_filter_iff {l : List K} {k : K} (h : l.Nodup) :
    swapRemove k l = l.filter (· ≠ k) ↔ NearEnd k l := by
  induction l with
  | nil => simp [swapRemove, NearEnd]
  | cons x xs ih =>
    obtain ⟨hx, hxs⟩ := List.nodup_cons.mp h
    by_cases hk : x = k
    · subst hk
      have hkeep : xs.filter (· ≠ x) = xs := by
        rw [List.filter_eq_self]
        intro y hy
        simp only [decide_eq_true_eq]
        rintro rfl
        exact hx hy
      rw [List.filter_cons_of_neg (by simp), hkeep, NearEnd,
        List.dropWhile_cons_of_neg (by simp)]
      cases xs with
      | nil => simp [swapRemove]
      | cons y ys =>
        rw [swapRemove_head (List.cons_ne_nil y ys)]
        cases ys with
        | nil => simp
        | cons z zs =>
          -- the last key moves ahead of the first, from which it differs
          constructor
          · intro heq
            have hlast : (y :: z :: zs).getLast (List.cons_ne_nil _ _) = y := (List.cons.inj heq).1
            rw [List.getLast_cons (List.cons_ne_nil z zs)] at hlast
            have hmem : y ∈ z :: zs := hlast ▸ List.getLast_mem (List.cons_ne_nil z zs)
            exact absurd hmem (List.nodup_cons.mp hxs).1
          · intro hlen
            simp at hlen
    · rw [swapRemove, if_neg hk, List.filter_cons_of_pos (by simpa using hk), NearEnd,
        List.dropWhile_cons_of_pos (by simpa using hk), List.cons.injEq]
      exact (and_iff_right rfl).trans (ih hxs)

/-! ### The table -/

end EnumerableMap

/-- The array of keys, their positions, the flags and the values. -/
structure EnumerableMap (K V : Type) where
  keys : List K
  keysIndex : K → Nat
  present : K → Bool
  value : K → V

namespace EnumerableMap

variable {K V : Type} [DecidableEq K] [Inhabited V]

/-- Every slot zero. -/
def empty : EnumerableMap K V := ⟨[], fun _ => 0, fun _ => false, fun _ => default⟩

def put (m : EnumerableMap K V) (k : K) (v : V) : EnumerableMap K V :=
  if m.present k then { m with value := Function.update m.value k v }
  else {
    keys := m.keys ++ [k]
    keysIndex := Function.update m.keysIndex k m.keys.length
    present := Function.update m.present k true
    value := Function.update m.value k v }

/-- Take a key out; an access outside the array panics. -/
def del (m : EnumerableMap K V) (k : K) : Option (EnumerableMap K V) :=
  let value := Function.update m.value k default
  if m.present k then
    match m.keys.getLast? with
    | none => none
    | some lastKey =>
        let idx := m.keysIndex k
        let present := Function.update m.present k false
        if idx = m.keys.length - 1 then
          some ⟨m.keys.dropLast, Function.update m.keysIndex k 0, present, value⟩
        else if idx < m.keys.length then
          some ⟨(m.keys.set idx lastKey).dropLast,
            Function.update (Function.update m.keysIndex lastKey idx) k 0, present, value⟩
        else none
  else some { m with value := value }

/-- The positions and the flags are those of the array. -/
structure Wf (m : EnumerableMap K V) : Prop where
  nodup : m.keys.Nodup
  present_iff : ∀ k, m.present k = true ↔ k ∈ m.keys
  index_eq : ∀ i k, m.keys[i]? = some k → m.keysIndex k = i

variable {m m' : EnumerableMap K V} {k : K} {v : V}

omit [DecidableEq K] in
theorem wf_empty : Wf (empty : EnumerableMap K V) where
  nodup := List.nodup_nil
  present_iff k := by simp [empty]
  index_eq i k h := by simp [empty] at h

omit [Inhabited V] in
theorem keys_put (h : Wf m) (k : K) (v : V) : (m.put k v).keys = push m.keys k := by
  rw [put, push]
  by_cases hp : m.present k = true
  · rw [if_pos hp, if_pos ((h.present_iff k).mp hp)]
  · rw [if_neg hp, if_neg (fun hk => hp ((h.present_iff k).mpr hk))]

omit [Inhabited V] in
theorem value_put (m : EnumerableMap K V) (k : K) (v : V) :
    (m.put k v).value = Function.update m.value k v := by
  rw [put]
  split <;> rfl

omit [Inhabited V] in
theorem wf_put (h : Wf m) (k : K) (v : V) : Wf (m.put k v) := by
  rw [put]
  by_cases hp : m.present k = true
  · rw [if_pos hp]
    exact ⟨h.nodup, h.present_iff, h.index_eq⟩
  · rw [if_neg hp]
    have hk : k ∉ m.keys := fun hk => hp ((h.present_iff k).mpr hk)
    refine ⟨?_, ?_, ?_⟩
    · exact List.nodup_append'.mpr
        ⟨h.nodup, List.nodup_singleton k, List.disjoint_singleton.mpr hk⟩
    · intro x
      change Function.update m.present k true x = true ↔ x ∈ m.keys ++ [k]
      rw [List.mem_append, List.mem_singleton]
      by_cases hx : x = k
      · subst hx
        simp
      · rw [Function.update_of_ne hx, h.present_iff, or_iff_left hx]
    · intro i x hi
      change (m.keys ++ [k])[i]? = some x at hi
      change Function.update m.keysIndex k m.keys.length x = i
      by_cases hlt : i < m.keys.length
      · rw [List.getElem?_append_left hlt] at hi
        have hx : x ≠ k := by
          rintro rfl
          exact hk (List.mem_of_getElem? hi)
        rw [Function.update_of_ne hx, h.index_eq i x hi]
      · rw [List.getElem?_append_right (by omega), List.getElem?_singleton] at hi
        split at hi
        · cases hi
          rw [Function.update_self]
          omega
        · cases hi

/-- Overwriting the place of a key and dropping the last one is `swapRemove`. -/
theorem set_dropLast {a b : List K} {z : K} (h : k ∉ a) (hb : b ≠ [])
    (hz : (a ++ k :: b).getLast? = some z) :
    ((a ++ k :: b).set a.length z).dropLast = swapRemove k (a ++ k :: b) := by
  have hset : (a ++ k :: b).set a.length z = a ++ z :: b := by
    rw [List.set_append_right _ _ (Nat.le_refl _), Nat.sub_self, List.set_cons_zero]
  have hlast : z = b.getLast hb := by
    rw [List.getLast?_append_of_ne_nil _ (List.cons_ne_nil k b), List.getLast?_cons,
      getLast?_eq_some hb] at hz
    simpa using hz.symm
  rw [hset, swapRemove_append h, swapRemove_head hb, hlast,
    List.dropLast_append_of_ne_nil (List.cons_ne_nil _ _), List.dropLast_cons_of_ne_nil hb]

/-- **Taking a key out never panics**, and moves the last key into its place. -/
theorem del_spec (h : Wf m) (k : K) : ∃ m', m.del k = some m' ∧ Wf m' ∧
    m'.keys = swapRemove k m.keys ∧ m'.value = Function.update m.value k default := by
  by_cases hp : m.present k = true
  swap
  · have hk : k ∉ m.keys := fun hk => hp ((h.present_iff k).mpr hk)
    refine ⟨{ m with value := Function.update m.value k default }, by rw [del, if_neg hp],
      ⟨h.nodup, h.present_iff, h.index_eq⟩, ?_, rfl⟩
    rw [swapRemove_of_not_mem hk]
  obtain ⟨a, b, hab⟩ := List.append_of_mem ((h.present_iff k).mp hp)
  have hidx : m.keysIndex k = a.length := h.index_eq _ _ (by rw [hab]; simp)
  have hnd := h.nodup
  rw [hab] at hnd
  have hka : k ∉ a := fun hmem =>
    (List.nodup_append'.mp hnd).2.2 hmem List.mem_cons_self
  have hlen : m.keys.length = a.length + b.length + 1 := by
    rw [hab, List.length_append, List.length_cons]
    omega
  have hne : m.keys ≠ [] := by
    intro hnil
    rw [hnil] at hlen
    simp at hlen
  have hlast := getLast?_eq_some hne
  have hpresent : ∀ x, Function.update m.present k false x = true ↔ x ∈ swapRemove k m.keys := by
    intro x
    rw [mem_swapRemove h.nodup, ← h.present_iff]
    by_cases hx : x = k
    · subst hx
      simp
    · rw [Function.update_of_ne hx]
      simp [hx]
  by_cases hb : b = []
  · -- the key is the last one
    subst hb
    have hkeys : m.keys.dropLast = swapRemove k m.keys := by
      rw [hab, swapRemove_append hka]
      simp [swapRemove]
    refine ⟨⟨m.keys.dropLast, Function.update m.keysIndex k 0, Function.update m.present k false,
      Function.update m.value k default⟩, ?_, ?_, hkeys, rfl⟩
    · rw [del, if_pos hp, hlast]
      change (if m.keysIndex k = m.keys.length - 1 then _ else _) = _
      rw [if_pos (by rw [hidx, hlen]; simp)]
    · refine ⟨?_, ?_, ?_⟩
      · change m.keys.dropLast.Nodup
        rw [hkeys]
        exact nodup_swapRemove k h.nodup
      · intro x
        change Function.update m.present k false x = true ↔ x ∈ m.keys.dropLast
        rw [hkeys]
        exact hpresent x
      · intro i x hi
        change m.keys.dropLast[i]? = some x at hi
        change Function.update m.keysIndex k 0 x = i
        rw [hab, List.dropLast_concat] at hi
        have hx : x ≠ k := by
          rintro rfl
          exact hka (List.mem_of_getElem? hi)
        rw [Function.update_of_ne hx]
        apply h.index_eq
        have hlt := (List.getElem?_eq_some_iff.mp hi).1
        rw [hab, List.getElem?_append_left hlt]
        exact hi
  · -- the last key moves into the place
    have hbpos : 0 < b.length := List.length_pos_iff.mpr hb
    generalize m.keys.getLast hne = z at hlast
    have hkeys : (m.keys.set a.length z).dropLast = swapRemove k m.keys := by
      rw [hab] at hlast ⊢
      exact set_dropLast hka hb hlast
    have hzidx : m.keysIndex z = m.keys.length - 1 :=
      h.index_eq _ _ (by rw [← hlast, List.getLast?_eq_getElem?])
    have hzk : z ≠ k := by
      rintro rfl
      omega
    refine ⟨⟨(m.keys.set a.length z).dropLast,
      Function.update (Function.update m.keysIndex z a.length) k 0,
      Function.update m.present k false, Function.update m.value k default⟩, ?_, ?_, hkeys, rfl⟩
    · rw [del, if_pos hp, hlast]
      change (if m.keysIndex k = m.keys.length - 1 then _ else
        if m.keysIndex k < m.keys.length then _ else _) = _
      rw [if_neg (by omega), if_pos (by omega), hidx]
    · refine ⟨?_, ?_, ?_⟩
      · change (m.keys.set a.length z).dropLast.Nodup
        rw [hkeys]
        exact nodup_swapRemove k h.nodup
      · intro x
        change Function.update m.present k false x = true ↔ x ∈ (m.keys.set a.length z).dropLast
        rw [hkeys]
        exact hpresent x
      · intro i x hi
        change (m.keys.set a.length z).dropLast[i]? = some x at hi
        change Function.update (Function.update m.keysIndex z a.length) k 0 x = i
        have hlt : i < m.keys.length - 1 := by
          have hbound := (List.getElem?_eq_some_iff.mp hi).1
          rw [List.length_dropLast, List.length_set] at hbound
          exact hbound
        rw [List.getElem?_dropLast, List.length_set, if_pos hlt, List.getElem?_set] at hi
        by_cases hia : a.length = i
        · subst hia
          rw [if_pos rfl, if_pos (by omega)] at hi
          cases hi
          rw [Function.update_of_ne hzk, Function.update_self]
        · rw [if_neg hia] at hi
          have hxi := h.index_eq i x hi
          have hxk : x ≠ k := by
            rintro rfl
            omega
          have hxz : x ≠ z := by
            rintro rfl
            omega
          rw [Function.update_of_ne hxk, Function.update_of_ne hxz, hxi]

end EnumerableMap

end CambrianLang
