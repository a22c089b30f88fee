/-
  **Maps in the vendored Lean prelude** (`assets/lean-prelude/Cambrian/Core.lean`):
  pair lists, and the list of keys that a generated project may keep beside one.
-/
import Mathlib.Data.List.Nodup

namespace CambrianLang.Prelude

abbrev AddressMap (K V : Type) [DecidableEq K] := List (K × V)

namespace AddressMap

variable {K V : Type} [DecidableEq K]

def empty : AddressMap K V := []

def insert (m : AddressMap K V) (k : K) (v : V) : AddressMap K V :=
  (k, v) :: m.filter fun p => p.1 ≠ k

def remove (m : AddressMap K V) (k : K) : AddressMap K V := m.filter fun p => p.1 ≠ k

/-- A key that was never written reads as the zero of the values. -/
def lookup [Inhabited V] (m : AddressMap K V) (k : K) : Option V :=
  some (((m.find? fun p => p.1 = k).map Prod.snd).getD default)

def length (m : AddressMap K V) : Nat := List.length m

def keys (m : AddressMap K V) : List K := m.map Prod.fst

def values (m : AddressMap K V) : List V := m.map Prod.snd

/-- Append `k` to a ghost key index when absent. -/
def pushKeyIfNew (ks : List K) (k : K) : List K := if ks.contains k then ks else ks ++ [k]

def removeKey (ks : List K) (k : K) : List K := ks.filter fun x => x ≠ k

theorem mem_keys_remove {m : AddressMap K V} {k x : K} :
    x ∈ (m.remove k).keys ↔ x ∈ m.keys ∧ x ≠ k := by
  simp only [keys, remove, List.mem_map, List.mem_filter, decide_eq_true_eq]
  constructor
  · rintro ⟨p, ⟨hp, hne⟩, rfl⟩
    exact ⟨⟨p, hp, rfl⟩, hne⟩
  · rintro ⟨⟨p, hp, rfl⟩, hne⟩
    exact ⟨p, ⟨hp, hne⟩, rfl⟩

theorem mem_keys_insert {m : AddressMap K V} {k x : K} {v : V} :
    x ∈ (m.insert k v).keys ↔ x ∈ m.keys ∨ x = k := by
  have htail : x ∈ (m.filter fun p => p.1 ≠ k).map Prod.fst ↔ x ∈ m.keys ∧ x ≠ k := mem_keys_remove
  rw [keys, insert, List.map_cons, List.mem_cons, htail]
  constructor
  · rintro (rfl | ⟨hx, -⟩)
    · exact Or.inr rfl
    · exact Or.inl hx
  · rintro (hx | rfl)
    · by_cases hk : x = k
      · exact Or.inl hk
      · exact Or.inr ⟨hx, hk⟩
    · exact Or.inl rfl

theorem mem_pushKeyIfNew {ks : List K} {k x : K} : x ∈ pushKeyIfNew ks k ↔ x ∈ ks ∨ x = k := by
  rw [pushKeyIfNew]
  split
  · rename_i hin
    constructor
    · exact Or.inl
    · rintro (hx | rfl)
      · exact hx
      · exact List.contains_iff_mem.mp hin
  · rw [List.mem_append, List.mem_singleton]

theorem mem_removeKey {ks : List K} {k x : K} : x ∈ removeKey ks k ↔ x ∈ ks ∧ x ≠ k := by
  rw [removeKey, List.mem_filter, decide_eq_true_eq]

theorem nodup_pushKeyIfNew {ks : List K} (h : ks.Nodup) (k : K) : (pushKeyIfNew ks k).Nodup := by
  rw [pushKeyIfNew]
  split
  · exact h
  · rename_i hnot
    rw [List.contains_iff_mem] at hnot
    exact List.nodup_append'.mpr ⟨h, List.nodup_singleton k, List.disjoint_singleton.mpr hnot⟩

theorem nodup_removeKey {ks : List K} (h : ks.Nodup) (k : K) : (removeKey ks k).Nodup := h.filter _

end AddressMap

/-- A key list without duplicates that lists exactly the keys of a pair list. -/
structure Tracks {K V : Type} [DecidableEq K] (ks : List K) (m : AddressMap K V) : Prop where
  nodup : ks.Nodup
  mem_iff : ∀ x, x ∈ ks ↔ x ∈ m.keys

theorem tracks_empty {K V : Type} [DecidableEq K] : Tracks [] (AddressMap.empty : AddressMap K V) :=
  ⟨List.nodup_nil, fun _ => Iff.rfl⟩

end CambrianLang.Prelude
