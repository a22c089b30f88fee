/-
  **Substitutions that walk down a tree.**

  Every subtree stands in a labelled slot of its parent, and the label is what a
  walk sees of the step it takes: which names are bound there, which operand it is.
  A substitution carries a state down, changes it at every slot, and puts something
  else in place of the leaves it picks.  Two substitutions give the same tree exactly
  when they do the same to every leaf, and one after another is again one of them.
  The trees, the labels and the states are parameters.
-/
import Mathlib.Data.List.Basic

namespace CambrianLang.SlotTrees

universe u v w x

/-- A type of trees: the subtrees of a node with the slots they stand in, a node with
    a function applied to its subtrees, and a rank that decreases on the way down. -/
structure Slotted (K : Type u) (E : Type v) where
  slots : E → List (K × E)
  mapSlots : (K → E → E) → E → E
  rank : E → Nat
  rank_lt {e : E} {s : K × E} : s ∈ slots e → rank s.2 < rank e
  slots_mapSlots (g : K → E → E) (e : E) :
    slots (mapSlots g e) = (slots e).map fun s => (s.1, g s.1 s.2)
  mapSlots_congr {g h : K → E → E} {e : E} :
    (∀ s ∈ slots e, g s.1 s.2 = h s.1 s.2) → mapSlots g e = mapSlots h e
  mapSlots_mapSlots (g h : K → E → E) (e : E) :
    mapSlots g (mapSlots h e) = mapSlots (fun k c => g k (h k c)) e
  mapSlots_id (e : E) : mapSlots (fun _ c => c) e = e

namespace Slotted

variable {K : Type u} {E : Type v} (T : Slotted K E)

/-- Nothing stands below the node. -/
def Leaf (e : E) : Prop := T.slots e = []

/-- The slots on the way from a tree to a node of it. -/
inductive Path : E → List K → E → Prop
  | here (e : E) : Path e [] e
  | down {e d : E} {s : K × E} {ks : List K} (hmem : s ∈ T.slots e) (hpath : Path s.2 ks d) :
    Path e (s.1 :: ks) d

/-- `w` takes `next` from slot to slot and puts what `pick` says in place of a node. -/
def Substitutes {S : Type w} (next : S → K → S) (pick : S → E → Option E) (w : S → E → E) : Prop :=
  ∀ s e, w s e = (pick s e).getD (T.mapSlots (fun k c => w (next s k) c) e)

/-- Only leaves are picked. -/
def AtLeaves {S : Type w} (pick : S → E → Option E) : Prop :=
  ∀ s e r, pick s e = some r → T.Leaf e

variable {T} {S : Type w} {R : Type x} {next : S → K → S} {pick : S → E → Option E} {w : S → E → E}
variable {e d : E} {s : S}

theorem mapSlots_eq_iff {g h : K → E → E} :
    T.mapSlots g e = T.mapSlots h e ↔ ∀ s ∈ T.slots e, g s.1 s.2 = h s.1 s.2 := by
  constructor
  · intro heq
    have hslots := congrArg T.slots heq
    rw [T.slots_mapSlots, T.slots_mapSlots] at hslots
    intro s hs
    have hpair := List.map_inj_left.mp hslots s hs
    exact (Prod.mk.injEq .. ▸ hpair).2
  · exact T.mapSlots_congr

theorem Leaf.mapSlots (h : T.Leaf e) (g : K → E → E) : T.mapSlots g e = e := by
  have hcongr : T.mapSlots g e = T.mapSlots (fun _ c => c) e := by
    apply T.mapSlots_congr
    intro s hs
    rw [h] at hs
    exact absurd hs List.not_mem_nil
  rw [hcongr, T.mapSlots_id]

theorem leaf_mapSlots (g : K → E → E) : T.Leaf (T.mapSlots g e) ↔ T.Leaf e := by
  simp only [Leaf, T.slots_mapSlots, List.map_eq_nil_iff]

/-! ### Paths -/

theorem Path.of_leaf {ks : List K} (h : T.Path e ks d) (hleaf : T.Leaf e) : ks = [] ∧ d = e := by
  cases h with
  | here => exact ⟨rfl, rfl⟩
  | down hmem =>
    rw [hleaf] at hmem
    exact absurd hmem List.not_mem_nil

/-- A statement about all paths to leaves, one slot at a time. -/
theorem forall_path_iff {P : List K → E → Prop} (hinner : ¬ T.Leaf e) :
    (∀ ks d, T.Path e ks d → T.Leaf d → P ks d) ↔
      ∀ s ∈ T.slots e, ∀ ks d, T.Path s.2 ks d → T.Leaf d → P (s.1 :: ks) d := by
  constructor
  · intro h s hs ks d hpath
    exact h _ d (.down hs hpath)
  · intro h ks d hpath hleaf
    cases hpath with
    | here => exact absurd hleaf hinner
    | down hs hpath => exact h _ hs _ d hpath hleaf

/-! ### Substitutions -/

theorem Substitutes.leaf (hw : T.Substitutes next pick w) (hleaf : T.Leaf e) :
    w s e = (pick s e).getD e := by
  rw [hw, hleaf.mapSlots]

theorem Substitutes.inner (hw : T.Substitutes next pick w) (hpick : T.AtLeaves pick)
    (hinner : ¬ T.Leaf e) : w s e = T.mapSlots (fun k c => w (next s k) c) e := by
  have hnone : pick s e = none := by
    cases h : pick s e with
    | none => rfl
    | some r => exact absurd (hpick s e r h) hinner
  rw [hw, hnone, Option.getD_none]

/-- **Two substitutions agree on a tree** exactly when they do the same to each of
    its leaves. -/
theorem Substitutes.agree_iff {next' : R → K → R} {pick' : R → E → Option E} {w' : R → E → E}
    (hw : T.Substitutes next pick w) (hpick : T.AtLeaves pick)
    (hw' : T.Substitutes next' pick' w') (hpick' : T.AtLeaves pick') (s : S) (r : R) (e : E) :
    w s e = w' r e ↔ ∀ ks d, T.Path e ks d → T.Leaf d →
      (pick (ks.foldl next s) d).getD d = (pick' (ks.foldl next' r) d).getD d := by
  -- on the rank, the states free: every slot changes them
  induction hrank : T.rank e using Nat.strongRecOn generalizing s r e with
  | ind n ih =>
    by_cases hleaf : T.Leaf e
    · rw [hw.leaf hleaf, hw'.leaf hleaf]
      constructor
      · intro heq ks d hpath _
        obtain ⟨rfl, rfl⟩ := hpath.of_leaf hleaf
        exact heq
      · intro h
        exact h [] e (.here e) hleaf
    · rw [hw.inner hpick hleaf, hw'.inner hpick' hleaf, mapSlots_eq_iff, forall_path_iff hleaf]
      apply forall₂_congr
      intro slot hslot
      exact ih (T.rank slot.2) (hrank ▸ T.rank_lt hslot) (next s slot.1) (next' r slot.1) slot.2 rfl

/-- What a substitution leaves alone. -/
theorem Substitutes.fixed_iff (hw : T.Substitutes next pick w) (hpick : T.AtLeaves pick) (s : S)
    (e : E) : w s e = e ↔ ∀ ks d, T.Path e ks d → T.Leaf d →
      (pick (ks.foldl next s) d).getD d = d := by
  have hid : T.Substitutes (fun _ _ => ()) (fun _ _ => none) (fun (_ : Unit) e => e) :=
    fun _ e => (T.mapSlots_id e).symm
  have hnone : T.AtLeaves (fun (_ : Unit) _ => none) := fun _ _ _ h => nomatch h
  exact hw.agree_iff hpick hid hnone s () e

/-! ### The substitution at given paths -/

variable (T) in
/-- What `put` says is put in place of the nodes, given the path to each. -/
def substAt (put : List K → E → Option E) (ks : List K) (e : E) : E :=
  (put ks e).getD
    (T.mapSlots (fun k c => if T.rank c < T.rank e then substAt put (ks ++ [k]) c else c) e)
termination_by T.rank e

theorem substAt_substitutes (put : List K → E → Option E) :
    T.Substitutes (fun ks k => ks ++ [k]) put (T.substAt put) := by
  intro ks e
  rw [substAt]
  congr 1
  apply T.mapSlots_congr
  intro s hs
  rw [if_pos (T.rank_lt hs)]

theorem foldl_path (ks ks' : List K) : ks'.foldl (fun ks k => ks ++ [k]) ks = ks ++ ks' := by
  induction ks' generalizing ks with
  | nil => exact (List.append_nil ks).symm
  | cons k ks' ih => rw [List.foldl_cons, ih, List.append_assoc, List.singleton_append]

/-- A substitution is the one at given paths exactly when it does the same to each leaf. -/
theorem Substitutes.eq_substAt_iff {put : List K → E → Option E}
    (hw : T.Substitutes next pick w) (hpick : T.AtLeaves pick) (hput : T.AtLeaves put) (s : S)
    (e : E) : w s e = T.substAt put [] e ↔ ∀ ks d, T.Path e ks d → T.Leaf d →
      (pick (ks.foldl next s) d).getD d = (put ks d).getD d := by
  rw [hw.agree_iff hpick (substAt_substitutes put) hput]
  simp only [foldl_path, List.nil_append]

/-! ### One substitution after another -/

/-- What two substitutions put in place of a leaf, one after the other. -/
def thenPick (pick pick' : S → E → Option E) (w' : S → E → E) (s : S) (e : E) : Option E :=
  match pick s e with
  | some r => some (w' s r)
  | none => pick' s e

theorem AtLeaves.thenPick {pick' : S → E → Option E} {w' : S → E → E} (hpick : T.AtLeaves pick)
    (hpick' : T.AtLeaves pick') : T.AtLeaves (thenPick pick pick' w') := by
  intro s e r h
  unfold Slotted.thenPick at h
  cases hfirst : pick s e with
  | some q => exact hpick s e q hfirst
  | none =>
    rw [hfirst] at h
    exact hpick' s e r h

/-- Two substitutions that take the same state down, one after the other, are one. -/
theorem Substitutes.comp {pick' : S → E → Option E} {w' : S → E → E}
    (hw : T.Substitutes next pick w) (hpick : T.AtLeaves pick)
    (hw' : T.Substitutes next pick' w') (hpick' : T.AtLeaves pick') :
    T.Substitutes next (thenPick pick pick' w') (fun s e => w' s (w s e)) := by
  intro s e
  beta_reduce
  by_cases hleaf : T.Leaf e
  · rw [hleaf.mapSlots, hw.leaf hleaf, thenPick]
    cases pick s e with
    | some r => rfl
    | none => exact hw'.leaf hleaf
  · have hnone : thenPick pick pick' w' s e = none := by
      cases h : thenPick pick pick' w' s e with
      | none => rfl
      | some r => exact absurd (hpick.thenPick hpick' s e r h) hleaf
    have hinner : ¬ T.Leaf (T.mapSlots (fun k c => w (next s k) c) e) :=
      fun h => hleaf ((leaf_mapSlots _).mp h)
    rw [hnone, Option.getD_none, hw.inner hpick hleaf, hw'.inner hpick' hinner,
      T.mapSlots_mapSlots]

end Slotted

end CambrianLang.SlotTrees
