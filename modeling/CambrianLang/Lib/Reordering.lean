/-
  **Steps moved to the front of a run.**

  Some steps of a list are taken out one after the other and run first; what stays is run
  after them in its old order.  The run ends in the same state when each of them is taken past
  steps that it is independent of, at what the steps taken before it have left.  Nothing is
  asked of the steps that keep their order.
-/
import Mathlib

namespace CambrianLang.Reordering

variable {α κ σ ν : Type}

/-- `front` is taken out of a list and `rest` stays: each step past those in front of it,
    all of them independent of it after what has been taken so far. -/
inductive Extracts (indep : κ → α → α → Prop) (grow : κ → α → κ) :
    κ → List α → List α → List α → Prop where
  | done {k : κ} {rest : List α} : Extracts indep grow k rest [] rest
  | pick {k : κ} {before after front rest : List α} {a : α} (hbefore : ∀ s ∈ before, indep k s a)
      (htail : Extracts indep grow (grow k a) (before ++ after) front rest) :
      Extracts indep grow k (before ++ a :: after) (a :: front) rest

variable {indep : κ → α → α → Prop} {grow : κ → α → κ}

theorem Extracts.append {k : κ} {l front mid front' rest : List α}
    (h : Extracts indep grow k l front mid)
    (h' : Extracts indep grow (front.foldl grow k) mid front' rest) :
    Extracts indep grow k l (front ++ front') rest := by
  induction h with
  | done => exact h'
  | pick hbefore _ ih => exact .pick hbefore (ih h')

/-! ### All steps of a kind -/

theorem extracts_held {p : α → Bool} (l : List α) : ∀ (held : List α) (k : κ),
    (∀ before a after, l = before ++ a :: after → p a = true →
      ∀ s ∈ held ++ before, s ∈ held ∨ p s = false →
        indep ((before.filter p).foldl grow k) s a) →
    Extracts indep grow k (held ++ l) (l.filter p) (held ++ l.filter fun s => !p s) := by
  induction l with
  | nil => exact fun _ _ _ => .done
  | cons a l ih =>
    intro held k h
    cases ha : p a with
    | true =>
      rw [List.filter_cons_of_pos ha, List.filter_cons_of_neg (by rw [ha]; decide)]
      refine .pick (fun s hs => h [] a l rfl ha s (List.mem_append_left _ hs) (Or.inl hs)) ?_
      refine ih held (grow k a) fun before b after hsplit hb s hs hkind => ?_
      have hindep := h (a :: before) b after (by rw [hsplit]; rfl) hb s
        ((List.mem_append.mp hs).elim (List.mem_append_left _)
          fun hs => List.mem_append_right _ (List.mem_cons_of_mem _ hs)) hkind
      rwa [List.filter_cons_of_pos ha] at hindep
    | false =>
      rw [List.filter_cons_of_neg (by rw [ha]; decide), List.filter_cons_of_pos (by rw [ha]; rfl)]
      have hnext := ih (held ++ [a]) k fun before b after hsplit hb s hs hkind => by
        have hindep := h (a :: before) b after (by rw [hsplit]; rfl) hb s (by
          rwa [List.append_assoc] at hs)
        rw [List.filter_cons_of_neg (by rw [ha]; decide)] at hindep
        refine hindep ?_
        rcases hkind with hheld | hkind
        · rcases List.mem_append.mp hheld with hheld | hlast
          · exact Or.inl hheld
          · exact Or.inr (List.mem_singleton.mp hlast ▸ ha)
        · exact Or.inr hkind
      simpa only [List.append_assoc, List.singleton_append] using hnext

/-- All steps of a kind are taken out, in their order. -/
theorem extracts_filter {p : α → Bool} {l : List α} {k : κ}
    (h : ∀ before a after, l = before ++ a :: after → p a = true →
      ∀ s ∈ before, p s = false → indep ((before.filter p).foldl grow k) s a) :
    Extracts indep grow k l (l.filter p) (l.filter fun s => !p s) :=
  extracts_held l [] k fun before a after hsplit ha s hs hkind =>
    h before a after hsplit ha s hs (hkind.resolve_left List.not_mem_nil)

/-- What is in front can be taken out as it is. -/
theorem extracts_front (front rest : List α) (k : κ) :
    Extracts indep grow k (front ++ rest) front rest := by
  induction front generalizing k with
  | nil => exact .done
  | cons a front ih => exact @Extracts.pick _ _ indep grow k [] (front ++ rest) front rest a nofun (ih (grow k a))

/-! ### In another order -/

/-- `s` stands before `a`. -/
def Precedes (l : List α) (s a : α) : Prop := [s, a].Sublist l

theorem precedes_iff {l : List α} {s a : α} :
    Precedes l s a ↔ ∃ before after, l = before ++ a :: after ∧ s ∈ before := by
  constructor
  · intro h
    obtain ⟨before, rest, rfl, hs, ha⟩ := List.cons_sublist_iff.mp h
    obtain ⟨mid, after, rfl⟩ := List.append_of_mem (List.singleton_sublist.mp ha)
    exact ⟨before ++ mid, after, by rw [List.append_assoc], List.mem_append_left _ hs⟩
  · rintro ⟨before, after, rfl, hs⟩
    have htail : [a].Sublist (a :: after) := List.singleton_sublist.mpr List.mem_cons_self
    exact (List.singleton_sublist.mpr hs).append htail

theorem precedes_cons {l : List α} {b s a : α} : Precedes (b :: l) s a ↔ (s = b ∧ a ∈ l) ∨ Precedes l s a := by
  rw [Precedes, List.sublist_cons_iff, or_comm]
  refine or_congr_left ⟨?_, ?_⟩
  · rintro ⟨r, heq, hr⟩
    cases heq
    exact ⟨rfl, List.singleton_sublist.mp hr⟩
  · rintro ⟨rfl, ha⟩
    exact ⟨[a], rfl, List.singleton_sublist.mpr ha⟩

theorem Precedes.sublist {l l' : List α} {s a : α} (h : Precedes l s a) (hsub : l.Sublist l') :
    Precedes l' s a :=
  List.Sublist.trans h hsub

theorem Precedes.filter {l : List α} {s a : α} {p : α → Bool} (h : Precedes l s a) (hs : p s = true)
    (ha : p a = true) : Precedes (l.filter p) s a := by
  have hpair : [s, a].filter p = [s, a] := by
    rw [List.filter_cons_of_pos hs, List.filter_cons_of_pos ha, List.filter_nil]
  rw [Precedes, ← hpair]
  exact List.Sublist.filter p h

theorem Precedes.rel {l : List α} {s a : α} {r : α → α → Prop} (h : Precedes l s a) (hl : l.Pairwise r) :
    r s a :=
  List.rel_of_pairwise_cons (hl.sublist h) (List.mem_singleton_self a)

theorem precedes_asymm {l : List α} {s a : α} (hnodup : l.Nodup) (h : Precedes l s a) :
    ¬ Precedes l a s := by
  induction l with
  | nil => exact absurd (h.subset List.mem_cons_self) List.not_mem_nil
  | cons b l ih =>
    obtain ⟨hb, hnodup⟩ := List.nodup_cons.mp hnodup
    intro hback
    rcases precedes_cons.mp h with ⟨rfl, ha⟩ | hrest
    · rcases precedes_cons.mp hback with ⟨rfl, hs⟩ | hback
      · exact hb hs
      · exact hb (hback.subset (List.mem_cons_of_mem _ List.mem_cons_self))
    · rcases precedes_cons.mp hback with ⟨rfl, hs⟩ | hback
      · exact hb (hrest.subset (List.mem_cons_of_mem _ List.mem_cons_self))
      · exact ih hnodup hrest hback

/-- All steps of a kind, each of them listed once, are taken out in some order. -/
theorem extracts_perm {p : α → Bool} (front : List α) : ∀ (l : List α) (k : κ),
    front.Perm (l.filter p) → front.Nodup →
    (∀ taken a later, front = taken ++ a :: later → ∀ s, Precedes l s a → s ∉ taken →
      indep (taken.foldl grow k) s a) →
    Extracts indep grow k l front (l.filter fun s => !p s) := by
  induction front with
  | nil =>
    intro l k hperm _ _
    have hnone : ∀ s ∈ l, (!p s) = true := by
      intro s hs
      by_contra hp
      have hmem : s ∈ l.filter p := List.mem_filter.mpr ⟨hs, by simpa using hp⟩
      exact List.not_mem_nil (hperm.mem_iff.mpr hmem)
    rw [List.filter_eq_self.mpr hnone]
    exact .done
  | cons a front ih =>
    intro l k hperm hnodup h
    obtain ⟨hfresh, hnodup⟩ := List.nodup_cons.mp hnodup
    obtain ⟨hmem, ha⟩ := List.mem_filter.mp (hperm.mem_iff.mp List.mem_cons_self)
    obtain ⟨before, after, rfl⟩ := List.append_of_mem hmem
    rw [List.filter_append, List.filter_cons_of_pos ha] at hperm
    have hrest : front.Perm ((before ++ after).filter p) := by
      rw [List.filter_append]
      exact (hperm.trans List.perm_middle).cons_inv
    have hgone : (before ++ a :: after).filter (fun s => !p s) =
        (before ++ after).filter fun s => !p s := by
      rw [List.filter_append, List.filter_append, List.filter_cons_of_neg (by rw [ha]; decide)]
    rw [hgone]
    refine .pick (fun s hs => ?_) (ih (before ++ after) (grow k a) hrest hnodup ?_)
    · exact h [] a front rfl s (precedes_iff.mpr ⟨before, after, rfl, hs⟩) List.not_mem_nil
    · intro taken c later hsplit s hpre hs
      have hsub : (before ++ after).Sublist (before ++ a :: after) :=
        (List.Sublist.refl before).append (List.sublist_cons_self a after)
      have hsource : s ∈ before ++ after := hpre.subset List.mem_cons_self
      have hne : s ≠ a := by
        rintro rfl
        exact hfresh (hrest.mem_iff.mpr (List.mem_filter.mpr ⟨hsource, ha⟩))
      exact h (a :: taken) c later (by rw [hsplit]; rfl) s (hpre.sublist hsub) (by
        rw [List.mem_cons, not_or]
        exact ⟨hne, hs⟩)

/-! ### Runs -/

/-- The steps of a list, one after the other. -/
def run (exec : α → σ → σ) (l : List α) (x : σ) : σ := l.foldl (fun x a => exec a x) x

theorem run_append (exec : α → σ → σ) (l l' : List α) (x : σ) :
    run exec (l ++ l') x = run exec l' (run exec l x) := List.foldl_append

section Run

variable {exec : α → σ → σ} {holds : κ → σ → Prop}
  (hkeep : ∀ k a x, holds k x → holds k (exec a x))
  (hindep : ∀ k s a x, holds k x → indep k s a → exec a (exec s x) = exec s (exec a x))
include hkeep hindep

theorem run_pick {k : κ} {a : α} {after : List α} (before : List α)
    (hbefore : ∀ s ∈ before, indep k s a) : ∀ x, holds k x →
      run exec (a :: (before ++ after)) x = run exec (before ++ a :: after) x := by
  induction before with
  | nil => exact fun _ _ => rfl
  | cons s before ih =>
    intro x hx
    obtain ⟨hs, hbefore⟩ := List.forall_mem_cons.mp hbefore
    have hstep := ih hbefore (exec s x) (hkeep k s x hx)
    calc run exec (a :: (s :: before ++ after)) x
        = run exec (before ++ after) (exec s (exec a x)) := rfl
      _ = run exec (before ++ after) (exec a (exec s x)) := by rw [hindep k s a x hx hs]
      _ = run exec (before ++ a :: after) (exec s x) := hstep

/-- **What is taken out and run first** leads to the same state. -/
theorem Extracts.run_eq (hgrow : ∀ k a x, holds k x → holds (grow k a) (exec a x)) {k : κ}
    {l front rest : List α} (h : Extracts indep grow k l front rest) :
    ∀ x, holds k x → run exec (front ++ rest) x = run exec l x := by
  induction h with
  | done => exact fun _ _ => rfl
  | @pick k before after front rest a hbefore _ ih =>
    intro x hx
    rw [← run_pick hkeep hindep before hbefore x hx]
    exact ih (exec a x) (hgrow k a x hx)

end Run

/-! ### Scopes -/

section Scopes

variable (needs gives : α → Set ν)

/-- Each step finds what it needs, given at the start or by a step before it. -/
def Scoped : Set ν → List α → Prop
  | _, [] => True
  | known, a :: l => needs a ⊆ known ∧ Scoped (known ∪ gives a) l

variable {needs gives}

/-- A step that needs nothing of those before it can stand in front of them. -/
theorem Scoped.pick {a : α} {after : List α} (before : List α)
    (hbefore : ∀ s ∈ before, Disjoint (gives s) (needs a)) : ∀ {known : Set ν},
      Scoped needs gives known (before ++ a :: after) →
        Scoped needs gives known (a :: (before ++ after)) := by
  induction before with
  | nil => exact id
  | cons s before ih =>
    intro known h
    obtain ⟨hs, hbefore⟩ := List.forall_mem_cons.mp hbefore
    obtain ⟨hneeds, htail⟩ := ih hbefore h.2
    have hown : needs a ⊆ known := by
      intro x hx
      rcases hneeds hx with hknown | hgiven
      · exact hknown
      · exact absurd hx (Set.disjoint_left.mp hs hgiven)
    refine ⟨hown, h.1.trans Set.subset_union_left, ?_⟩
    rwa [Set.union_right_comm]

theorem Extracts.scoped (hindep : ∀ k s a, indep k s a → Disjoint (gives s) (needs a)) {k : κ}
    {l front rest : List α} (h : Extracts indep grow k l front rest) : ∀ {known : Set ν},
      Scoped needs gives known l → Scoped needs gives known (front ++ rest) := by
  induction h with
  | done => exact id
  | @pick k before after front rest a hbefore _ ih =>
    intro known hl
    have hpick := Scoped.pick before (fun s hs => hindep k s a (hbefore s hs)) hl
    exact ⟨hpick.1, ih hpick.2⟩

end Scopes

end CambrianLang.Reordering
