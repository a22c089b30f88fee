/-
  **Termination of a recursion that follows the edges of a finite graph.**

  A recursion without a bound is written with fuel, and it terminates when some
  fuel is enough.  Over a graph whose edges start at finitely many nodes that is
  the same as the absence of a cycle, and a cycle either stays among the nodes a
  check has seen or passes through one it has missed.
-/
import Mathlib.Data.Set.Finite.List

namespace CambrianLang.Unfolding

open Relation

/-! ### Cycles -/

section Graph

variable {α : Type} {r : α → α → Prop}

theorem not_transGen_of_acc {v : α} (h : Acc (fun b a => r a b) v) : ¬ TransGen r v v := by
  have hacc : Acc (fun b a => TransGen r a b) v := by
    have hswap : (fun b a => TransGen r a b) = TransGen fun b a => r a b := by
      funext b a
      exact propext transGen_swap
    rw [hswap]
    exact h.transGen
  clear h
  induction hacc with
  | intro v _ ih => exact fun hcyc => ih v hcyc hcyc

/-- Without a cycle and with finitely many nodes that have an edge, following edges
    ends. -/
theorem acc_of_acyclic {names : List α} (hfin : ∀ a b, r a b → a ∈ names)
    (hacyc : ∀ v, ¬ TransGen r v v) (v : α) : Acc (fun b a => r a b) v := by
  have hwf : WellFounded fun b a : {x // x ∈ names} => TransGen r a.1 b.1 := by
    have : Finite {x // x ∈ names} := List.finite_toSet names
    have : IsTrans {x // x ∈ names} fun b a => TransGen r a.1 b.1 :=
      ⟨fun _ _ _ hab hbc => TransGen.trans hbc hab⟩
    have : Std.Irrefl fun b a : {x // x ∈ names} => TransGen r a.1 b.1 := ⟨fun a => hacyc a.1⟩
    exact Finite.wellFounded_of_trans_of_irrefl _
  have hnode : ∀ a : {x // x ∈ names}, Acc (fun b a => r a b) a.1 := by
    intro a
    induction a using hwf.induction with
    | _ a ih =>
      refine Acc.intro _ fun b hb => ?_
      by_cases hmem : b ∈ names
      · exact ih ⟨b, hmem⟩ (TransGen.single hb)
      · exact Acc.intro _ fun c hc => absurd (hfin b c hc) hmem
  by_cases hmem : v ∈ names
  · exact hnode ⟨v, hmem⟩
  · exact Acc.intro _ fun b hb => absurd (hfin v b hb) hmem

/-- A path stays among the nodes seen or passes through one that is missed. -/
theorem transGen_seen_or_missed {missed : α → Prop} {a b : α} (h : TransGen r a b) :
    TransGen (fun x y => r x y ∧ ¬ missed x ∧ ¬ missed y) a b ∨
      ∃ n, missed n ∧ ReflTransGen r a n ∧ ReflTransGen r n b := by
  induction h with
  | single hab =>
    rename_i c
    by_cases ha : missed a
    · exact Or.inr ⟨a, ha, ReflTransGen.refl, ReflTransGen.single hab⟩
    · by_cases hc : missed c
      · exact Or.inr ⟨c, hc, ReflTransGen.single hab, ReflTransGen.refl⟩
      · exact Or.inl (TransGen.single ⟨hab, ha, hc⟩)
  | tail hab hbc ih =>
    rename_i b c
    rcases ih with hseen | ⟨n, hn, han, hnb⟩
    · by_cases hb : missed b
      · exact Or.inr ⟨b, hb, hab.to_reflTransGen, ReflTransGen.single hbc⟩
      · by_cases hc : missed c
        · exact Or.inr ⟨c, hc, hab.to_reflTransGen.tail hbc, ReflTransGen.refl⟩
        · exact Or.inl (hseen.tail ⟨hbc, hb, hc⟩)
    · exact Or.inr ⟨n, hn, han, hnb.tail hbc⟩

theorem cycle_seen_or_missed {missed : α → Prop} {a : α} (h : TransGen r a a) :
    TransGen (fun x y => r x y ∧ ¬ missed x ∧ ¬ missed y) a a ∨ ∃ n, missed n ∧ TransGen r n n := by
  rcases transGen_seen_or_missed h with hseen | ⟨n, hn, han, hna⟩
  · exact Or.inl hseen
  · exact Or.inr ⟨n, hn, (TransGen.trans_right hna h).trans_left han⟩

/-- **What a check that covers all but some nodes leaves open**: when no cycle stays
    among the nodes seen, all of the graph is acyclic exactly when no cycle passes
    through a missed node. -/
theorem acyclic_iff_missed {missed : α → Prop}
    (hseen : ∀ v, ¬ TransGen (fun x y => r x y ∧ ¬ missed x ∧ ¬ missed y) v v) :
    (∀ v, ¬ TransGen r v v) ↔ ∀ n, missed n → ¬ TransGen r n n := by
  constructor
  · exact fun h n _ => h n
  · intro h v hcyc
    rcases cycle_seen_or_missed hcyc with hs | ⟨n, hn, hnn⟩
    · exact hseen v hs
    · exact h n hn hnn

end Graph

/-! ### Fuel -/

section Fuel

variable {α β : Type}

/-- More fuel does not change a result. -/
def Monotone (step : Nat → α → Option β) : Prop :=
  ∀ fuel x y, step fuel x = some y → step (fuel + 1) x = some y

theorem Monotone.le {step : Nat → α → Option β} (h : Monotone step) {fuel fuel' : Nat}
    (hle : fuel ≤ fuel') {x : α} {y : β} (hx : step fuel x = some y) : step fuel' x = some y := by
  induction hle with
  | refl => exact hx
  | step _ ih => exact h _ x y ih

theorem foldlM_eq_some_mono {f g : β → α → Option β} (h : ∀ c x y, f c x = some y → g c x = some y)
    {xs : List α} {c d : β} (hf : xs.foldlM f c = some d) : xs.foldlM g c = some d := by
  induction xs generalizing c with
  | nil => exact hf
  | cons x xs ih =>
    rw [List.foldlM_cons, Option.bind_eq_bind, Option.bind_eq_some_iff] at hf ⊢
    obtain ⟨e, he, hrest⟩ := hf
    exact ⟨e, h c x e he, ih hrest⟩

/-- A fold terminates when each of its steps does. -/
theorem exists_foldlM {step : Nat → β → α → Option β}
    (hmono : ∀ fuel c x y, step fuel c x = some y → step (fuel + 1) c x = some y) {xs : List α}
    (h : ∀ x ∈ xs, ∀ c, ∃ fuel, (step fuel c x).isSome = true) (c : β) :
    ∃ fuel, (xs.foldlM (step fuel) c).isSome = true := by
  have hup : Monotone fun fuel (p : β × α) => step fuel p.1 p.2 := fun fuel p y hy =>
    hmono fuel p.1 p.2 y hy
  induction xs generalizing c with
  | nil => exact ⟨0, rfl⟩
  | cons x xs ih =>
    obtain ⟨hx, hxs⟩ := List.forall_mem_cons.mp h
    obtain ⟨m, hm⟩ := hx c
    obtain ⟨d, hd⟩ := Option.isSome_iff_exists.mp hm
    obtain ⟨n, hn⟩ := ih hxs d
    obtain ⟨e, he⟩ := Option.isSome_iff_exists.mp hn
    refine ⟨m + n, ?_⟩
    have hfirst : step (m + n) c x = some d := hup.le (Nat.le_add_right m n) (x := (c, x)) hd
    have hrest : xs.foldlM (step (m + n)) d = some e :=
      foldlM_eq_some_mono (fun c x y hy => hup.le (Nat.le_add_left n m) (x := (c, x)) hy) he
    rw [List.foldlM_cons, hfirst, Option.bind_eq_bind, Option.bind_some, hrest]
    rfl

/-- In a fold that ends, every element was stepped over. -/
theorem isSome_of_foldlM {step : β → α → Option β} {xs : List α} {c : β}
    (h : (xs.foldlM step c).isSome = true) : ∀ x ∈ xs, ∃ d, (step d x).isSome = true := by
  induction xs generalizing c with
  | nil => exact fun x hx => absurd hx List.not_mem_nil
  | cons x xs ih =>
    obtain ⟨e, he⟩ := Option.isSome_iff_exists.mp h
    rw [List.foldlM_cons, Option.bind_eq_bind, Option.bind_eq_some_iff] at he
    obtain ⟨d, hd, hrest⟩ := he
    intro y hy
    rcases List.mem_cons.mp hy with rfl | hmem
    · exact ⟨c, by rw [hd]; rfl⟩
    · exact ih (by rw [hrest]; rfl) y hmem

end Fuel

end CambrianLang.Unfolding
