/-
  **Fusing the stages of a pipeline into one loop.**

  A pipeline filters, maps, numbers and truncates a list, one stage after another.
  The fused loop sends each element through all the stages before it takes the next
  one; it numbers by the position in the source and has one counter for all the
  truncations.  It computes what the pipeline computes when nothing is numbered after
  a filter and there is at most one truncation.
-/
import Mathlib.Data.List.Basic

namespace CambrianLang.Fusion

universe u

variable {E : Type u}

/-- A stage on elements of type `E`; what it computes may fail. -/
inductive Stage (E : Type u) where
  | keep (p : E → Option Bool)
  | map (f : E → Option E)
  | take (n : Option Nat)
  | number (f : Nat → E → Option E)

/-! ### One stage after another -/

def keepAll (p : E → Option Bool) : List E → Option (List E)
  | [] => some []
  | e :: es =>
      (p e).bind fun b => (keepAll p es).map fun rest => if b then e :: rest else rest

def numberFrom (f : Nat → E → Option E) : Nat → List E → Option (List E)
  | _, [] => some []
  | i, e :: es => (f i e).bind fun x => (numberFrom f (i + 1) es).map (x :: ·)

/-- The stages on the rest of a list, of which `i` elements are past, `t` of them taken. -/
def stagedFrom : List (Stage E) → Nat → Nat → List E → Option (List E)
  | [], _, _, es => some es
  | .keep p :: ss, i, t, es => (keepAll p es).bind (stagedFrom ss i t)
  | .map f :: ss, i, t, es => (es.mapM f).bind (stagedFrom ss i t)
  | .take n :: ss, i, t, es => n.bind fun k => stagedFrom ss i t (es.take (k - t))
  | .number f :: ss, i, t, es => (numberFrom f i es).bind (stagedFrom ss i t)

/-- The stages one after another. -/
def staged (ss : List (Stage E)) (es : List E) : Option (List E) := stagedFrom ss 0 0 es

/-! ### All stages at once -/

/-- What becomes of one element, with the counter after it. -/
inductive Verdict (E : Type u) where
  | emit (e : E) (t : Nat)
  | skip (t : Nat)
  | stop

/-- One element, the `i`-th of the source, through all the stages. -/
def step : List (Stage E) → Nat → Nat → E → Option (Verdict E)
  | [], _, t, e => some (.emit e t)
  | .keep p :: ss, i, t, e => (p e).bind fun b => if b then step ss i t e else some (.skip t)
  | .map f :: ss, i, t, e => (f e).bind (step ss i t)
  | .take n :: ss, i, t, e => n.bind fun k => if k ≤ t then some .stop else step ss i (t + 1) e
  | .number f :: ss, i, t, e => (f i e).bind (step ss i t)

/-- The loop over the rest of the source. -/
def fusedFrom (ss : List (Stage E)) : Nat → Nat → List E → Option (List E)
  | _, _, [] => some []
  | i, t, e :: es =>
      match step ss i t e with
      | some (.emit x t) => (fusedFrom ss (i + 1) t es).map (x :: ·)
      | some (.skip t) => fusedFrom ss (i + 1) t es
      | some .stop => some []
      | none => none

/-! ### Orderly pipelines -/

def Stage.isTake : Stage E → Bool
  | .take _ => true
  | _ => false

def Stage.isNumber : Stage E → Bool
  | .number _ => true
  | _ => false

/-- Nothing is numbered after a filter, nothing truncated twice. -/
def Orderly : List (Stage E) → Prop
  | [] => True
  | .keep _ :: ss => (∀ s ∈ ss, s.isNumber = false) ∧ Orderly ss
  | .take _ :: ss => (∀ s ∈ ss, s.isTake = false) ∧ Orderly ss
  | .map _ :: ss | .number _ :: ss => Orderly ss

/-- Without numbering, the position does not matter. -/
theorem stagedFrom_position {ss : List (Stage E)} (h : ∀ s ∈ ss, s.isNumber = false) (i j t : Nat)
    (es : List E) : stagedFrom ss i t es = stagedFrom ss j t es := by
  induction ss generalizing es with
  | nil => rfl
  | cons s ss ih =>
    obtain ⟨hs, hss⟩ := List.forall_mem_cons.mp h
    cases s with
    | keep p => simp only [stagedFrom, funext (ih hss)]
    | map f => simp only [stagedFrom, funext (ih hss)]
    | take n => simp only [stagedFrom, ih hss]
    | number f => cases hs

/-- Without truncation, the counter does not matter. -/
theorem stagedFrom_counter {ss : List (Stage E)} (h : ∀ s ∈ ss, s.isTake = false) (i t u : Nat)
    (es : List E) : stagedFrom ss i t es = stagedFrom ss i u es := by
  induction ss generalizing es with
  | nil => rfl
  | cons s ss ih =>
    obtain ⟨hs, hss⟩ := List.forall_mem_cons.mp h
    cases s with
    | keep p => simp only [stagedFrom, funext (ih hss)]
    | map f => simp only [stagedFrom, funext (ih hss)]
    | take n => cases hs
    | number f => simp only [stagedFrom, funext (ih hss)]

/-- Without truncation, the counter stays. -/
theorem step_counter {ss : List (Stage E)} (h : ∀ s ∈ ss, s.isTake = false) {i t : Nat} {e : E}
    {v : Verdict E} (hv : step ss i t e = some v) : (∃ x, v = .emit x t) ∨ v = .skip t := by
  induction ss generalizing e with
  | nil =>
    cases hv
    exact Or.inl ⟨e, rfl⟩
  | cons s ss ih =>
    obtain ⟨hs, hss⟩ := List.forall_mem_cons.mp h
    cases s with
    | keep p =>
      obtain ⟨b, -, hv⟩ := Option.bind_eq_some_iff.mp hv
      cases b with
      | true => exact ih hss hv
      | false =>
        cases hv
        exact Or.inr rfl
    | map f =>
      obtain ⟨x, -, hv⟩ := Option.bind_eq_some_iff.mp hv
      exact ih hss hv
    | take n => cases hs
    | number f =>
      obtain ⟨x, -, hv⟩ := Option.bind_eq_some_iff.mp hv
      exact ih hss hv

theorem stagedFrom_nil {ss : List (Stage E)} {i t : Nat} {r : List E}
    (h : stagedFrom ss i t [] = some r) : r = [] := by
  induction ss with
  | nil =>
    cases h
    rfl
  | cons s ss ih =>
    cases s with
    | keep p =>
      rw [stagedFrom, keepAll, Option.bind_some] at h
      exact ih h
    | map f =>
      rw [stagedFrom, List.mapM_nil] at h
      exact ih h
    | take n =>
      obtain ⟨k, -, h⟩ := Option.bind_eq_some_iff.mp h
      rw [List.take_nil] at h
      exact ih h
    | number f =>
      rw [stagedFrom, numberFrom, Option.bind_some] at h
      exact ih h

/-- What the verdict on an element says about the stages on it and the rest. -/
def Continues (ss : List (Stage E)) (i : Nat) (es r : List E) : Verdict E → Prop
  | .emit x t => ∃ r', r = x :: r' ∧ stagedFrom ss (i + 1) t es = some r'
  | .skip t => stagedFrom ss (i + 1) t es = some r
  | .stop => r = []

/-- Putting a stage in front of an element's verdict. -/
theorem Continues.stage {ss : List (Stage E)} {s : Stage E} {i : Nat} {es ys r : List E}
    {v : Verdict E} (h : Continues ss i ys r v)
    (hstage : ∀ t, (∃ x, v = .emit x t) ∨ v = .skip t →
      stagedFrom (s :: ss) (i + 1) t es = stagedFrom ss (i + 1) t ys) :
    Continues (s :: ss) i es r v := by
  cases v with
  | emit x t =>
    obtain ⟨r', rfl, hr'⟩ := h
    exact ⟨r', rfl, (hstage t (Or.inl ⟨x, rfl⟩)).trans hr'⟩
  | skip t => exact (hstage t (Or.inr rfl)).trans h
  | stop => exact h

/-- **One round of the loop takes one element off the pipeline.** -/
theorem step_of_staged {ss : List (Stage E)} (h : Orderly ss) {i t : Nat} {e : E} {es r : List E}
    (hr : stagedFrom ss i t (e :: es) = some r) :
    ∃ v, step ss i t e = some v ∧ Continues ss i es r v := by
  induction ss generalizing e es t with
  | nil =>
    cases hr
    exact ⟨_, rfl, es, rfl, rfl⟩
  | cons s ss ih =>
    cases s with
    | keep p =>
      obtain ⟨hnumber, hss⟩ := h
      obtain ⟨xs, hxs, hr⟩ := Option.bind_eq_some_iff.mp hr
      rw [keepAll] at hxs
      obtain ⟨b, hb, hxs⟩ := Option.bind_eq_some_iff.mp hxs
      obtain ⟨ys, hys, hxs⟩ := Option.map_eq_some_iff.mp hxs
      have hrest : ∀ t, stagedFrom (.keep p :: ss) (i + 1) t es = stagedFrom ss (i + 1) t ys := by
        intro t
        simp only [stagedFrom, hys, Option.bind_some]
      cases b with
      | true =>
        cases hxs
        obtain ⟨v, hv, hcont⟩ := ih hss hr
        refine ⟨v, ?_, hcont.stage fun t _ => hrest t⟩
        simp only [step, hb, Option.bind_some, if_true, hv]
      | false =>
        cases hxs
        refine ⟨.skip t, ?_, ?_⟩
        · simp only [step, hb, Option.bind_some, Bool.false_eq_true, if_false]
        · -- a dropped element moves the position on, which only numbering could tell
          change stagedFrom _ _ _ _ = _
          rw [hrest, stagedFrom_position hnumber (i + 1) i]
          exact hr
    | map f =>
      obtain ⟨xs, hxs, hr⟩ := Option.bind_eq_some_iff.mp hr
      rw [List.mapM_cons] at hxs
      obtain ⟨x, hx, hxs⟩ := Option.bind_eq_some_iff.mp hxs
      obtain ⟨ys, hys, hxs⟩ := Option.bind_eq_some_iff.mp hxs
      cases hxs
      obtain ⟨v, hv, hcont⟩ := ih h hr
      refine ⟨v, ?_, hcont.stage fun t _ => ?_⟩
      · simp only [step, hx, Option.bind_some, hv]
      · simp only [stagedFrom, hys, Option.bind_some]
    | take n =>
      obtain ⟨htake, hss⟩ := h
      obtain ⟨k, hn, hr⟩ := Option.bind_eq_some_iff.mp hr
      by_cases hk : k ≤ t
      · rw [Nat.sub_eq_zero_of_le hk, List.take_zero] at hr
        refine ⟨.stop, ?_, stagedFrom_nil hr⟩
        simp only [step, hn, Option.bind_some, if_pos hk]
      · obtain ⟨m, hm⟩ : ∃ m, k - t = m + 1 := ⟨k - t - 1, by omega⟩
        rw [hm, List.take_succ_cons, stagedFrom_counter htake i t (t + 1)] at hr
        obtain ⟨v, hv, hcont⟩ := ih hss hr
        refine ⟨v, ?_, hcont.stage fun u hu => ?_⟩
        · simp only [step, hn, Option.bind_some, if_neg hk, hv]
        · have hcounter : u = t + 1 := by
            rcases step_counter htake hv with ⟨x, rfl⟩ | rfl
            · rcases hu with ⟨y, hy⟩ | hy
              · cases hy
                rfl
              · cases hy
            · rcases hu with ⟨y, hy⟩ | hy
              · cases hy
              · cases hy
                rfl
          have hleft : k - u = m := by omega
          simp only [stagedFrom, hn, Option.bind_some, hleft]
    | number f =>
      obtain ⟨xs, hxs, hr⟩ := Option.bind_eq_some_iff.mp hr
      rw [numberFrom] at hxs
      obtain ⟨x, hx, hxs⟩ := Option.bind_eq_some_iff.mp hxs
      obtain ⟨ys, hys, rfl⟩ := Option.map_eq_some_iff.mp hxs
      obtain ⟨v, hv, hcont⟩ := ih h hr
      refine ⟨v, ?_, hcont.stage fun t _ => ?_⟩
      · simp only [step, hx, Option.bind_some, hv]
      · simp only [stagedFrom, hys, Option.bind_some]

/-- **The fused loop computes what an orderly pipeline computes.** -/
theorem fused_of_staged {ss : List (Stage E)} (h : Orderly ss) {i t : Nat} {es r : List E}
    (hr : stagedFrom ss i t es = some r) : fusedFrom ss i t es = some r := by
  induction es generalizing i t r with
  | nil => rw [stagedFrom_nil hr, fusedFrom]
  | cons e es ih =>
    obtain ⟨v, hv, hcont⟩ := step_of_staged h hr
    cases v with
    | emit x t' =>
      obtain ⟨r', rfl, hr'⟩ := hcont
      simp only [fusedFrom, hv, ih hr', Option.map_some]
    | skip t' =>
      simp only [fusedFrom, hv]
      exact ih hcont
    | stop =>
      simp only [fusedFrom, hv]
      exact congrArg some hcont.symm

end CambrianLang.Fusion
