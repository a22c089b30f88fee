/-
  **Histories: the steps that were taken, with the states they led between.**

  A bound that holds between two steps of a run is a statement about a segment of
  its history.  Three are proved here from what one step does: steps that pay
  their cost out of a reserve cost no more than the reserve (`reserve_bounds`), a
  counter counts (`counter_eq`), and steps stamped with the value of a counter
  that they advance carry different stamps (`nodup_stamps`).
-/
import CambrianLang.Lib.Trapping

namespace CambrianLang.History

open Trapping

/-- A step that was taken. -/
structure Transition (σ μ : Type) where
  before : σ
  msg : μ
  after : σ

variable {σ μ β : Type} {s s' : σ} {t : Transition σ μ} {ts us : List (Transition σ μ)}

/-- The steps lead from the one state to the other. -/
def Leads : σ → List (Transition σ μ) → σ → Prop
  | s, [], s' => s = s'
  | s, t :: ts, s' => t.before = s ∧ Leads t.after ts s'

theorem leads_append : Leads s (ts ++ us) s' ↔ ∃ s₁, Leads s ts s₁ ∧ Leads s₁ us s' := by
  induction ts generalizing s with
  | nil =>
    constructor
    · intro h
      exact ⟨s, rfl, h⟩
    · rintro ⟨s₁, rfl, h⟩
      exact h
  | cons t ts ih =>
    constructor
    · rintro ⟨hb, h⟩
      obtain ⟨s₁, h₁, h₂⟩ := ih.mp h
      exact ⟨s₁, ⟨hb, h₁⟩, h₂⟩
    · rintro ⟨s₁, ⟨hb, h₁⟩, h₂⟩
      exact ⟨hb, ih.mpr ⟨s₁, h₁, h₂⟩⟩

/-- A step seen through a function of the state. -/
def Transition.map {σ' : Type} (f : σ → σ') (t : Transition σ μ) : Transition σ' μ :=
  ⟨f t.before, t.msg, f t.after⟩

theorem leads_map {σ' : Type} (f : σ → σ') (h : Leads s ts s') :
    Leads (f s) (ts.map (Transition.map f)) (f s') := by
  induction ts generalizing s with
  | nil => exact congrArg f h
  | cons t ts ih =>
    obtain ⟨rfl, h⟩ := h
    exact ⟨rfl, ih h⟩

/-! ### The history of a run -/

/-- The calls of a run that returned. -/
def history (call : σ → μ → Exec σ) : σ → List μ → List (Transition σ μ)
  | _, [] => []
  | s, m :: ms =>
    match call s m with
    | .ok s' => ⟨s, m, s'⟩ :: history call s' ms
    | .error _ => history call s ms

variable {call : σ → μ → Exec σ} {ms : List μ}

theorem leads_history : Leads s (history call s ms) (run call s ms) := by
  induction ms generalizing s with
  | nil => rfl
  | cons m ms ih =>
    rw [history, run_cons]
    cases h : call s m with
    | ok s' =>
      rw [step_of_ok h]
      exact ⟨rfl, ih⟩
    | error e =>
      rw [step_of_error h]
      exact ih

theorem call_of_mem_history (ht : t ∈ history call s ms) : call t.before t.msg = .ok t.after := by
  induction ms generalizing s with
  | nil => cases ht
  | cons m ms ih =>
    rw [history] at ht
    cases h : call s m with
    | ok s' =>
      rw [h] at ht
      rcases List.mem_cons.mp ht with rfl | ht
      · exact h
      · exact ih ht
    | error e =>
      rw [h] at ht
      exact ih ht

/-! ### Reserves -/

section Reserves

variable {reserve : σ → Nat} {top : Nat} {cost : Transition σ μ → Nat}

/-- A step pays its cost out of the reserve, unless that is unlimited and stays so. -/
structure Pays (reserve : σ → Nat) (top : Nat) (cost : Transition σ μ → Nat)
    (t : Transition σ μ) : Prop where
  unlimited : reserve t.before = top → reserve t.after = top
  limited : reserve t.before < top → reserve t.after + cost t ≤ reserve t.before

/-- The cost of a segment. -/
def spent (cost : Transition σ μ → Nat) (ts : List (Transition σ μ)) : Nat := (ts.map cost).sum

@[simp] theorem spent_nil (cost : Transition σ μ → Nat) : spent cost [] = 0 := rfl

@[simp] theorem spent_cons (cost : Transition σ μ → Nat) (t : Transition σ μ)
    (ts : List (Transition σ μ)) : spent cost (t :: ts) = cost t + spent cost ts := rfl

theorem spent_eq_zero (h : ∀ t ∈ ts, cost t = 0) : spent cost ts = 0 := by
  induction ts with
  | nil => rfl
  | cons t ts ih =>
    rw [spent_cons, h t List.mem_cons_self, ih fun t' ht' => h t' (List.mem_cons_of_mem _ ht')]

/-- **What is paid out of a reserve is at most the reserve.** -/
theorem reserve_bounds (hl : Leads s ts s') (h : ∀ t ∈ ts, Pays reserve top cost t)
    (hs : reserve s < top) : reserve s' + spent cost ts ≤ reserve s := by
  induction ts generalizing s with
  | nil =>
    cases hl
    exact Nat.le_refl _
  | cons t ts ih =>
    obtain ⟨rfl, hl⟩ := hl
    have hpay := (h t List.mem_cons_self).limited hs
    have hrest := ih hl (fun t' ht' => h t' (List.mem_cons_of_mem _ ht')) (by omega)
    rw [spent_cons]
    omega

/-- An unlimited reserve stays so. -/
theorem reserve_unlimited (hl : Leads s ts s') (h : ∀ t ∈ ts, Pays reserve top cost t)
    (hs : reserve s = top) : ∀ t ∈ ts, reserve t.after = top := by
  induction ts generalizing s with
  | nil =>
    intro t ht
    cases ht
  | cons t ts ih =>
    obtain ⟨rfl, hl⟩ := hl
    have hafter := (h t List.mem_cons_self).unlimited hs
    intro t' ht'
    rcases List.mem_cons.mp ht' with rfl | ht'
    · exact hafter
    · exact ih hl (fun t' ht' => h t' (List.mem_cons_of_mem _ ht')) hafter t' ht'

end Reserves

/-! ### Counters -/

/-- A counter that the steps of one kind advance counts them. -/
theorem counter_eq {counter : σ → Nat} {p : Transition σ μ → Bool} (hl : Leads s ts s')
    (h : ∀ t ∈ ts, counter t.after = counter t.before + if p t then 1 else 0) :
    counter s' = counter s + ts.countP p := by
  induction ts generalizing s with
  | nil =>
    cases hl
    rfl
  | cons t ts ih =>
    obtain ⟨rfl, hl⟩ := hl
    have hstep := h t List.mem_cons_self
    have hrest := ih hl fun t' ht' => h t' (List.mem_cons_of_mem _ ht')
    rw [List.countP_cons]
    omega

section Stamps

variable {stamp : Transition σ μ → Option β} {counter : β → σ → Nat} {value : β → Nat}

/-- A stamp is the value of its counter, which the step advances; no step turns one back. -/
structure Stamped (stamp : Transition σ μ → Option β) (counter : β → σ → Nat) (value : β → Nat)
    (t : Transition σ μ) : Prop where
  le : ∀ b, counter b t.before ≤ counter b t.after
  fresh : ∀ b, stamp t = some b → value b = counter b t.before ∧ value b < counter b t.after

theorem le_value_of_stamp (hl : Leads s ts s') (h : ∀ t ∈ ts, Stamped stamp counter value t) :
    ∀ t ∈ ts, ∀ b, stamp t = some b → counter b s ≤ value b := by
  induction ts generalizing s with
  | nil =>
    intro t ht
    cases ht
  | cons t ts ih =>
    obtain ⟨rfl, hl⟩ := hl
    have hhead := h t List.mem_cons_self
    intro t' ht' b hb
    rcases List.mem_cons.mp ht' with rfl | ht'
    · exact (hhead.fresh b hb).1.ge
    · have htail := ih hl (fun t' ht' => h t' (List.mem_cons_of_mem _ ht')) t' ht' b hb
      exact (hhead.le b).trans htail

/-- **No stamp is used twice.** -/
theorem nodup_stamps (hl : Leads s ts s') (h : ∀ t ∈ ts, Stamped stamp counter value t) :
    (ts.filterMap stamp).Nodup := by
  induction ts generalizing s with
  | nil => exact List.nodup_nil
  | cons t ts ih =>
    obtain ⟨rfl, hl⟩ := hl
    have hrest : ∀ t' ∈ ts, Stamped stamp counter value t' :=
      fun t' ht' => h t' (List.mem_cons_of_mem _ ht')
    cases hstamp : stamp t with
    | none =>
      rw [List.filterMap_cons_none hstamp]
      exact ih hl hrest
    | some b =>
      rw [List.filterMap_cons_some hstamp]
      refine List.nodup_cons.mpr ⟨?_, ih hl hrest⟩
      intro hmem
      obtain ⟨t', ht', hb⟩ := List.mem_filterMap.mp hmem
      have hle := le_value_of_stamp hl hrest t' ht' b hb
      have hlt := ((h t List.mem_cons_self).fresh b hstamp).2
      omega

end Stamps

end CambrianLang.History
