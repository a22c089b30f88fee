/-
  **Programs that hand control out in the middle of a call.**

  A call asks a foreign party for one effect, and that party may act before and
  after the effect: move something of its own, or call the program again.  A
  `Script` is what a foreign party does, and `exec` runs it over a program that
  takes its pieces as state transformers; a call that reverts leaves no trace.

  The rule for such programs (`exec_of_frame`) relates two states under a mode
  that records which calls are in progress: the relation must be kept by a call
  whose pieces keep it, each in the mode that the call puts it in.  What it
  gives for a whole script holds over every outermost call (`spans_of_frame`).
-/
import CambrianLang.Lib.Trapping

namespace CambrianLang.NestedCalls

open Trapping

/-- What a foreign party does: moves of its own, and calls, each with what is done
    inside it before and after its effect. -/
inductive Script (κ γ : Type)
  | done
  | move (g : γ) (rest : Script κ γ)
  | call (k : κ) (inside after : Script κ γ) (rest : Script κ γ)

variable {κ γ σ : Type} (move : γ → σ → σ) (call : κ → (σ → σ) → (σ → σ) → σ → Exec σ)

def exec : Script κ γ → σ → σ
  | .done, s => s
  | .move g rest, s => exec rest (move g s)
  | .call k inside after rest, s =>
    exec rest (step (fun s k => call k (exec inside) (exec after) s) s k)

/-- The states before and after each outermost call. -/
def spans : Script κ γ → σ → List (σ × σ)
  | .done, _ => []
  | .move g rest, s => spans rest (move g s)
  | .call k inside after rest, s =>
    let s' := step (fun s k => call k (exec move call inside) (exec move call after) s) s k
    (s, s') :: spans rest s'

/-! ### Modes -/

section Frames

variable {μ : Type} (enter : μ → κ → Option (μ × μ))

/-- Every call of a script is one that the mode admits there; `enter` gives the modes of
    what is done inside it. -/
def Allowed : μ → Script κ γ → Prop
  | _, .done => True
  | m, .move _ rest => Allowed m rest
  | m, .call k inside after rest =>
    (∃ m₁ m₂, enter m k = some (m₁, m₂) ∧ Allowed m₁ inside ∧ Allowed m₂ after) ∧
      Allowed m rest

/-- A relation that moves keep, and calls keep when what is done inside them does. -/
structure Frame (R : μ → σ → σ → Prop) : Prop where
  refl : ∀ m s, R m s s
  trans : ∀ m s₁ s₂ s₃, R m s₁ s₂ → R m s₂ s₃ → R m s₁ s₃
  move : ∀ m g s, R m s (move g s)
  call : ∀ m k m₁ m₂ inside after s s', enter m k = some (m₁, m₂) →
    (∀ s, R m₁ s (inside s)) → (∀ s, R m₂ s (after s)) → call k inside after s = .ok s' → R m s s'

variable {move call enter} {R : μ → σ → σ → Prop}

/-- A call keeps the relation, also when it reverts. -/
theorem Frame.step (F : Frame move call enter R) {m m₁ m₂ : μ} {k : κ} {inside after : σ → σ}
    (hk : enter m k = some (m₁, m₂)) (hi : ∀ s, R m₁ s (inside s)) (ha : ∀ s, R m₂ s (after s))
    (s : σ) : R m s (Trapping.step (fun s k => call k inside after s) s k) := by
  rcases step_cases (fun s k => call k inside after s) s k with hok | hsame
  · exact F.call m k m₁ m₂ inside after s _ hk hi ha hok
  · rw [hsame]
    exact F.refl m s

/-- **The rule of nested calls.** -/
theorem exec_of_frame (F : Frame move call enter R) {m : μ} {e : Script κ γ}
    (ha : Allowed enter m e) (s : σ) : R m s (exec move call e s) := by
  induction e generalizing m s with
  | done => exact F.refl m s
  | move g rest ih => exact F.trans m _ _ _ (F.move m g s) (ih ha _)
  | call k inside after rest ihi iha ih =>
    obtain ⟨⟨m₁, m₂, hk, hi, haf⟩, hrest⟩ := ha
    have hstep := F.step hk (ihi hi) (iha haf) s
    exact F.trans m _ _ _ hstep (ih hrest _)

theorem spans_of_frame (F : Frame move call enter R) {m : μ} {e : Script κ γ}
    (ha : Allowed enter m e) (s : σ) : ∀ p ∈ spans move call e s, R m p.1 p.2 := by
  induction e generalizing s with
  | done =>
    intro p hp
    cases hp
  | move g rest ih => exact ih ha _
  | call k inside after rest ihi iha ih =>
    obtain ⟨⟨m₁, m₂, hk, hi, haf⟩, hrest⟩ := ha
    intro p hp
    rcases List.mem_cons.mp hp with rfl | hp
    · exact F.step hk (exec_of_frame F hi) (exec_of_frame F haf) s
    · exact ih hrest _ p hp

/-- What holds along the relation from the start holds before and after every outermost call. -/
theorem spans_reached (F : Frame move call enter R) {m : μ} {e : Script κ γ}
    (ha : Allowed enter m e) (s : σ) : ∀ p ∈ spans move call e s, R m s p.1 := by
  induction e generalizing s with
  | done =>
    intro p hp
    cases hp
  | move g rest ih =>
    intro p hp
    exact F.trans m _ _ _ (F.move m g s) (ih ha _ p hp)
  | call k inside after rest ihi iha ih =>
    obtain ⟨⟨m₁, m₂, hk, hi, haf⟩, hrest⟩ := ha
    intro p hp
    rcases List.mem_cons.mp hp with rfl | hp
    · exact F.refl m s
    · exact F.trans m _ _ _ (F.step hk (exec_of_frame F hi) (exec_of_frame F haf) s)
        (ih hrest _ p hp)

end Frames

end CambrianLang.NestedCalls
