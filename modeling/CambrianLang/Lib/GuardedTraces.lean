/-
  **Runs of actions that may fail, and filters over them.**

  A trace is run action by action.  A failed action either ends the run or leaves the
  state as it was; a history is kept next to the state and moves on either way.  Each
  action has a precondition on the state and the history it meets.  `screen` tests the
  preconditions on the way and stops at the first failure: it selects the right traces of
  runs that stop there, and of runs that go on it selects too many.
-/
import Mathlib.Data.List.Basic

namespace CambrianLang.GuardedTraces

variable {σ γ α : Type} (call : σ → α → Option σ) (upd : γ → α → γ) (valid : σ → γ → α → Bool)

/-- The state after a trace; `stops` says that a failed action ends the run. -/
def reached (stops : Bool) : σ → List α → Option σ
  | s, [] => some s
  | s, a :: rest =>
      match call s a with
      | some s' => reached stops s' rest
      | none => if stops then none else reached stops s rest

/-- Every action of the trace is valid where the run takes it. -/
def Selected (stops : Bool) (s : σ) (h : γ) (trace : List α) : Prop :=
  ∀ pre a post, trace = pre ++ a :: post →
    ∀ s', reached call stops s pre = some s' → valid s' (pre.foldl upd h) a = true

/-- The tests on the way, up to the first failure. -/
def screen : σ → γ → List α → Bool
  | _, _, [] => true
  | s, h, a :: rest =>
      valid s h a && match call s a with
        | some s' => screen s' (upd h a) rest
        | none => true

/-- One action of a pass that keeps the state, the history and the verdict so far; after a
    failure there is no state. -/
def pass (p : Option σ × γ × Bool) (a : α) : Option σ × γ × Bool :=
  (p.1.bind (call · a), upd p.2.1 a, p.2.2 && (p.1.map (valid · p.2.1 a)).getD true)

/-- After the first failed action, if all are valid up to it, all are valid. -/
def ValidAfterFailure (s : σ) (h : γ) (trace : List α) : Prop :=
  ∀ pre a post, trace = pre ++ a :: post →
    ∀ s', reached call true s pre = some s' → call s' a = none →
      Selected call upd valid true s h (pre ++ [a]) →
        Selected call upd valid false s' (upd (pre.foldl upd h) a) post

variable {call upd valid} {stops : Bool} {s s' : σ} {h : γ} {a : α} {rest trace : List α}

@[simp] theorem reached_nil : reached call stops s [] = some s := rfl

theorem reached_cons_of_ok (hcall : call s a = some s') :
    reached call stops s (a :: rest) = reached call stops s' rest := by
  simp [reached, hcall]

theorem reached_cons_stop (hcall : call s a = none) :
    reached call true s (a :: rest) = none := by
  simp [reached, hcall]

theorem reached_cons_resume (hcall : call s a = none) :
    reached call false s (a :: rest) = reached call false s rest := by
  simp [reached, hcall]

@[simp] theorem selected_nil : Selected call upd valid stops s h [] := by
  intro pre a post heq
  simp at heq

/-- The first action is met in the state and history at hand. -/
theorem selected_cons :
    Selected call upd valid stops s h (a :: rest) ↔ valid s h a = true ∧
      ∀ pre b post, rest = pre ++ b :: post →
        ∀ s', reached call stops s (a :: pre) = some s' →
          valid s' (pre.foldl upd (upd h a)) b = true := by
  constructor
  · intro hsel
    refine ⟨hsel [] a rest rfl s rfl, fun pre b post heq s' hs' => ?_⟩
    apply hsel (a :: pre) b post _ s' hs'
    rw [heq, List.cons_append]
  · rintro ⟨hfirst, hrest⟩ pre b post heq s' hs'
    rcases pre with _ | ⟨c, pre⟩
    · rw [List.nil_append, List.cons.injEq] at heq
      rcases heq with ⟨rfl, -⟩
      cases hs'
      exact hfirst
    · rw [List.cons_append, List.cons.injEq] at heq
      rcases heq with ⟨rfl, heq⟩
      exact hrest pre b post heq s' hs'

theorem selected_cons_of_ok (hcall : call s a = some s') :
    Selected call upd valid stops s h (a :: rest) ↔
      valid s h a = true ∧ Selected call upd valid stops s' (upd h a) rest := by
  rw [selected_cons]
  simp only [reached_cons_of_ok hcall]
  rfl

theorem selected_cons_stop (hcall : call s a = none) :
    Selected call upd valid true s h (a :: rest) ↔ valid s h a = true := by
  rw [selected_cons]
  simp only [reached_cons_stop hcall]
  simp

theorem selected_cons_resume (hcall : call s a = none) :
    Selected call upd valid false s h (a :: rest) ↔
      valid s h a = true ∧ Selected call upd valid false s (upd h a) rest := by
  rw [selected_cons]
  simp only [reached_cons_resume hcall]
  rfl

theorem foldl_pass_none {ok : Bool} : (trace.foldl (pass call upd valid) (none, h, ok)).2.2 = ok := by
  induction trace generalizing h with
  | nil => rfl
  | cons a rest ih => simpa [pass] using ih

/-- The filter as one pass. -/
theorem foldl_pass_some {ok : Bool} :
    (trace.foldl (pass call upd valid) (some s, h, ok)).2.2 =
      (ok && screen call upd valid s h trace) := by
  induction trace generalizing s h ok with
  | nil => simp [screen]
  | cons a rest ih =>
    rw [List.foldl_cons, screen, pass]
    cases hcall : call s a with
    | none => simp [hcall, foldl_pass_none]
    | some s' => simp [hcall, ih, Bool.and_assoc]

/-- The filter as one pass over other states that stand for those of the pass. -/
theorem foldl_eq_screen {β : Type} {f : β → α → β} (see : β → Option σ × γ × Bool)
    (hstep : ∀ b a, pass call upd valid (see b) a = see (f b a)) {b : β}
    (hb : see b = (some s, h, true)) :
    (see (trace.foldl f b)).2.2 = screen call upd valid s h trace := by
  rw [← List.foldl_hom see hstep, hb, foldl_pass_some, Bool.true_and]

/-- **Stopping runs.**  The filter selects what it should. -/
theorem screen_iff : screen call upd valid s h trace = true ↔ Selected call upd valid true s h trace := by
  induction trace generalizing s h with
  | nil => simp [screen]
  | cons a rest ih =>
    rw [screen, Bool.and_eq_true]
    cases hcall : call s a with
    | none => rw [selected_cons_stop hcall]; simp
    | some s' => rw [selected_cons_of_ok hcall, ih]

theorem validAfterFailure_nil : ValidAfterFailure call upd valid s h [] := by
  intro pre a post heq
  simp at heq

theorem validAfterFailure_cons_of_ok (hcall : call s a = some s') (hfirst : valid s h a = true) :
    ValidAfterFailure call upd valid s h (a :: rest) ↔
      ValidAfterFailure call upd valid s' (upd h a) rest := by
  constructor
  · intro hafter pre b post heq s'' hs'' hfail hsel
    refine hafter (a :: pre) b post (by rw [heq, List.cons_append]) s'' ?_ hfail ?_
    · rw [reached_cons_of_ok hcall, hs'']
    · exact (selected_cons_of_ok hcall).mpr ⟨hfirst, hsel⟩
  · intro hafter pre b post heq s'' hs'' hfail hsel
    rcases pre with _ | ⟨c, pre⟩
    · rw [List.nil_append, List.cons.injEq] at heq
      rcases heq with ⟨rfl, -⟩
      cases hs''
      rw [hcall] at hfail
      cases hfail
    · rw [List.cons_append, List.cons.injEq] at heq
      rcases heq with ⟨rfl, heq⟩
      rw [reached_cons_of_ok hcall] at hs''
      exact hafter pre b post heq s'' hs'' hfail ((selected_cons_of_ok hcall).mp hsel).2

theorem validAfterFailure_cons_of_fail (hcall : call s a = none) (hfirst : valid s h a = true) :
    ValidAfterFailure call upd valid s h (a :: rest) ↔
      Selected call upd valid false s (upd h a) rest := by
  constructor
  · intro hafter
    exact hafter [] a rest rfl s rfl hcall ((selected_cons_stop hcall).mpr hfirst)
  · intro hrest pre b post heq s'' hs'' hfail _
    rcases pre with _ | ⟨c, pre⟩
    · rw [List.nil_append, List.cons.injEq] at heq
      rcases heq with ⟨rfl, rfl⟩
      cases hs''
      exact hrest
    · rw [List.cons_append, List.cons.injEq] at heq
      rcases heq with ⟨rfl, -⟩
      rw [reached_cons_stop hcall] at hs''
      cases hs''

/-- **Runs that go on.**  There the filter is right exactly when nothing invalid comes after
    the first failure. -/
theorem screen_exact_iff :
    (screen call upd valid s h trace = true ↔ Selected call upd valid false s h trace) ↔
      ValidAfterFailure call upd valid s h trace := by
  rw [screen_iff]
  induction trace generalizing s h with
  | nil =>
    refine iff_of_true ?_ validAfterFailure_nil
    exact iff_of_true selected_nil selected_nil
  | cons a rest ih =>
    cases hfirst : valid s h a with
    | false =>
      have hnot : ∀ stops, ¬ Selected call upd valid stops s h (a :: rest) := by
        intro stops hsel
        rw [(selected_cons.mp hsel).1] at hfirst
        cases hfirst
      refine iff_of_true (iff_of_false (hnot true) (hnot false)) ?_
      intro pre b post heq s' _ _ hsel
      -- the first action is in every such prefix
      have hvalid : valid s h a = true := by
        rcases pre with _ | ⟨c, pre⟩
        · rw [List.nil_append, List.cons.injEq] at heq
          rcases heq with ⟨rfl, -⟩
          exact (selected_cons.mp hsel).1
        · rw [List.cons_append, List.cons.injEq] at heq
          rcases heq with ⟨rfl, -⟩
          rw [List.cons_append] at hsel
          exact (selected_cons.mp hsel).1
      rw [hvalid] at hfirst
      cases hfirst
    | true =>
      cases hcall : call s a with
      | none =>
        rw [selected_cons_stop hcall, selected_cons_resume hcall,
          validAfterFailure_cons_of_fail hcall hfirst, hfirst]
        simp
      | some s' =>
        rw [selected_cons_of_ok hcall, selected_cons_of_ok hcall,
          validAfterFailure_cons_of_ok hcall hfirst, hfirst, ← ih]
        simp

end CambrianLang.GuardedTraces
