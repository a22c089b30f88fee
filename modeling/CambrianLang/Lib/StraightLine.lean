/-
  **Straight-line code with checks.**

  A program is a list of lines and a line may fail.  A check passes or fails without
  changing the state, so what a block of checks in front of the code has admitted
  holds in the state the code starts from.
-/
import Mathlib.Data.List.Basic

namespace CambrianLang.StraightLine

variable {L S : Type} (step : L → S → Option S)

def exec (code : List L) (s : S) : Option S := code.foldlM (fun s l => step l s) s

@[simp] theorem exec_nil (s : S) : exec step [] s = some s := rfl

theorem exec_cons (l : L) (code : List L) (s : S) :
    exec step (l :: code) s = (step l s).bind (exec step code) := rfl

theorem exec_append (xs ys : List L) (s : S) :
    exec step (xs ++ ys) s = (exec step xs s).bind (exec step ys) := by
  rw [exec, List.foldlM_append]
  rfl

theorem exec_append_eq_some {xs ys : List L} {s m : S} :
    exec step (xs ++ ys) s = some m ↔ ∃ k, exec step xs s = some k ∧ exec step ys k = some m := by
  rw [exec_append, Option.bind_eq_some_iff]

/-- A line that only passes or fails. -/
def IsCheck (l : L) : Prop := ∀ s m, step l s = some m → m = s

variable {step}

/-- A block of checks that is passed has passed every one of them in the same state. -/
theorem exec_checks {gs : List L} (hgs : ∀ l ∈ gs, IsCheck step l) {s m : S}
    (h : exec step gs s = some m) : m = s ∧ ∀ l ∈ gs, step l s = some s := by
  induction gs with
  | nil =>
    cases h
    exact ⟨rfl, fun l hl => absurd hl List.not_mem_nil⟩
  | cons g gs ih =>
    rw [exec_cons, Option.bind_eq_some_iff] at h
    obtain ⟨k, hk, hrest⟩ := h
    have hks : k = s := hgs g List.mem_cons_self s k hk
    subst hks
    obtain ⟨hm, hall⟩ := ih (fun l hl => hgs l (List.mem_cons_of_mem _ hl)) hrest
    refine ⟨hm, ?_⟩
    intro l hl
    rcases List.mem_cons.mp hl with rfl | hl
    · exact hk
    · exact hall l hl

/-- Code all of whose lines leave the state alone runs through. -/
theorem exec_of_steps {code : List L} {s : S} (h : ∀ l ∈ code, step l s = some s) :
    exec step code s = some s := by
  induction code with
  | nil => rfl
  | cons l code ih =>
    rw [exec_cons, h l List.mem_cons_self, Option.bind_some]
    exact ih fun l hl => h l (List.mem_cons_of_mem _ hl)

/-- Code runs through if every line keeps what lets the next one run. -/
theorem exec_total {P : S → Prop} {code : List L}
    (h : ∀ l ∈ code, ∀ s, P s → ∃ k, step l s = some k ∧ P k) : ∀ {s}, P s →
      ∃ m, exec step code s = some m ∧ P m := by
  induction code with
  | nil => exact fun hs => ⟨_, rfl, hs⟩
  | cons l code ih =>
    intro s hs
    obtain ⟨k, hk, hPk⟩ := h l List.mem_cons_self s hs
    obtain ⟨m, hm, hPm⟩ := ih (fun x hx => h x (List.mem_cons_of_mem _ hx)) hPk
    exact ⟨m, by rw [exec_cons, hk, Option.bind_some, hm], hPm⟩

/-- Code made up of blocks runs through if every block keeps what lets the next one run. -/
theorem exec_flatMap_total {B : Type} {P : S → Prop} {f : B → List L} {bs : List B}
    (h : ∀ b ∈ bs, ∀ s, P s → ∃ k, exec step (f b) s = some k ∧ P k) : ∀ {s}, P s →
      ∃ m, exec step (bs.flatMap f) s = some m ∧ P m := by
  induction bs with
  | nil => exact fun hs => ⟨_, rfl, hs⟩
  | cons b bs ih =>
    intro s hs
    obtain ⟨k, hk, hPk⟩ := h b List.mem_cons_self s hs
    obtain ⟨m, hm, hPm⟩ := ih (fun x hx => h x (List.mem_cons_of_mem _ hx)) hPk
    exact ⟨m, (exec_append_eq_some step).mpr ⟨k, hk, hm⟩, hPm⟩

/-- What every line keeps, code that runs through keeps. -/
theorem exec_keeps {P : S → Prop} {code : List L}
    (h : ∀ l ∈ code, ∀ s k, P s → step l s = some k → P k) : ∀ {s m}, P s →
      exec step code s = some m → P m := by
  induction code with
  | nil =>
    intro s m hs hm
    cases hm
    exact hs
  | cons l code ih =>
    intro s m hs hm
    rw [exec_cons, Option.bind_eq_some_iff] at hm
    obtain ⟨k, hk, hrest⟩ := hm
    exact ih (fun x hx => h x (List.mem_cons_of_mem _ hx)) (h l List.mem_cons_self s k hs hk) hrest

/-- Code fails if what makes a line of it fail holds until that line. -/
theorem exec_fails {P : S → Prop} {before after : List L} {l : L}
    (h : ∀ x ∈ before, ∀ s k, P s → step x s = some k → P k) (hl : ∀ s, P s → step l s = none) :
    ∀ {s}, P s → exec step (before ++ l :: after) s = none := by
  induction before with
  | nil =>
    intro s hs
    rw [List.nil_append, exec_cons, hl s hs, Option.bind_none]
  | cons x before ih =>
    intro s hs
    rw [List.cons_append, exec_cons]
    cases hk : step x s with
    | none => rfl
    | some k =>
      exact ih (fun y hy => h y (List.mem_cons_of_mem _ hy)) (h x List.mem_cons_self s k hs hk)

/-- Code fails if a line brings about what makes a later one fail. -/
theorem exec_fails_behind {P Q : S → Prop} {before mid after : List L} {x l : L}
    (hP : ∀ y ∈ before, ∀ s k, P s → step y s = some k → P k)
    (hx : ∀ s k, P s → step x s = some k → Q k)
    (hQ : ∀ y ∈ mid, ∀ s k, Q s → step y s = some k → Q k) (hl : ∀ s, Q s → step l s = none)
    {s : S} (hs : P s) : exec step (before ++ x :: (mid ++ l :: after)) s = none := by
  rw [exec_append]
  cases hk : exec step before s with
  | none => rfl
  | some k =>
    rw [Option.bind_some, exec_cons]
    cases hm : step x k with
    | none => rfl
    | some m => exact exec_fails hQ hl (hx k m (exec_keeps hP hs hk) hm)

section Relations

variable {S' : Type} {step' : L → S' → Option S'} {R : S → S' → Prop}

theorem rel_bind {A B : Type} {Q : A → B → Prop} {x : Option S} {y : Option S'} {f : S → Option A}
    {g : S' → Option B} (hxy : Option.Rel R x y)
    (h : ∀ a b, x = some a → y = some b → R a b → Option.Rel Q (f a) (g b)) :
    Option.Rel Q (x.bind f) (y.bind g) := by
  cases hxy with
  | none => exact .none
  | some hab => exact h _ _ rfl rfl hab

theorem rel_mono {Q : S → S' → Prop} (h : ∀ a b, R a b → Q a b) {x : Option S} {y : Option S'}
    (hxy : Option.Rel R x y) : Option.Rel Q x y := by
  cases hxy with
  | none => exact .none
  | some hab => exact .some (h _ _ hab)

/-- Two readings of the same code stay related if every line keeps them so. -/
theorem exec_rel {code : List L}
    (h : ∀ l ∈ code, ∀ s t, R s t → Option.Rel R (step l s) (step' l t)) : ∀ {s t}, R s t →
      Option.Rel R (exec step code s) (exec step' code t) := by
  induction code with
  | nil => exact fun hst => .some hst
  | cons l code ih =>
    intro s t hst
    rw [exec_cons, exec_cons]
    apply rel_bind (h l List.mem_cons_self s t hst)
    intro a b _ _ hab
    exact ih (fun x hx => h x (List.mem_cons_of_mem _ hx)) hab

end Relations

/-- A line that does not stand in a block stands behind it. -/
theorem split_behind {gs rest before after : List L} {l : L}
    (h : gs ++ rest = before ++ l :: after) (hl : l ∉ gs) :
    ∃ mid, before = gs ++ mid ∧ rest = mid ++ l :: after := by
  rcases List.append_eq_append_iff.mp h with ⟨mid, hbefore, hrest⟩ | ⟨mid, hgs, hafter⟩
  · exact ⟨mid, hbefore, hrest⟩
  · cases mid with
    | nil => exact ⟨[], by rw [hgs, List.append_nil, List.append_nil], hafter.symm⟩
    | cons x mid =>
      rw [List.cons_append, List.cons.injEq] at hafter
      exact absurd (hgs ▸ hafter.1 ▸ List.mem_append_right _ List.mem_cons_self) hl

/-- A line that does not stand behind a block stands in it. -/
theorem split_before {gs rest before after : List L} {l : L}
    (h : gs ++ rest = before ++ l :: after) (hl : l ∉ rest) :
    ∃ mid, gs = before ++ l :: mid ∧ after = mid ++ rest := by
  rcases List.append_eq_append_iff.mp h with ⟨mid, -, hrest⟩ | ⟨mid, hgs, hafter⟩
  · exact absurd (hrest ▸ List.mem_append_right _ List.mem_cons_self) hl
  · cases mid with
    | nil => exact absurd (show l ∈ rest by
        rw [List.nil_append] at hafter; exact hafter ▸ List.mem_cons_self) hl
    | cons x mid =>
      rw [List.cons_append, List.cons.injEq] at hafter
      exact ⟨mid, by rw [hgs, hafter.1], hafter.2⟩

end CambrianLang.StraightLine
