/-
  **Straight-line code whose checks say why they fail.**

  Running a line either reports a failure, stops, or leads to the next state.  A check
  leaves the state alone, so a block of checks reports what the first failing one
  reports, and moving some of them to the front changes the report exactly where an
  element that fails is overtaken by one that fails differently.
-/
import CambrianLang.Lib.StraightLine

namespace CambrianLang.FirstFailure

open StraightLine

variable {L S E : Type} (fails : L → S → Option E) (next : L → S → Option S)

/-- What the first failing line of the code reports. -/
def firstFailure : List L → S → Option E
  | [], _ => none
  | l :: code, s => (fails l s).or ((next l s).bind (firstFailure code))

/-- A line that does not fail. -/
def passing (l : L) (s : S) : Option S := if (fails l s).isSome then none else next l s

@[simp] theorem firstFailure_nil (s : S) : firstFailure fails next [] s = none := rfl

theorem firstFailure_cons (l : L) (code : List L) (s : S) :
    firstFailure fails next (l :: code) s =
      (fails l s).or ((next l s).bind (firstFailure fails next code)) := rfl

variable {fails next}

theorem passing_eq_some {l : L} {s m : S} :
    passing fails next l s = some m ↔ fails l s = none ∧ next l s = some m := by
  unfold passing
  cases fails l s with
  | none => simp
  | some e => simp

/-- Code behind lines that all pass reports what it reports where they lead. -/
theorem firstFailure_append {before code : List L} : ∀ {s m : S},
    exec (passing fails next) before s = some m →
      firstFailure fails next (before ++ code) s = firstFailure fails next code m := by
  induction before with
  | nil =>
    intro s m h
    cases h
    rfl
  | cons l before ih =>
    intro s m h
    rw [exec_cons, Option.bind_eq_some_iff] at h
    obtain ⟨k, hk, hrest⟩ := h
    obtain ⟨hpass, hnext⟩ := passing_eq_some.mp hk
    rw [List.cons_append, firstFailure_cons, hpass, hnext, Option.none_or, Option.bind_some, ih hrest]

/-- A line that fails behind lines that all pass. -/
theorem firstFailure_reached {before after : List L} {l : L} {s m : S} {e : E}
    (h : exec (passing fails next) before s = some m) (hl : fails l m = some e) :
    firstFailure fails next (before ++ l :: after) s = some e := by
  rw [firstFailure_append h, firstFailure_cons, hl, Option.some_or]

/-- Lines that leave the state alone report what the first failing one reports. -/
theorem firstFailure_checks {gs code : List L} {s : S} (hgs : ∀ g ∈ gs, next g s = some s) :
    firstFailure fails next (gs ++ code) s =
      (gs.findSome? (fails · s)).or (firstFailure fails next code s) := by
  induction gs with
  | nil => rw [List.nil_append, List.findSome?_nil, Option.none_or]
  | cons g gs ih =>
    rw [List.cons_append, firstFailure_cons, hgs g List.mem_cons_self, Option.bind_some,
      ih fun x hx => hgs x (List.mem_cons_of_mem _ hx), List.findSome?_cons]
    cases fails g s with
    | none => rfl
    | some e => rfl

theorem firstFailure_tail {code code' : List L}
    (h : ∀ s, firstFailure fails next code s = firstFailure fails next code' s) (xs : List L) :
    ∀ s, firstFailure fails next (xs ++ code) s = firstFailure fails next (xs ++ code') s := by
  induction xs with
  | nil => exact h
  | cons x xs ih =>
    intro s
    rw [List.cons_append, List.cons_append, firstFailure_cons, firstFailure_cons, funext ih]

/-- Code reports nothing if what makes its lines pass is kept. -/
theorem firstFailure_keeps {P : S → Prop} {code : List L}
    (hpass : ∀ l ∈ code, ∀ s, P s → fails l s = none)
    (hkeep : ∀ l ∈ code, ∀ s m, P s → next l s = some m → P m) : ∀ {s : S}, P s →
      firstFailure fails next code s = none := by
  induction code with
  | nil => exact fun _ => rfl
  | cons l code ih =>
    intro s hs
    rw [firstFailure_cons, hpass l List.mem_cons_self s hs, Option.none_or]
    cases hnext : next l s with
    | none => rfl
    | some m =>
      exact ih (fun x hx => hpass x (List.mem_cons_of_mem _ hx))
        (fun x hx => hkeep x (List.mem_cons_of_mem _ hx)) (hkeep l List.mem_cons_self s m hs hnext)

/-- Code no line of which can fail reports nothing. -/
theorem firstFailure_quiet {code : List L} (h : ∀ l ∈ code, ∀ s, fails l s = none) (s : S) :
    firstFailure fails next code s = none :=
  firstFailure_keeps (P := fun _ => True) (fun l hl s _ => h l hl s) (fun _ _ _ _ _ _ => trivial)
    trivial

/-- Code that does not stop reports something if a line of it fails in every state it can
    be reached in. -/
theorem firstFailure_of_mem {P : S → Prop} {code : List L}
    (hnext : ∀ l ∈ code, ∀ s, P s → ∃ m, next l s = some m ∧ P m) {l : L} (hl : l ∈ code)
    (hfails : ∀ s, P s → fails l s ≠ none) : ∀ {s : S}, P s → firstFailure fails next code s ≠ none := by
  induction code with
  | nil => exact absurd hl List.not_mem_nil
  | cons x code ih =>
    intro s hs
    rw [firstFailure_cons]
    cases hx : fails x s with
    | some e => exact Option.some_ne_none e
    | none =>
      rw [Option.none_or]
      obtain ⟨m, hm, hPm⟩ := hnext x List.mem_cons_self s hs
      rw [hm, Option.bind_some]
      rcases List.mem_cons.mp hl with rfl | hl
      · exact absurd hx (hfails s hs)
      · exact ih (fun y hy => hnext y (List.mem_cons_of_mem _ hy)) hl hPm

/-- Code that reports something wherever it starts does so behind lines that do not stop. -/
theorem firstFailure_behind {before code : List L}
    (hnext : ∀ l ∈ before, ∀ s, ∃ m, next l s = some m)
    (h : ∀ s, firstFailure fails next code s ≠ none) :
    ∀ s, firstFailure fails next (before ++ code) s ≠ none := by
  induction before with
  | nil => exact h
  | cons x before ih =>
    intro s
    rw [List.cons_append, firstFailure_cons]
    cases hx : fails x s with
    | some e => exact Option.some_ne_none e
    | none =>
      obtain ⟨m, hm⟩ := hnext x List.mem_cons_self s
      rw [Option.none_or, hm, Option.bind_some]
      exact ih (fun y hy => hnext y (List.mem_cons_of_mem _ hy)) m

/-! ### Moving checks to the front -/

section Reordering

variable {A : Type} {f : A → Option E} {front : A → Bool}

/-- Elements that repeat earlier ones do not change the first report. -/
theorem findSome?_again {xs again : List A} (h : ∀ x ∈ again, x ∈ xs) :
    (xs ++ again).findSome? f = xs.findSome? f := by
  rw [List.findSome?_append]
  cases hxs : xs.findSome? f with
  | some e => rfl
  | none =>
    rw [Option.none_or, List.findSome?_eq_none_iff]
    exact fun x hx => List.findSome?_eq_none_iff.mp hxs x (h x hx)

theorem findSome?_filter_none {xs : List A} {p : A → Bool} (h : ∀ x ∈ xs, f x = none) :
    (xs.filter p).findSome? f = none :=
  List.findSome?_eq_none_iff.mpr fun x hx => h x (List.mem_of_mem_filter hx)

/-- Moving elements to the front keeps the first report if nobody that reports is overtaken
    by the first of them to report something else. -/
theorem findSome?_front {xs : List A}
    (h : ∀ before a mid b after, xs = before ++ a :: (mid ++ b :: after) →
      front a = false → front b = true → (∀ x ∈ before, f x = none) → f a ≠ none →
      (∀ x ∈ mid, front x = true → f x = none) → f b ≠ none → f a = f b) :
    (xs.filter front ++ xs.filter (!front ·)).findSome? f = xs.findSome? f := by
  rw [List.findSome?_append]
  cases hfirst : xs.findSome? f with
  | none =>
    have hall := List.findSome?_eq_none_iff.mp hfirst
    rw [findSome?_filter_none hall, findSome?_filter_none hall]
    rfl
  | some e =>
    obtain ⟨before, a, rest, hxs, ha, hbefore⟩ := List.findSome?_eq_some_iff.mp hfirst
    subst hxs
    rw [List.filter_append, List.filter_append, List.findSome?_append, List.findSome?_append,
      findSome?_filter_none hbefore, findSome?_filter_none hbefore, Option.none_or, Option.none_or]
    cases hfront : front a with
    | true => simp [hfront, ha]
    | false =>
      simp only [List.filter_cons, hfront, Bool.false_eq_true, if_false, Bool.not_false, if_true,
        List.findSome?_cons, ha]
      cases hlater : (rest.filter front).findSome? f with
      | none => rfl
      | some e' =>
        -- the first moved element that reports something
        obtain ⟨mid', b, after', hsplit, hb, hmid⟩ := List.findSome?_eq_some_iff.mp hlater
        obtain ⟨mid, tail, hrest, hmid', htail⟩ := List.filter_eq_append_iff.mp hsplit
        obtain ⟨quiet, after, htailEq, hquiet, hfb, hafter⟩ := List.filter_eq_cons_iff.mp htail
        have hsame : f a = f b := by
          apply h before a (mid ++ quiet) b after
          · rw [hrest, htailEq, List.append_assoc]
          · exact hfront
          · exact hfb
          · exact hbefore
          · rw [ha]
            exact Option.some_ne_none e
          · intro x hx hfx
            rcases List.mem_append.mp hx with hx | hx
            · exact hmid x (hmid' ▸ List.mem_filter.mpr ⟨hx, hfx⟩)
            · exact absurd hfx (hquiet x hx)
          · rw [hb]
            exact Option.some_ne_none e'
        rw [ha, hb] at hsame
        exact hsame.symm

/-- The first element to report something in the moved order. -/
theorem findSome?_front_of_split {before mid after : List A} {a b : A} {e : E}
    (hb : front b = true) (hfb : f b = some e)
    (hquiet : ∀ x ∈ before ++ a :: mid, front x = true → f x = none) :
    ((before ++ a :: (mid ++ b :: after)).filter front ++
      (before ++ a :: (mid ++ b :: after)).filter (!front ·)).findSome? f = some e := by
  have hsplit : before ++ a :: (mid ++ b :: after) = (before ++ a :: mid) ++ b :: after := by
    rw [List.append_assoc, List.cons_append]
  have hnone : ((before ++ a :: mid).filter front).findSome? f = none := by
    apply List.findSome?_eq_none_iff.mpr
    intro x hx
    exact hquiet x (List.mem_of_mem_filter hx) (List.of_mem_filter hx)
  rw [hsplit, List.findSome?_append, List.filter_append, List.findSome?_append, hnone,
    List.filter_cons, if_pos hb, List.findSome?_cons, hfb]
  rfl

end Reordering

end CambrianLang.FirstFailure
