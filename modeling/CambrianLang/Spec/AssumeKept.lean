/-
  **When hoisting for `assume` keeps the meaning of a property.**

  A hoisted step overtakes the steps that stood before it and now stand behind it.  It may do
  so when neither of the two names what the other binds and, where the overtaken step changes
  the machine, when it reads nothing but parameters and bound names.  That this is enough is
  the extraction of `Lib/Reordering.lean`.  That it is needed is shown by meanings in which a
  value says whether what it has read, one name or the machine, is as it should be.
-/
import CambrianLang.Ast.Slots
import CambrianLang.Spec.AssumeOrder

namespace CambrianLang.Spec.Hoist

open Ast Analysis DepthFirst Reordering
  Saturation Worklist Relation

/-! ### What a hoisted step overtakes -/

/-- What validation asks of a body: no name is bound twice, a `let` does not hide a parameter
    (T30), and a range is that of a parameter (T11). -/
structure Accepted (params : List String) (l : List TestStep) : Prop where
  once : (l.flatMap binds).Nodup
  lets : ∀ name ∈ letNames l, name ∉ params
  ranges : ∀ s ∈ l, isBound s = true → ∀ y ∈ binds s, y ∈ params

/-- A `let` that some `assume` mentions, directly or through other `let`s. -/
inductive Needed (walk : Expr → List String) (steps : List TestStep) : String → Prop
  | asked {cond : Expr} {x : String} (hstep : .assume cond ∈ steps) (hx : x ∈ walk cond)
      (hlet : x ∈ letNames steps) : Needed walk steps x
  | through {name : String} {ty : Option Ty} {value : Expr} {x : String}
      (h : Needed walk steps name) (hstep : .letS name ty value ∈ steps) (hx : x ∈ walk value)
      (hlet : x ∈ letNames steps) : Needed walk steps x

def NeededLet (needed : String → Prop) (s : TestStep) : Prop := ∃ b, letOf s = some b ∧ needed b.1

/-- A needed `let` overtakes everything but needed `let`s, and of these the ones that it is put
    ahead of.  An assumption overtakes everything but assumptions, ranges and needed `let`s. -/
def Overtakes (needed : String → Prop) (ahead : TestStep → TestStep → Prop) (s t : TestStep) : Prop :=
  (NeededLet needed t ∧ (NeededLet needed s → ahead t s)) ∨
    (isAssume t = true ∧ isAssume s = false ∧ isBound s = false ∧ ¬ NeededLet needed s)

/-- `t` is independent of `s`, a step before it. -/
structure Movable (views : Expr → Bool) (params : List String) (l : List TestStep) (s t : TestStep) :
    Prop where
  fresh : ∀ y ∈ gives s, ¬ Mentions t y
  unread : ∀ y ∈ binds t, ¬ Mentions s y
  still : changes s = true →
    ¬ StepAsks views t ∧ ∀ y, Mentions t y → y ∈ params ∨ ∃ r, Precedes l r t ∧ y ∈ gives r

/-- **Each hoisted step is independent of what it overtakes.** -/
def Hoistable (views : Expr → Bool) (params : List String) (needed : String → Prop)
    (ahead : TestStep → TestStep → Prop) (l : List TestStep) : Prop :=
  ∀ s t, Precedes l s t → Overtakes needed ahead s t → Movable views params l s t

/-! ### Steps by kind -/

/-- Where the kinds of steps stand: hoisted `let`s, ranges, assumptions, the rest. -/
def place (hoisted : List String) (s : TestStep) : Nat :=
  if isHoisted hoisted s then 0 else if isBound s then 1 else if isAssume s then 2 else 3

/-- The steps with `front` for the hoisted `let`s. -/
def hoistedOrder (front : List TestStep) (hoisted : List String) (l : List TestStep) : List TestStep :=
  front ++ (l.filter isBound ++ (l.filter isAssume ++ l.filter fun s => place hoisted s == 3))

theorem place_spec (hoisted : List String) (s : TestStep) :
    (isHoisted hoisted s = true ↔ place hoisted s = 0) ∧ (isBound s = true ↔ place hoisted s = 1) ∧
      (isAssume s = true ↔ place hoisted s = 2) := by
  cases s with
  | letS name ty value =>
    by_cases hc : name ∈ hoisted <;> simp [place, isHoisted, isBound, isAssume, hc]
  | _ => simp [place, isHoisted, isBound, isAssume]

theorem binds_of_place {hoisted : List String} {s : TestStep} (h : place hoisted s = 0) :
    ∃ name, name ∈ binds s := by
  cases s with
  | letS name ty value => exact ⟨name, List.mem_singleton_self name⟩
  | _ => cases h

theorem isHoisted_iff {hoisted : List String} {s : TestStep} :
    isHoisted hoisted s = true ↔ place hoisted s = 0 := (place_spec hoisted s).1

theorem isBound_iff (hoisted : List String) {s : TestStep} : isBound s = true ↔ place hoisted s = 1 :=
  (place_spec hoisted s).2.1

theorem isAssume_iff (hoisted : List String) {s : TestStep} : isAssume s = true ↔ place hoisted s = 2 :=
  (place_spec hoisted s).2.2

theorem place_le (hoisted : List String) (s : TestStep) : place hoisted s ≤ 3 := by
  rw [place]
  split_ifs <;> decide

theorem place_eq_three (hoisted : List String) (s : TestStep) :
    (place hoisted s == 3) = (!isHoisted hoisted s && !isBound s && !isAssume s) := by
  rw [place]
  cases isHoisted hoisted s <;> cases isBound s <;> cases isAssume s <;> rfl

theorem neededLet_iff {hoisted : List String} {s : TestStep} :
    NeededLet (· ∈ hoisted) s ↔ place hoisted s = 0 := by
  rw [← isHoisted_iff]
  cases s with
  | letS name ty value =>
    rw [isHoisted, List.contains_iff_mem]
    constructor
    · rintro ⟨b, hb, hmem⟩
      cases hb
      exact hmem
    · exact fun hmem => ⟨_, rfl, hmem⟩
  | _ =>
    constructor
    · rintro ⟨b, hb, -⟩
      cases hb
    · exact fun h => nomatch h

theorem overtakes_iff {hoisted : List String} {ahead : TestStep → TestStep → Prop} {s t : TestStep} :
    Overtakes (· ∈ hoisted) ahead s t ↔ (place hoisted t = 0 ∧ (place hoisted s = 0 → ahead t s)) ∨
      (place hoisted t = 2 ∧ place hoisted s = 3) := by
  have hle := place_le hoisted s
  rw [Overtakes, neededLet_iff, neededLet_iff, isAssume_iff hoisted, ← Bool.not_eq_true,
    ← Bool.not_eq_true, isAssume_iff hoisted, isBound_iff hoisted]
  refine or_congr_right (and_congr_right fun _ => ?_)
  omega

/-- A name that a step binds is bound by no step after it. -/
theorem Accepted.binds_apart {params : List String} {l : List TestStep} (h : Accepted params l)
    {s t : TestStep} (hpre : Precedes l s t) {y : String} (hs : y ∈ binds s) : y ∉ binds t := by
  have hdisjoint := (List.nodup_flatMap.mp h.once).2
  exact fun ht => hpre.rel hdisjoint hs ht

/-- A body, and its hoisted `let`s in the order in which they are put. -/
structure Hoisting (params hoisted : List String) (front l : List TestStep) : Prop where
  accepted : Accepted params l
  first : sourceOrder l = l
  perm : front.Perm (l.filter (isHoisted hoisted))
  nodup : front.Nodup

section Places

variable {params hoisted : List String} {front l : List TestStep} (H : Hoisting params hoisted front l)
include H

theorem Hoisting.mem_front {s : TestStep} : s ∈ front ↔ s ∈ l ∧ place hoisted s = 0 := by
  rw [H.perm.mem_iff, List.mem_filter, isHoisted_iff]

/-- Ranges at the front, assumptions anywhere: what is left when the `let`s are taken out. -/
theorem Hoisting.filter_rest : l.filter (fun s => !isHoisted hoisted s) =
    l.filter isBound ++ l.filter fun s => !isHoisted hoisted s && !isBound s := by
  have hsplit : l.filter (fun s => !isHoisted hoisted s) =
      (sourceOrder l).filter fun s => !isHoisted hoisted s := by rw [H.first]
  rw [hsplit, sourceOrder, List.filter_append, List.filter_filter, List.filter_filter]
  congr 1
  refine List.filter_congr fun s _ => ?_
  cases hb : isBound s with
  | true =>
    have hs : isHoisted hoisted s = false := by
      rw [← Bool.not_eq_true, isHoisted_iff, (isBound_iff hoisted).mp hb]
      decide
    rw [hs]
    rfl
  | false => rw [Bool.and_false]

omit H in
theorem rest_assumes : (l.filter fun s => !isHoisted hoisted s && !isBound s).filter isAssume =
    l.filter isAssume := by
  rw [List.filter_filter]
  refine List.filter_congr fun s _ => ?_
  cases s <;> rfl

omit H in
theorem rest_others : (l.filter fun s => !isHoisted hoisted s && !isBound s).filter
    (fun s => !isAssume s) = l.filter fun s => place hoisted s == 3 := by
  rw [List.filter_filter]
  exact List.filter_congr fun s _ => by rw [place_eq_three, Bool.and_comm]

theorem Hoisting.order_perm : (hoistedOrder front hoisted l).Perm l := by
  have hlets : (front ++ l.filter fun s => !isHoisted hoisted s).Perm l :=
    (H.perm.append_right _).trans (List.filter_append_perm _ l)
  have hrest := List.filter_append_perm isAssume
    (l.filter fun s => !isHoisted hoisted s && !isBound s)
  rw [rest_assumes, rest_others] at hrest
  rw [H.filter_rest] at hlets
  exact ((hrest.append_left _).append_left _).trans hlets

/-- The kinds stand one behind the other. -/
theorem Hoisting.order_sorted :
    (hoistedOrder front hoisted l).Pairwise fun s t => place hoisted s ≤ place hoisted t := by
  have hkind : ∀ {k : Nat} {m : List TestStep}, (∀ s ∈ m, place hoisted s = k) →
      m.Pairwise fun s t => place hoisted s ≤ place hoisted t := fun h =>
    List.pairwise_of_forall_mem_list fun s hs t ht => (h s hs).trans (h t ht).symm |>.le
  have hfront : ∀ s ∈ front, place hoisted s = 0 := fun s hs => (H.mem_front.mp hs).2
  have hranges : ∀ s ∈ l.filter isBound, place hoisted s = 1 := fun s hs =>
    (isBound_iff hoisted).mp (List.mem_filter.mp hs).2
  have hassumes : ∀ s ∈ l.filter isAssume, place hoisted s = 2 := fun s hs =>
    (isAssume_iff hoisted).mp (List.mem_filter.mp hs).2
  have hothers : ∀ s ∈ l.filter fun s => place hoisted s == 3, place hoisted s = 3 := fun s hs =>
    eq_of_beq (List.mem_filter.mp hs).2
  refine List.pairwise_append.mpr ⟨hkind hfront, List.pairwise_append.mpr ⟨hkind hranges,
    List.pairwise_append.mpr ⟨hkind hassumes, hkind hothers, ?_⟩, ?_⟩, ?_⟩
  · intro s hs t ht
    rw [hassumes s hs, hothers t ht]
    decide
  · intro s hs t ht
    rw [hranges s hs]
    rcases List.mem_append.mp ht with ht | ht
    · rw [hassumes t ht]
      decide
    · rw [hothers t ht]
      decide
  · intro s hs t _
    rw [hfront s hs]
    exact Nat.zero_le _

/-- The hoisted `let`s stand in the order in which they are put. -/
theorem Hoisting.front_of_order {s t : TestStep} (h : Precedes (hoistedOrder front hoisted l) s t)
    (hs : place hoisted s = 0) (ht : place hoisted t = 0) : Precedes front s t := by
  have hlets := h.filter (p := isHoisted hoisted) (isHoisted_iff.mpr hs) (isHoisted_iff.mpr ht)
  have hfront : front.filter (isHoisted hoisted) = front :=
    List.filter_eq_self.mpr fun s hs => isHoisted_iff.mpr (H.mem_front.mp hs).2
  have hnone : ∀ {p : TestStep → Bool}, (∀ s, p s = true → place hoisted s ≠ 0) →
      (l.filter p).filter (isHoisted hoisted) = [] := fun hp =>
    List.filter_eq_nil_iff.mpr fun s hs hh => hp s (List.mem_filter.mp hs).2 (isHoisted_iff.mp hh)
  rw [hoistedOrder, List.filter_append, List.filter_append, List.filter_append, hfront,
    hnone fun s hs => by rw [(isBound_iff hoisted).mp hs]; decide,
    hnone fun s hs => by rw [(isAssume_iff hoisted).mp hs]; decide,
    hnone fun s hs => by rw [eq_of_beq hs]; decide] at hlets
  simpa using hlets

/-- What stands before a hoisted step in the order is not overtaken by it. -/
theorem Hoisting.not_overtaken {t r : TestStep} {before after : List TestStep}
    (hsplit : hoistedOrder front hoisted l = before ++ r :: after)
    (hr : r = t ∨ (isAssume t = true ∧ isAssume r = true)) :
    ∀ s ∈ before, s ∈ l ∧ ¬ Overtakes (· ∈ hoisted) (Precedes front) s t := by
  intro s hs
  have hpre : Precedes (hoistedOrder front hoisted l) s r := precedes_iff.mpr ⟨before, after, hsplit, hs⟩
  have hle := hpre.rel H.order_sorted
  refine ⟨H.order_perm.mem_iff.mp (hpre.subset List.mem_cons_self), fun hover => ?_⟩
  rw [isAssume_iff hoisted, isAssume_iff hoisted] at hr
  rcases overtakes_iff.mp hover with ⟨ht, hahead⟩ | ⟨ht, hs3⟩
  · obtain rfl : r = t := hr.resolve_right fun h => by omega
    have hs0 : place hoisted s = 0 := by omega
    exact precedes_asymm H.nodup (H.front_of_order hpre hs0 ht) (hahead hs0)
  · have hr2 : place hoisted r = 2 := by
      rcases hr with rfl | hr
      · exact ht
      · exact hr.2
    omega

/-- A hoisted `let` stands before what it overtakes. -/
theorem Hoisting.ahead_of_overtaken {s t r : TestStep} (ht : place hoisted t = 0) (htl : t ∈ l)
    (hover : Overtakes (· ∈ hoisted) (Precedes front) s t) {before after : List TestStep}
    (hsplit : hoistedOrder front hoisted l = before ++ r :: after)
    (hr : r = s ∨ (isAssume s = true ∧ isAssume r = true)) : t ∈ before := by
  have hahead := (overtakes_iff.mp hover).resolve_right fun h => by omega
  rw [isAssume_iff hoisted, isAssume_iff hoisted] at hr
  have hmem : t ∈ before ++ r :: after := hsplit ▸ H.order_perm.mem_iff.mpr htl
  -- a step of the first kind has only such steps before it
  have hown : place hoisted r = 0 → Precedes front t r := by
    intro hr0
    obtain rfl : r = s := hr.resolve_right fun h => by omega
    exact hahead.2 hr0
  rcases List.mem_append.mp hmem with hmem | hmem
  · exact hmem
  · exfalso
    rcases List.mem_cons.mp hmem with rfl | hmem
    · exact precedes_asymm H.nodup (hown ht) (hown ht)
    · obtain ⟨mid, after, rfl⟩ := List.append_of_mem hmem
      have hpre : Precedes (hoistedOrder front hoisted l) r t := by
        refine precedes_iff.mpr ⟨before ++ r :: mid, after, ?_, ?_⟩
        · rw [hsplit, List.append_assoc, List.cons_append]
        · exact List.mem_append_right _ List.mem_cons_self
      have hle := hpre.rel H.order_sorted
      have hr0 : place hoisted r = 0 := by omega
      exact precedes_asymm H.nodup (H.front_of_order hpre hr0 ht) (hown hr0)

end Places

/-! ### Independence is enough -/

section Enough

variable {views : Expr → Bool} {params hoisted : List String} {front l : List TestStep}

/-- The names that are known when a step has been taken out. -/
def learn (known : List String) (s : TestStep) : List String := known ++ gives s

theorem foldl_learn (taken : List TestStep) (known : List String) :
    taken.foldl learn known = known ++ taken.flatMap gives := by
  induction taken generalizing known with
  | nil => exact (List.append_nil _).symm
  | cons s taken ih => rw [List.foldl_cons, ih, learn, List.flatMap_cons, List.append_assoc]

theorem Hoistable.independent {needed : String → Prop} {ahead : TestStep → TestStep → Prop}
    (h : Hoistable views params needed ahead l) (hacc : Accepted params l) {s t : TestStep}
    (hpre : Precedes l s t) (hover : Overtakes needed ahead s t) {taken : List TestStep}
    (htaken : ∀ r y, Precedes l r t → ¬ Overtakes needed ahead r t → y ∈ gives r →
      y ∈ params ∨ r ∈ taken) :
    Independent views (taken.foldl learn params) s t where
  moved := by
    rcases hover with ⟨⟨b, hb, -⟩, -⟩ | ⟨hassume, -⟩
    · exact Or.inl (by rw [hb]; rfl)
    · exact Or.inr hassume
  fresh := (h s t hpre hover).fresh
  unread := fun y hy => ⟨(h s t hpre hover).unread y hy, fun hs => hacc.binds_apart hpre hs hy⟩
  machine := by
    intro hs
    obtain ⟨hasks, hbound⟩ := (h s t hpre hover).still hs
    refine ⟨hasks, fun y hy => ?_⟩
    have hknown : y ∈ params ∨ ∃ r ∈ taken, y ∈ gives r := by
      rcases hbound y hy with hparam | ⟨r, hr, hgives⟩
      · exact Or.inl hparam
      · have hkept := fun hover' => (h r t hr hover').fresh y hgives hy
        exact (htaken r y hr hkept hgives).imp_right fun hmem => ⟨r, hmem, hgives⟩
    rw [foldl_learn, List.mem_append, List.mem_flatMap]
    exact hknown

variable (H : Hoisting params hoisted front l)
  (h : Hoistable views params (· ∈ hoisted) (Precedes front) l)
include H h

theorem extracts_lets :
    Extracts (Independent views) learn params l front (l.filter fun s => !isHoisted hoisted s) := by
  refine extracts_perm front l params H.perm H.nodup fun taken a later hsplit s hpre hs => ?_
  have ha : place hoisted a = 0 :=
    (H.mem_front.mp (hsplit ▸ List.mem_append_right _ List.mem_cons_self)).2
  -- a needed `let` that has not been taken stands behind this one
  have hlater : ∀ r, Precedes l r a → r ∉ taken →
      Overtakes (· ∈ hoisted) (Precedes front) r a := by
    refine fun r hr htaken => overtakes_iff.mpr (Or.inl ⟨ha, fun hr0 => ?_⟩)
    have hmem : r ∈ front := H.mem_front.mpr ⟨hr.subset List.mem_cons_self, hr0⟩
    have hne : r ≠ a := by
      rintro rfl
      obtain ⟨name, hname⟩ := binds_of_place ha
      exact H.accepted.binds_apart hr hname hname
    rw [hsplit] at hmem ⊢
    rcases List.mem_append.mp hmem with hmem | hmem
    · exact absurd hmem htaken
    · obtain ⟨mid, after, rfl⟩ := List.append_of_mem ((List.mem_cons.mp hmem).resolve_left hne)
      refine precedes_iff.mpr ⟨taken ++ a :: mid, after, by simp, ?_⟩
      exact List.mem_append_right _ List.mem_cons_self
  refine h.independent H.accepted hpre (hlater s hpre hs) fun r y hr hover _ => Or.inr ?_
  by_contra htaken
  exact hover (hlater r hr htaken)

theorem extracts_assumes :
    Extracts (Independent views) learn ((front ++ l.filter isBound).foldl learn params)
      (l.filter fun s => !isHoisted hoisted s && !isBound s) (l.filter isAssume)
      (l.filter fun s => place hoisted s == 3) := by
  rw [← @rest_assumes hoisted l, ← rest_others]
  refine extracts_filter fun before a after hsplit ha s hs hkind => ?_
  have hrest : Precedes (l.filter fun s => !isHoisted hoisted s && !isBound s) s a :=
    precedes_iff.mpr ⟨before, after, hsplit, hs⟩
  have ha2 : place hoisted a = 2 := (isAssume_iff hoisted).mp ha
  have hs3 : place hoisted s = 3 := by
    have hmem : s ∈ l.filter fun s => place hoisted s == 3 := by
      rw [← rest_others, List.mem_filter, hkind]
      exact ⟨hrest.subset List.mem_cons_self, rfl⟩
    exact eq_of_beq (List.mem_filter.mp hmem).2
  rw [← List.foldl_append]
  refine h.independent H.accepted (hrest.sublist List.filter_sublist)
    (overtakes_iff.mpr (Or.inr ⟨ha2, hs3⟩)) fun r y hr hover hgives => ?_
  have hrl : r ∈ l := hr.subset List.mem_cons_self
  rw [overtakes_iff, not_or, not_and, not_and] at hover
  have hle := place_le hoisted r
  obtain hr0 | hr1 | hr2 : place hoisted r = 0 ∨ place hoisted r = 1 ∨ place hoisted r = 2 := by
    have hr3 := hover.2 ha2
    omega
  · exact Or.inr (List.mem_append_left _ (List.mem_append_left _ (H.mem_front.mpr ⟨hrl, hr0⟩)))
  · have hrange := (isBound_iff hoisted).mpr hr1
    exact Or.inr (List.mem_append_left _ (List.mem_append_right _ (List.mem_filter.mpr ⟨hrl, hrange⟩)))
  · have hassume := (isAssume_iff hoisted).mpr hr2
    cases r with
    | assume => exact absurd hgives List.not_mem_nil
    | _ => cases hassume

/-- **Independent steps can be hoisted.** -/
theorem keepsMeaning_of_hoistable : KeepsMeaning views params l (hoistedOrder front hoisted l) := by
  have hextracts : Extracts (Independent views) learn params l
      (front ++ (l.filter isBound ++ l.filter isAssume)) (l.filter fun s => place hoisted s == 3) := by
    have hlets := extracts_lets H h
    rw [H.filter_rest] at hlets
    refine hlets.append ((extracts_front _ _ _).append ?_)
    rw [← List.foldl_append]
    exact extracts_assumes H h
  rw [hoistedOrder, ← List.append_assoc (l.filter isBound), ← List.append_assoc front]
  constructor
  · intro V M μ x hx
    have hkept : ∀ (known : List String) (a : TestStep) (x : RunState V M),
        (∀ y ∈ known, x.scope.Has y) → ∀ y ∈ known, (exec μ a x).scope.Has y :=
      fun known a x hknown y hy => exec_has (hknown y hy)
    refine hextracts.run_eq hkept (fun k s a x hknown hindep => exec_comm hknown hindep)
      (fun k a x hknown y hy => ?_) x fun y hy => Or.inl ((hx.1 y).mpr hy)
    exact (List.mem_append.mp hy).elim (hkept k a x hknown y) exec_gives
  · refine hextracts.scoped fun k s a hindep => Set.disjoint_left.mpr fun y hgives hneeds => ?_
    exact hindep.fresh y hgives hneeds.1

end Enough

/-! ### What a run brings about -/

section Runs

variable {views : Expr → Bool} {V M : Type} {μ : Meaning views V M} {x : RunState V M}
  {P : RunState V M → Prop} {y : String}

theorem run_keeps (l : List TestStep) (hkeep : ∀ s ∈ l, ∀ x, P x → P (exec μ s x)) (hx : P x) :
    P (run (exec μ) l x) := by
  induction l generalizing x with
  | nil => exact hx
  | cons s l ih =>
    obtain ⟨hs, hl⟩ := List.forall_mem_cons.mp hkeep
    exact ih hl (hs x hx)

theorem run_reaches {l : List TestStep} {s : TestStep} (hs : s ∈ l) (hdone : ∀ x, P (exec μ s x))
    (hkeep : ∀ r ∈ l, ∀ x, P x → P (exec μ r x)) : P (run (exec μ) l x) := by
  obtain ⟨before, after, rfl⟩ := List.append_of_mem hs
  rw [run_append]
  exact run_keeps after (fun r hr => hkeep r (List.mem_append_right _ (List.mem_cons_of_mem _ hr)))
    (hdone _)

theorem run_values (l : List TestStep) (h : ∀ s ∈ l, y ∉ binds s) :
    (run (exec μ) l x).scope.values y = x.scope.values y :=
  run_keeps (P := fun z => z.scope.values y = x.scope.values y) l
    (fun s hs _ hz => (exec_values (h s hs)).trans hz) rfl

theorem run_deployed (l : List TestStep) (h : ∀ s ∈ l, y ∉ deploys s) :
    (run (exec μ) l x).scope.deployed y = x.scope.deployed y :=
  run_keeps (P := fun z => z.scope.deployed y = x.scope.deployed y) l
    (fun s hs _ hz => (exec_deployed (h s hs)).trans hz) rfl

end Runs

/-! ### Values that say what they have read -/

/-- Whether what a value has read was as asked, and whether it is that of a range. -/
abbrev Reading := Prop × Bool

/-- What is asked of a scope and a machine that an expression reads; the machine is whether
    nothing has changed it. -/
structure Probe (views : Expr → Bool) where
  asked : Expr → Scope Reading → Prop → Prop
  congr : ∀ e sc sc' m, (∀ x, OccursFree x e →
    sc.values x = sc'.values x ∧ sc.deployed x = sc'.deployed x) → asked e sc m = asked e sc' m
  const : ∀ e sc m m', (∀ x, OccursFree x e → sc.Has x) → ¬ Asks views e →
    asked e sc m = asked e sc m'

def Probe.meaning {views : Expr → Bool} (p : Probe views) : Meaning views Reading Prop where
  value e sc m := (p.asked e sc m, false)
  holds := Prod.fst
  narrow _ lo hi _ := (lo.1 ∧ hi.1, true)
  perform s _ _ m := (m ∧ changes s = false, True, false)
  value_congr e sc sc' m h := by rw [p.congr e sc sc' m h]
  value_const e sc m m' hbound hasks := by rw [p.const e sc m m' hbound hasks]
  perform_const _ _ _ _ hs := propext (and_iff_left hs)

/-- Asks something of what one name means. -/
def Probe.name (views : Expr → Bool) (y : String) (fine : Option Reading → Option Reading → Prop) :
    Probe views where
  asked e sc _ := OccursFree y e → fine (sc.values y) (sc.deployed y)
  congr e sc sc' m h := by
    refine propext (forall_congr' fun hy => ?_)
    rw [(h y hy).1, (h y hy).2]
  const _ _ _ _ _ _ := rfl

/-- Asks for the unchanged machine, of what reads the machine. -/
def Probe.machine (views : Expr → Bool) : Probe views where
  asked e sc m := (Asks views e ∨ ∃ y, OccursFree y e ∧ ¬ sc.Has y) → m
  congr e sc sc' m h := by
    have hsame : (∃ y, OccursFree y e ∧ ¬ sc.Has y) ↔ ∃ y, OccursFree y e ∧ ¬ sc'.Has y := by
      refine exists_congr fun y => and_congr_right fun hy => ?_
      rw [Scope.Has, Scope.Has, (h y hy).1, (h y hy).2]
    rw [hsame]
  const e sc m m' hbound hasks := by
    have hno : ¬ (Asks views e ∨ ∃ y, OccursFree y e ∧ ¬ sc.Has y) := by
      rintro (h | ⟨y, hy, hunbound⟩)
      · exact hasks h
      · exact hunbound (hbound y hy)
    exact propext ⟨fun _ h => absurd h hno, fun _ h => absurd h hno⟩

/-- Each parameter has a value that is as asked. -/
def started (params : List String) : RunState Reading Prop where
  scope := ⟨fun y => if y ∈ params then some (True, false) else none, fun _ => none⟩
  machine := True
  admitted := True
  performed := []

theorem started_values (params : List String) (y : String) :
    (started params).scope.values y = if y ∈ params then some (True, false) else none := rfl

theorem starts_started (params : List String) : Starts params (started params) := by
  refine ⟨fun y => ?_, fun _ => rfl⟩
  rw [started_values]
  by_cases hy : y ∈ params <;> simp [hy]

/-- Wherever `t` has been run, what it has read was as asked. -/
structure Shown (t : TestStep) (x : RunState Reading Prop) : Prop where
  bound : ∀ y ∈ binds t, ∀ v, x.scope.values y = some v → v.1
  performed : ∀ q ∈ x.performed, q.1 = t → ∀ v ∈ q.2.2.1, v.1
  admitted : isAssume t = true → x.admitted

section Shown

variable {views : Expr → Bool} {p : Probe views} {x : RunState Reading Prop} {r t : TestStep}

theorem shown_started (params : List String) : Shown t (started params) where
  bound y _ v hv := by
    rw [started_values] at hv
    split at hv
    · cases hv
      trivial
    · cases hv
  performed _ hq := absurd hq List.not_mem_nil
  admitted _ := trivial

theorem Shown.bind (h : Shown t x) {name : String} {v : Reading} (hv : name ∈ binds t → v.1) :
    Shown t (x.bind name v) where
  bound y hy w hw := by
    rw [bind_values] at hw
    split at hw
    · rename_i heq
      cases hw
      exact hv (heq ▸ hy)
    · exact h.bound y hy w hw
  performed := h.performed
  admitted := h.admitted

theorem Shown.act (h : Shown t x) (hr : r = t → ∀ e ∈ r.exprs, (x.val p.meaning e).1) :
    Shown t (x.act p.meaning r) where
  bound := h.bound
  performed q hq heq v hv := by
    rcases List.mem_append.mp hq with hq | hq
    · exact h.performed q hq heq v hv
    · cases List.mem_singleton.mp hq
      obtain ⟨e, he, rfl⟩ := List.mem_map.mp hv
      exact hr heq e he
  admitted := h.admitted

theorem Shown.exec (h : Shown t x) (hbinds : r = t ∨ ∀ y ∈ binds t, y ∉ binds r)
    (hasked : r = t ∨ (isAssume t = true ∧ isAssume r = true) →
      ∀ e ∈ r.exprs, (x.val p.meaning e).1) : Shown t (exec p.meaning r x) := by
  have hown : ∀ y ∈ binds r, y ∈ binds t → ∀ e ∈ r.exprs, (x.val p.meaning e).1 := fun y hr ht =>
    hasked (Or.inl (hbinds.resolve_right fun h => h y ht hr))
  cases r with
  | letS name ty value =>
    exact h.bind fun ht => hown name (List.mem_singleton_self name) ht value List.mem_cons_self
  | bound name lo hi inclusive =>
    refine h.bind fun ht => ?_
    have hends := hown name (List.mem_singleton_self name) ht
    exact ⟨hends lo List.mem_cons_self, hends hi (List.mem_cons_of_mem _ List.mem_cons_self)⟩
  | assume cond =>
    have hcond := fun ht => hasked (Or.inr ⟨ht, rfl⟩) cond List.mem_cons_self
    exact ⟨h.bound, h.performed, fun ht => ⟨h.admitted ht, hcond ht⟩⟩
  | _ => exact h.act fun heq => hasked (Or.inl heq)

theorem Shown.asked (h : Shown t (Hoist.exec p.meaning t x)) : ∀ e ∈ t.exprs, (x.val p.meaning e).1 := by
  cases t with
  | letS name ty value =>
    intro e he
    rw [List.mem_singleton.mp he]
    exact h.bound name (List.mem_singleton_self name) _ ((bind_values name name _).trans (if_pos rfl))
  | bound name lo hi inclusive =>
    obtain ⟨hlo, hhi⟩ :=
      h.bound name (List.mem_singleton_self name) _ ((bind_values name name _).trans (if_pos rfl))
    exact List.forall_mem_cons.mpr ⟨hlo, List.forall_mem_singleton.mpr hhi⟩
  | assume cond => exact List.forall_mem_singleton.mpr (h.admitted rfl).2
  | _ =>
    intro e he
    exact h.performed _ (List.mem_append_right _ (List.mem_singleton_self _)) rfl _ (List.mem_map_of_mem he)

theorem Shown.of_exec (h : Shown t (Hoist.exec p.meaning r x)) (hbinds : ∀ y ∈ binds t, y ∉ binds r) :
    Shown t x where
  bound y hy v hv := h.bound y hy v ((exec_values (hbinds y hy)).trans hv)
  performed q hq := h.performed q (by
    cases r with
    | letS | assume | bound => exact hq
    | _ => exact List.mem_append_left _ hq)
  admitted ht := by
    have hend := h.admitted ht
    cases r with
    | assume => exact hend.1
    | _ => exact hend

theorem run_shown (l : List TestStep) (hx : Shown t x)
    (hbinds : ∀ r ∈ l, r = t ∨ ∀ y ∈ binds t, y ∉ binds r)
    (hasked : ∀ before r after, l = before ++ r :: after →
      r = t ∨ (isAssume t = true ∧ isAssume r = true) →
        ∀ e, ((run (exec p.meaning) before x).val p.meaning e).1) :
    Shown t (run (exec p.meaning) l x) := by
  induction l generalizing x with
  | nil => exact hx
  | cons r l ih =>
    obtain ⟨hr, hl⟩ := List.forall_mem_cons.mp hbinds
    refine ih (hx.exec hr fun hkind e _ => hasked [] r l rfl hkind e) hl ?_
    rintro before s after rfl
    exact hasked (r :: before) s after rfl

theorem shown_of_run (l : List TestStep) (h : Shown t (run (exec p.meaning) l x))
    (hbinds : ∀ r ∈ l, ∀ y ∈ binds t, y ∉ binds r) : Shown t x := by
  induction l generalizing x with
  | nil => exact h
  | cons r l ih =>
    obtain ⟨hr, hl⟩ := List.forall_mem_cons.mp hbinds
    exact (ih h hl).of_exec hr

end Shown

/-! ### Independence is needed -/

section Kept

variable {views : Expr → Bool} {params hoisted : List String} {front l : List TestStep}

theorem Accepted.binder_unique (h : Accepted params l) {r s : TestStep} (hr : r ∈ l) (hs : s ∈ l) :
    r = s ∨ ∀ y ∈ binds s, y ∉ binds r := by
  refine or_iff_not_imp_left.mpr fun hne y hsy hry => ?_
  have : Std.Symm (Function.onFun List.Disjoint binds) := ⟨fun _ _ h => h.symm⟩
  exact (List.nodup_flatMap.mp h.once).2.forall hr hs hne hry hsy

/-- What binds a name gives it another value than it has at the start. -/
theorem Accepted.binds_anew (h : Accepted params l) {s : TestStep} (hs : s ∈ l) {y : String}
    (hy : y ∈ binds s) {p : Probe views} (x : RunState Reading Prop) :
    (exec p.meaning s x).scope.values y ≠ (started params).scope.values y := by
  rw [started_values]
  cases s with
  | letS name ty value =>
    cases List.mem_singleton.mp hy
    rw [exec, bind_values, if_pos rfl, if_neg (h.lets y (List.mem_map.mpr
      ⟨_, List.mem_filterMap.mpr ⟨_, hs, rfl⟩, rfl⟩))]
    intro heq
    cases heq
  | bound name lo hi inclusive =>
    cases List.mem_singleton.mp hy
    rw [exec, bind_values, if_pos rfl, if_pos (h.ranges _ hs rfl y hy)]
    intro heq
    cases (Prod.mk.inj (Option.some.inj heq)).2
  | _ => exact absurd hy List.not_mem_nil

theorem place_of_changes {s : TestStep} (hs : changes s = true) : place hoisted s = 3 := by
  cases s with
  | letS | assume | bound => cases hs
  | _ => rfl

theorem changes_of_deploys {s : TestStep} {y : String} (hy : y ∈ deploys s) : changes s = true := by
  cases s with
  | deployPeer => rfl
  | _ => exact absurd hy List.not_mem_nil

/-- A step that changes state or context is overtaken by all hoisted steps. -/
theorem Overtakes.of_changes {ahead : TestStep → TestStep → Prop} {s r t : TestStep}
    (h : Overtakes (· ∈ hoisted) ahead s t) (hr : changes r = true) :
    Overtakes (· ∈ hoisted) ahead r t := by
  have hr3 : place hoisted r = 3 := place_of_changes hr
  rw [overtakes_iff] at h ⊢
  exact h.imp (fun h => ⟨h.1, fun hr0 => by omega⟩) fun h => ⟨h.1, hr3⟩

theorem Probe.machine_exec (s : TestStep) (x : RunState Reading Prop) :
    (exec (Probe.machine views).meaning s x).machine ↔ x.machine ∧ changes s = false := by
  cases s with
  | letS | assume | bound => exact (and_iff_left rfl).symm
  | _ => exact Iff.rfl

variable (H : Hoisting params hoisted front l)
  (hkeep : KeepsMeaning views params l (hoistedOrder front hoisted l))
include H hkeep

/-- What a step has read was as asked in the source when it was in the order. -/
theorem asked_in_source {p : Probe views} {before after : List TestStep} {t : TestStep}
    (hsplit : l = before ++ t :: after)
    (hasked : ∀ before' r after', hoistedOrder front hoisted l = before' ++ r :: after' →
      r = t ∨ (isAssume t = true ∧ isAssume r = true) →
        ∀ e, ((run (exec p.meaning) before' (started params)).val p.meaning e).1) :
    ∀ e ∈ t.exprs, ((run (exec p.meaning) before (started params)).val p.meaning e).1 := by
  have htl : t ∈ l := hsplit ▸ List.mem_append_right _ List.mem_cons_self
  have hshown := run_shown (hoistedOrder front hoisted l) (shown_started params)
    (fun r hr => H.accepted.binder_unique (H.order_perm.mem_iff.mp hr) htl) hasked
  rw [hkeep.1 _ _ _ _ (starts_started params), hsplit, run_append] at hshown
  refine (shown_of_run after hshown fun r hr y hy => H.accepted.binds_apart ?_ hy).asked
  rw [hsplit]
  exact ((List.singleton_sublist.mpr hr).cons_cons t).trans (List.sublist_append_right _ _)

/-- What is as asked behind steps that are not overtaken is as asked for a hoisted step. -/
theorem asked_moved {p : Probe views} {before after : List TestStep} {t : TestStep}
    (hsplit : l = before ++ t :: after)
    (hasked : ∀ b e, (∀ r ∈ b, r ∈ l ∧ ¬ Overtakes (· ∈ hoisted) (Precedes front) r t) →
      ((run (exec p.meaning) b (started params)).val p.meaning e).1) :
    ∀ e ∈ t.exprs, ((run (exec p.meaning) before (started params)).val p.meaning e).1 :=
  asked_in_source H hkeep hsplit fun b _ _ hs hr e => hasked b e (H.not_overtaken hs hr)

theorem fresh_of_kept {s t : TestStep} (hpre : Precedes l s t)
    (hover : Overtakes (· ∈ hoisted) (Precedes front) s t) : ∀ y ∈ gives s, ¬ Mentions t y := by
  rintro y hy ⟨e, he, hfree⟩
  obtain ⟨before, after, hsplit, hs⟩ := precedes_iff.mp hpre
  have hsl : s ∈ l := hpre.subset List.mem_cons_self
  rcases List.mem_append.mp hy with hbinds | hdeploys
  · -- in the order the name means what it means at the start
    have hvalue := asked_moved H hkeep
      (p := .name views y fun a _ => a = (started params).scope.values y) hsplit
      (fun b e' hb _ => run_values b fun r hr hry =>
        ((H.accepted.binder_unique (hb r hr).1 hsl).elim (fun heq => (hb r hr).2 (heq ▸ hover))
          fun h => h y hbinds hry)) e he hfree
    refine run_reaches (P := fun z => z.scope.values y ≠ (started params).scope.values y) hs
      (H.accepted.binds_anew hsl hbinds) (fun r hr z hz => ?_) hvalue
    by_cases hry : y ∈ binds r
    · exact H.accepted.binds_anew (hsplit ▸ List.mem_append_left _ hr) hry z
    · rwa [exec_values hry]
  · have hvalue := asked_moved H hkeep (p := .name views y fun _ d => d = none) hsplit
      (fun b e' hb _ => run_deployed b fun r hr hry =>
        (hb r hr).2 (hover.of_changes (changes_of_deploys hry))) e he hfree
    refine run_reaches (P := fun z => z.scope.deployed y ≠ none) hs
      (fun z => Option.isSome_iff_ne_none.mp (exec_deploys hdeploys)) (fun r _ z hz => ?_) hvalue
    by_cases hry : y ∈ deploys r
    · exact Option.isSome_iff_ne_none.mp (exec_deploys hry)
    · rwa [exec_deployed hry]

theorem unread_of_kept {s t : TestStep} (hpre : Precedes l s t)
    (hover : Overtakes (· ∈ hoisted) (Precedes front) s t) : ∀ y ∈ binds t, ¬ Mentions s y := by
  rintro y hy ⟨e, he, hfree⟩
  have htl : t ∈ l := hpre.subset (List.mem_cons_of_mem _ List.mem_cons_self)
  have ht : place hoisted t = 0 := by
    refine (overtakes_iff.mp hover).elim And.left fun h => ?_
    cases t with
    | assume => exact absurd hy List.not_mem_nil
    | letS name ty value => cases (isAssume_iff hoisted).mpr h.1
    | _ => cases h.1
  obtain ⟨before, after, hsplit, hs⟩ := precedes_iff.mp hpre
  obtain ⟨before', mid, rfl⟩ := List.append_of_mem hs
  rw [List.append_assoc, List.cons_append] at hsplit
  -- in the order the name is bound wherever `s` can see it
  have hvalue := asked_in_source H hkeep
    (p := .name views y fun a _ => a ≠ (started params).scope.values y) hsplit
    (fun b r a hb hr e' _ => run_reaches
      (P := fun z => z.scope.values y ≠ (started params).scope.values y)
      (H.ahead_of_overtaken ht htl hover hb hr) (H.accepted.binds_anew htl hy)
      fun r' hr' z hz => by
        by_cases hry : y ∈ binds r'
        · refine H.accepted.binds_anew (H.order_perm.mem_iff.mp ?_) hry z
          exact hb ▸ List.mem_append_left _ hr'
        · rwa [exec_values hry]) e he hfree
  refine hvalue (run_values before' fun r hr hry => H.accepted.binds_apart ?_ hry hy)
  refine precedes_iff.mpr ⟨before' ++ s :: mid, after, ?_, List.mem_append_left _ hr⟩
  rw [hsplit, List.append_assoc, List.cons_append]

theorem still_of_kept {s t : TestStep} (hpre : Precedes l s t)
    (hover : Overtakes (· ∈ hoisted) (Precedes front) s t) (hs : changes s = true) :
    ¬ StepAsks views t ∧ ∀ y, Mentions t y → y ∈ params ∨ ∃ r, Precedes l r t ∧ y ∈ gives r := by
  obtain ⟨before, after, hsplit, hmem⟩ := precedes_iff.mp hpre
  have hfine := asked_moved H hkeep (p := .machine views) hsplit fun b e hb _ =>
    run_keeps (P := RunState.machine) b (fun r hr z hz => (Probe.machine_exec r z).mpr ⟨hz, by
      rw [← Bool.not_eq_true]
      exact fun hchanges => (hb r hr).2 (hover.of_changes hchanges)⟩) trivial
  have hchanged : ¬ (run (exec (Probe.machine views).meaning) before (started params)).machine := by
    refine run_reaches (P := fun z => ¬ z.machine) hmem (fun z => ?_) fun r _ z hz => ?_
    · rw [Probe.machine_exec, hs]
      exact fun h => nomatch h.2
    · rw [Probe.machine_exec]
      exact fun h => hz h.1
  have hzero := fun e he hreads => hchanged (hfine e he hreads)
  refine ⟨fun ⟨e, he, hasks⟩ => hzero e he (Or.inl hasks), ?_⟩
  rintro y ⟨e, he, hfree⟩
  by_contra hno
  rw [not_or] at hno
  refine hzero e he (Or.inr ⟨y, hfree, ?_⟩)
  have hgiven : ∀ r ∈ before, y ∉ gives r := fun r hr hry =>
    hno.2 ⟨r, precedes_iff.mpr ⟨before, after, hsplit, hr⟩, hry⟩
  rw [Scope.Has, run_values before fun r hr hry => hgiven r hr (List.mem_append_left _ hry),
    run_deployed before fun r hr hry => hgiven r hr (List.mem_append_right _ hry),
    started_values, if_neg hno.1]
  rintro (h | h) <;> cases h

omit hkeep in
/-- **Hoisting keeps the meaning of a body** exactly when each hoisted step is independent of
    what it overtakes. -/
theorem hoisted_kept_iff : KeepsMeaning views params l (hoistedOrder front hoisted l) ↔
    Hoistable views params (· ∈ hoisted) (Precedes front) l := by
  constructor
  · intro hkeep
    exact fun s t hpre hover => ⟨fresh_of_kept H hkeep hpre hover, unread_of_kept H hkeep hpre hover,
      still_of_kept H hkeep hpre hover⟩
  · exact keepsMeaning_of_hoistable H

end Kept

/-! ### The two passes -/

section Passes

variable {params : List String} {steps : List TestStep}

theorem mem_letBindings {name : String} {ty : Option Ty} {value : Expr} :
    (name, ty, value) ∈ letBindings steps ↔ .letS name ty value ∈ steps := by
  rw [letBindings, List.mem_filterMap]
  constructor
  · rintro ⟨s, hs, hb⟩
    cases s with
    | letS =>
      cases hb
      exact hs
    | _ => cases hb
  · exact fun h => ⟨_, h, rfl⟩

theorem letNames_sublist (steps : List TestStep) : (letNames steps).Sublist (steps.flatMap binds) := by
  induction steps with
  | nil => exact .slnil
  | cons s steps ih =>
    rw [List.flatMap_cons]
    cases s with
    | letS name ty value => exact List.Sublist.cons_cons name ih
    | _ => exact ih.trans (List.sublist_append_right _ _)

theorem Accepted.letNames_nodup (h : Accepted params steps) : (letNames steps).Nodup :=
  h.once.sublist (letNames_sublist steps)

theorem Accepted.hoisted_nodup (h : Accepted params steps) (hoisted : List String) :
    (steps.filter (isHoisted hoisted)).Nodup := by
  have hdisjoint := (List.nodup_flatMap.mp h.once).2.sublist (List.filter_sublist (p := isHoisted hoisted))
  refine hdisjoint.imp_of_mem fun hs _ hapart heq => ?_
  obtain ⟨y, hy⟩ := binds_of_place (isHoisted_iff.mp (List.mem_filter.mp hs).2)
  exact hapart hy (heq ▸ hy)

/-- Each name has the value of its `let`. -/
theorem letMap_eq (h : (letNames steps).Nodup) {b : String × Option Ty × Expr}
    (hb : b ∈ letBindings steps) : letMap steps b.1 = some b.2 := by
  refine lookup_of_once ?_ (List.mem_reverse.mpr hb)
  rw [List.map_reverse, List.nodup_reverse]
  exact h

theorem Needed.isLet {walk : Expr → List String} {x : String} (h : Needed walk steps x) :
    x ∈ letNames steps := by
  cases h with
  | asked _ _ hlet => exact hlet
  | through _ _ _ hlet => exact hlet

/-- `needed` has what the assumptions mention, directly or through other `let`s. -/
theorem neededNames_spec (steps : List TestStep) (walk : Expr → List String)
    (value : String → Option Expr) (hvalue : ∀ b ∈ letBindings steps, value b.1 = some b.2.2) :
    ∃ needed, neededNames walk value steps = some needed ∧
      ∀ x, x ∈ needed ↔ Needed walk steps x := by
  have hdeps : ∀ a, letDeps walk value steps a ⊆ letNames steps := fun a x hx =>
    List.contains_iff_mem.mp (List.mem_filter.mp hx).2
  have hrefs : ∀ x, x ∈ (assumeRefs walk steps).foldl (fun set d => set.insert d) [] ↔
      ∃ cond, .assume cond ∈ steps ∧ x ∈ walk cond ∧ x ∈ letNames steps := by
    intro x
    rw [mem_foldl_insert, or_iff_left List.not_mem_nil, assumeRefs, List.mem_flatMap]
    refine exists_congr fun cond => ?_
    rw [List.mem_filter, List.contains_iff_mem, List.mem_filterMap]
    refine and_congr_left fun _ => ⟨?_, fun h => ⟨_, h, rfl⟩⟩
    rintro ⟨s, hs, hcond⟩
    cases s with
    | assume c =>
      cases hcond
      exact hs
    | _ => cases hcond
  obtain ⟨needed, hrun, -, hmem⟩ := rounds_spec hdeps ((letNames steps).length + 1)
    ((assumeRefs walk steps).foldl (fun set d => set.insert d) []) (nodup_foldl_insert List.nodup_nil)
    (fun x hx => by
      obtain ⟨-, -, -, hlet⟩ := (hrefs x).mp hx
      exact hlet) (by omega)
  refine ⟨needed, hrun, fun x => ?_⟩
  rw [hmem]
  constructor
  · rintro ⟨a, ha, hpath⟩
    induction hpath with
    | refl =>
      obtain ⟨cond, hstep, hx, hlet⟩ := (hrefs a).mp ha
      exact .asked hstep hx hlet
    | @tail name x _ hedge ih =>
      obtain ⟨hx, hlet⟩ := List.mem_filter.mp hedge
      obtain ⟨b, hb, rfl⟩ := List.mem_map.mp ih.isLet
      rw [hvalue b hb] at hx
      exact .through ih (mem_letBindings.mp hb) hx (List.contains_iff_mem.mp hlet)
  · intro h
    induction h with
    | @asked cond x hstep hx hlet => exact ⟨x, (hrefs x).mpr ⟨cond, hstep, hx, hlet⟩, .refl⟩
    | @through name ty v x _ hstep hx hlet ih =>
      obtain ⟨a, ha, hpath⟩ := ih
      have hedge : x ∈ letDeps walk value steps name := by
        rw [letDeps, hvalue (name, ty, v) (mem_letBindings.mpr hstep)]
        exact List.mem_filter.mpr ⟨hx, List.contains_iff_mem.mpr hlet⟩
      exact ⟨a, ha, hpath.tail hedge⟩

/-- The `let` of a name. -/
def letStep (steps : List TestStep) (name : String) : Option TestStep :=
  (letMap steps name).map fun b => .letS name b.1 b.2

theorem filterMap_letStep (hoisted : List String) {l : List TestStep}
    (h : ∀ b ∈ letBindings l, letMap steps b.1 = some b.2) :
    ((letNames l).filter hoisted.contains).filterMap (letStep steps) = l.filter (isHoisted hoisted) := by
  induction l with
  | nil => rfl
  | cons s l ih =>
    cases s with
    | letS name ty value =>
      have hall : ∀ b ∈ (name, ty, value) :: letBindings l, letMap steps b.1 = some b.2 := h
      obtain ⟨hname, hl⟩ := List.forall_mem_cons.mp hall
      have hnames : letNames (.letS name ty value :: l) = name :: letNames l := rfl
      have hstep : letStep steps name = some (.letS name ty value) := by
        rw [letStep, hname]
        rfl
      rw [hnames, List.filter_cons, List.filter_cons, isHoisted]
      split
      · rw [List.filterMap_cons_some hstep, ih hl]
      · exact ih hl
    | _ => exact ih h

/-- The needed `let`s in the order in which `dfs_topo` goes through their mentions. -/
def mentionOrder (iterate : Shuffle String) (steps : List TestStep) : Option (List TestStep) := do
  let needed ← neededNames exprFreeIdents.walk (fun n => (letMap steps n).map Prod.snd) steps
  let neededVec := (letNames steps).filter needed.contains
  let order ← dfsTopo (neededVec.length + 1) neededVec.length
    (indexDeps id neededVec (neededDeps iterate steps needed))
  some ((order.filterMap (neededVec[·]?)).filterMap (letStep steps))

/-- That order has `t` in front of `s`. -/
def PutAhead (iterate : Shuffle String) (steps : List TestStep) (t s : TestStep) : Prop :=
  ∃ order, mentionOrder iterate steps = some order ∧ Precedes order t s

/-- What the statement is made of. -/
theorem statementOrder_spec (iterate : Shuffle String) (hacc : Accepted params steps)
    (hranges : steps.filter isBound = []) :
    ∃ hoist front, hoistLetsForAssumeHypotheses iterate steps = some hoist ∧
      mentionOrder iterate steps = some front ∧
      front.Perm (steps.filter (isHoisted hoist.hoistedNames)) ∧
      (∀ x, x ∈ hoist.hoistedNames ↔ Needed exprFreeIdents.walk steps x) ∧
      statementOrder steps hoist = hoistedOrder front hoist.hoistedNames steps := by
  have hnames := hacc.letNames_nodup
  obtain ⟨needed, hrun, hneeded⟩ := neededNames_spec steps exprFreeIdents.walk
    (fun n => (letMap steps n).map Prod.snd) fun b hb => by rw [letMap_eq hnames hb]; rfl
  have hvec : (((letNames steps).filter needed.contains).map id).Nodup := by
    rw [List.map_id]
    exact hnames.filter _
  obtain ⟨order, hdfs, -, hperm, -⟩ :=
    dfsTopo_byName (neededDeps iterate steps needed) hvec (Nat.lt_succ_self _)
  refine ⟨_, _, by
      rw [hoistLetsForAssumeHypotheses, hrun]
      simp only [Option.bind_eq_bind, Option.bind_some, hdfs]
      rfl, by
      rw [mentionOrder, hrun]
      simp only [Option.bind_eq_bind, Option.bind_some, hdfs]
      rfl, ?_, hneeded, ?_⟩
  · have hlets := hperm.filterMap (letStep steps)
    rwa [filterMap_letStep needed fun b => letMap_eq hnames] at hlets
  · have hrest : filterPropertyBodyAfterHoist steps needed =
        steps.filter fun s => place needed s == 3 := by
      refine List.filter_congr fun s hs => ?_
      have hs := List.filter_eq_nil_iff.mp hranges s hs
      rw [place_eq_three]
      cases s with
      | bound => exact absurd rfl hs
      | letS name ty value => simp [isHoisted, isBound, isAssume]
      | _ => rfl
    rw [statementOrder, hoistedOrder, hranges, List.nil_append, hrest, List.append_assoc,
      List.map_filterMap]
    congr 2
    funext n
    rw [letStep, Option.map_map]
    rfl

/-- Steps that are all ranges, or none of them a range, keep their order. -/
theorem filter_sourceOrder {p : TestStep → Bool} (ranges : Bool)
    (h : ∀ s, p s = true → isBound s = ranges) (body : List TestStep) :
    (sourceOrder body).filter p = body.filter p := by
  have hand : ∀ {a b c : Bool}, (a = true → b = c) → (a && b) = (a && c) := by decide
  have hrange : ∀ s, (p s && isBound s) = (p s && ranges) := fun s => hand (h s)
  have hother : ∀ s, (p s && !isBound s) = (p s && !ranges) := fun s =>
    hand fun hs => by rw [h s hs]
  rw [sourceOrder, List.filter_append, List.filter_filter, List.filter_filter]
  simp only [hrange, hother]
  cases ranges <;> simp

theorem sourceOrder_sourceOrder (body : List TestStep) :
    sourceOrder (sourceOrder body) = sourceOrder body := by
  rw [sourceOrder, filter_sourceOrder true fun s => id,
    filter_sourceOrder false fun s hs => by simpa using hs, ← sourceOrder]

/-- What the fuzz test is made of. -/
theorem fuzzOrder_spec {body : List TestStep} (hacc : Accepted params body) :
    ∃ hoisted, letsToHoistBeforeAssumes body = some hoisted ∧
      (∀ x, x ∈ hoisted ↔ Needed exprIdentsForAssumeHoist.walk body x) ∧
      fuzzOrder body hoisted =
        hoistedOrder ((sourceOrder body).filter (isHoisted hoisted)) hoisted (sourceOrder body) := by
  obtain ⟨hoisted, hrun, hneeded⟩ := neededNames_spec body exprIdentsForAssumeHoist.walk
    (fun n => (firstLet body n).map Prod.snd) fun b hb => by
      rw [firstLet, lookup_of_once hacc.letNames_nodup hb]
      rfl
  have hplace : ∀ s, place hoisted s ≠ 1 → isBound s = false := fun s hs => by
    rwa [← Bool.not_eq_true, isBound_iff hoisted]
  refine ⟨hoisted, hrun, hneeded, ?_⟩
  rw [hoistedOrder, filter_sourceOrder true fun s => id,
    filter_sourceOrder false fun s hs => hplace s (by rw [isHoisted_iff.mp hs]; decide),
    filter_sourceOrder false fun s hs => hplace s (by rw [(isAssume_iff hoisted).mp hs]; decide),
    filter_sourceOrder false fun s hs => hplace s (by rw [eq_of_beq hs]; decide),
    fuzzOrder, List.append_assoc, List.append_assoc]
  simp only [place_eq_three]

theorem Accepted.perm {l l' : List TestStep} (h : Accepted params l) (hperm : l'.Perm l) :
    Accepted params l' where
  once := (hperm.flatMap_right binds).nodup_iff.mpr h.once
  lets name hname := by
    have hnames : (letNames l').Perm (letNames l) := (hperm.filterMap letOf).map Prod.fst
    exact h.lets name (hnames.mem_iff.mp hname)
  ranges s hs := h.ranges s (hperm.mem_iff.mp hs)

/-- Only the order of the needed `let`s of the body matters. -/
theorem Hoistable.congr {views : Expr → Bool} {needed : String → Prop}
    {ahead ahead' : TestStep → TestStep → Prop} {l : List TestStep}
    (hahead : ∀ s t, Precedes l s t → NeededLet needed s → NeededLet needed t →
      (ahead t s ↔ ahead' t s)) :
    Hoistable views params needed ahead l ↔ Hoistable views params needed ahead' l := by
  refine forall_congr' fun s => forall_congr' fun t => forall_congr' fun hpre => imp_congr_left ?_
  exact or_congr_left (and_congr_right fun ht => forall_congr' fun hs => hahead s t hpre hs ht)

end Passes

/-! ### The statement and the fuzz test -/

/-- The hypotheses and the body of the statement mean what the property means. -/
def StatementKeeps (views : Expr → Bool) (iterate : Shuffle String) (params : List String)
    (steps : List TestStep) : Prop :=
  ∃ hoist, hoistLetsForAssumeHypotheses iterate steps = some hoist ∧
    KeepsMeaning views params steps (statementOrder steps hoist)

/-- The fuzz test means what its body means. -/
def FuzzKeeps (views : Expr → Bool) (params : List String) (body : List TestStep) : Prop :=
  ∃ hoisted, letsToHoistBeforeAssumes body = some hoisted ∧
    KeepsMeaning views params (sourceOrder body) (fuzzOrder body hoisted)

section Results

variable {views : Expr → Bool} {params : List String}

theorem statementKeeps_iff {iterate : Shuffle String} {steps : List TestStep}
    (hacc : Accepted params steps) (hranges : ∀ s ∈ steps, isBound s = false) :
    StatementKeeps views iterate params steps ↔
      Hoistable views params (Needed exprFreeIdents.walk steps) (PutAhead iterate steps) steps := by
  have hnone : steps.filter isBound = [] := List.filter_eq_nil_iff.mpr fun s hs => by
    rw [hranges s hs]
    exact Bool.false_ne_true
  have hfirst : sourceOrder steps = steps := by
    rw [sourceOrder, hnone, List.nil_append]
    exact List.filter_eq_self.mpr fun s hs => by rw [hranges s hs]; rfl
  obtain ⟨hoist, front, hrun, hfront, hperm, hneeded, horder⟩ := statementOrder_spec iterate hacc hnone
  have H : Hoisting params hoist.hoistedNames front steps :=
    ⟨hacc, hfirst, hperm, hperm.nodup_iff.mpr (hacc.hoisted_nodup _)⟩
  have hnames : (· ∈ hoist.hoistedNames) = Needed exprFreeIdents.walk steps :=
    funext fun x => propext (hneeded x)
  have hahead : Precedes front = PutAhead iterate steps := by
    funext t s
    simp only [PutAhead, hfront, Option.some.injEq, exists_eq_left']
  rw [← hnames, ← hahead, ← hoisted_kept_iff H, ← horder]
  simp only [StatementKeeps, hrun, Option.some.injEq, exists_eq_left']

theorem fuzzKeeps_iff {body : List TestStep} (hacc : Accepted params body) :
    FuzzKeeps views params body ↔
      Hoistable views params (Needed exprIdentsForAssumeHoist.walk body) (fun _ _ => False)
        (sourceOrder body) := by
  obtain ⟨hoisted, hrun, hneeded, horder⟩ := fuzzOrder_spec hacc
  have haccSource : Accepted params (sourceOrder body) :=
    hacc.perm (List.filter_append_perm isBound body)
  have H : Hoisting params hoisted ((sourceOrder body).filter (isHoisted hoisted)) (sourceOrder body) :=
    ⟨haccSource, sourceOrder_sourceOrder body, .refl _, haccSource.hoisted_nodup _⟩
  have hnames : (· ∈ hoisted) = Needed exprIdentsForAssumeHoist.walk body :=
    funext fun x => propext (hneeded x)
  -- needed `let`s keep the order they have in the body
  have hkept : ∀ s t, Precedes (sourceOrder body) s t → NeededLet (· ∈ hoisted) s →
      NeededLet (· ∈ hoisted) t →
      (Precedes ((sourceOrder body).filter (isHoisted hoisted)) t s ↔ False) := by
    intro s t hpre hs ht
    rw [neededLet_iff, ← isHoisted_iff] at hs ht
    exact iff_false_intro (precedes_asymm H.nodup (hpre.filter hs ht))
  rw [← hnames, ← Hoistable.congr hkept, ← hoisted_kept_iff H, ← horder]
  simp only [FuzzKeeps, hrun, Option.some.injEq, exists_eq_left']

/-- **Hoisting for `assume` keeps the meaning of a property**, in its statement and in its fuzz
    test, exactly when each hoisted step is independent of what it overtakes there. -/
theorem hoisting_keeps_iff {iterate : Shuffle String} {steps : List TestStep}
    (hacc : Accepted params steps) (hranges : ∀ s ∈ steps, isBound s = false)
    {fuzzParams : List String} {body : List TestStep} (hbody : Accepted fuzzParams body) :
    StatementKeeps views iterate params steps ∧ FuzzKeeps views fuzzParams body ↔
      Hoistable views params (Needed exprFreeIdents.walk steps) (PutAhead iterate steps) steps ∧
        Hoistable views fuzzParams (Needed exprIdentsForAssumeHoist.walk body) (fun _ _ => False)
          (sourceOrder body) :=
  and_congr (statementKeeps_iff hacc hranges) (fuzzKeeps_iff hbody)

/-- `call deposit(); assume x`. -/
def gatedDeposit (x : String) : List TestStep := [.call none "deposit" [], .assume (.ident x)]

theorem gatedDeposit_accepted (params : List String) (x : String) : Accepted params (gatedDeposit x) where
  once := List.nodup_nil
  lets := nofun
  ranges s hs hbound := by
    rcases List.mem_cons.mp hs with rfl | hs
    · cases hbound
    · cases List.mem_singleton.mp hs
      cases hbound

/-- The assumption may overtake the call when it is about a parameter. -/
theorem gatedDeposit_hoistable {needed : String → Prop} {ahead : TestStep → TestStep → Prop}
    {x : String} : Hoistable views params needed ahead (gatedDeposit x) ↔ x ∈ params := by
  have hgives : ∀ s ∈ gatedDeposit x, ∀ y, y ∉ gives s := by simp [gatedDeposit, gives, binds, deploys]
  have hpair : ∀ {s t}, Precedes (gatedDeposit x) s t → t = .assume (.ident x) := by
    intro s t h
    cases List.Sublist.eq_of_length h rfl
    rfl
  constructor
  · intro h
    have hover : Overtakes needed ahead (.call none "deposit" []) (.assume (.ident x)) := by
      refine Or.inr ⟨rfl, rfl, rfl, ?_⟩
      rintro ⟨b, hb, -⟩
      cases hb
    obtain ⟨-, hbound⟩ := (h _ _ (List.Sublist.refl _) hover).still rfl
    refine (hbound x ⟨_, List.mem_singleton_self _, .refl⟩).resolve_right ?_
    rintro ⟨r, hr, hgiven⟩
    exact hgives r (hr.subset List.mem_cons_self) x hgiven
  · intro hx s t hpre _
    rw [hpair hpre]
    refine ⟨fun y hy => absurd hy (hgives s (hpre.subset List.mem_cons_self) y),
      fun y hy => absurd hy List.not_mem_nil, fun _ => ⟨?_, ?_⟩⟩
    · rintro ⟨e, he, d, hpath, hd⟩
      cases List.mem_singleton.mp he
      cases hpath.cases_head with
      | inl heq => cases heq; cases hd
      | inr hnext => exact absurd hnext.choose_spec.1 List.not_mem_nil
    · rintro y ⟨e, he, hfree⟩
      cases List.mem_singleton.mp he
      exact Or.inl (occursFree_ident.mp hfree ▸ hx)

theorem hoisting_keeps_gated :
    StatementKeeps (fun _ => true) (Shuffle.id String) ["amount"] (gatedDeposit "amount") ∧
      FuzzKeeps (fun _ => true) ["amount"] (gatedDeposit "amount") :=
  (hoisting_keeps_iff (gatedDeposit_accepted _ _) (by simp [gatedDeposit, isBound])
    (gatedDeposit_accepted _ _)).mpr
      ⟨gatedDeposit_hoistable.mpr List.mem_cons_self, gatedDeposit_hoistable.mpr List.mem_cons_self⟩

/-- An assumption about a member is about the state before the call, in both. -/
theorem gatedDeposit_not_kept :
    Accepted [] (gatedDeposit "m_open") ∧
      ¬ StatementKeeps (fun _ => true) (Shuffle.id String) [] (gatedDeposit "m_open") ∧
      ¬ FuzzKeeps (fun _ => true) [] (gatedDeposit "m_open") := by
  have hacc := gatedDeposit_accepted [] "m_open"
  refine ⟨hacc, ?_, ?_⟩
  · rw [statementKeeps_iff hacc (by simp [gatedDeposit, isBound]), gatedDeposit_hoistable]
    exact List.not_mem_nil
  · rw [fuzzKeeps_iff hacc]
    exact fun h => List.not_mem_nil (gatedDeposit_hoistable.mp h)

end Results

end CambrianLang.Spec.Hoist
