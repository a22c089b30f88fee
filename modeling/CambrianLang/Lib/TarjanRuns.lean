/-
  **Tarjan's algorithm ends, and none of its lookups fails.**

  The algorithm pops from a stack that could be empty and reads two maps that could lack
  the key.  Here each such step may fail, and so does a visit that is out of fuel; every
  run whose fuel covers the nodes gives the components of `Lib/Tarjan`.

  `Condensation` is what the components are for: they partition what is reached, two nodes
  share one when they reach each other, and dependees come first.
-/
import CambrianLang.Lib.TarjanComponents

namespace CambrianLang.Tarjan

set_option linter.unusedSectionVars false

open Relation

variable {α : Type} [DecidableEq α]

/-! ### The steps that can fail -/

/-- Pop up to and including `v`; the stack may run out. -/
def popChecked (v : α) : List α → Option (List α × List α)
  | [] => none
  | w :: rest =>
      if w = v then some ([w], rest)
      else (popChecked v rest).map fun p => (w :: p.1, p.2)

/-- `lowlink.get(v)`: the two maps are written at the same moment. -/
def State.getLowlink (s : State α) (v : α) : Option Nat :=
  if (s.indexOf v).isSome then some (s.lowlink v) else none

def State.closeChecked (s : State α) (v : α) : Option (State α) :=
  if s.getLowlink v = s.indexOf v then
    (popChecked v s.stack).map fun p =>
      { s with
        stack := p.2
        onStack := fun x => s.onStack x && !decide (x ∈ p.1)
        sccs := s.sccs ++ [p.1] }
  else some s

/-- `lowlink[v] = min(lowlink[v], l)`, with `v` looked up. -/
def State.lowerChecked (s : State α) (v : α) (l : Nat) : Option (State α) :=
  (s.getLowlink v).map fun _ => s.lower v l

def visitCalleeChecked (deps : Deps α) (visit : α → State α → Option (State α)) (v : α)
    (s : State α) (w : α) : Option (State α) :=
  if (deps.lookup w).isNone then some s
  else match s.indexOf w with
    | none => do
        let t ← visit w s
        let lw ← t.getLowlink w
        t.lowerChecked v lw
    | some iw => if s.onStack w then s.lowerChecked v iw else some s

def strongconnectChecked (deps : Deps α) : Nat → α → State α → Option (State α)
  | 0, _, _ => none
  | fuel + 1, v, s => do
      let callees := (deps.lookup v).getD []
      let t ← callees.foldlM (visitCalleeChecked deps (strongconnectChecked deps fuel) v) (s.push v)
      t.closeChecked v

def visitRootChecked (deps : Deps α) (fuel : Nat) (s : State α) (n : α) : Option (State α) :=
  if (s.indexOf n).isSome then some s else strongconnectChecked deps fuel n s

def tarjanChecked (fuel : Nat) (names : List α) (deps : Deps α) : Option (List (List α)) :=
  (names.foldlM (visitRootChecked deps fuel) State.empty).map (·.sccs)

variable {deps : Deps α} {v w : α} {s₀ s : State α} {handled : List α}

theorem popChecked_append {above base : List α} (h : v ∉ above) :
    popChecked v (above ++ v :: base) = some (above ++ [v], base) := by
  induction above with
  | nil => simp [popChecked]
  | cons a above ih =>
    have hne : a ≠ v := fun heq => h (heq ▸ List.mem_cons_self)
    have hrest : v ∉ above := fun hmem => h (List.mem_cons_of_mem _ hmem)
    simp only [List.cons_append, popChecked, if_neg hne, ih hrest, Option.map_some]

theorem getLowlink_eq (h : (s.indexOf v).isSome = true) : s.getLowlink v = some (s.lowlink v) :=
  if_pos h

theorem lowerChecked_eq (h : (s.indexOf v).isSome = true) (l : Nat) :
    s.lowerChecked v l = some (s.lower v l) := by
  rw [State.lowerChecked, getLowlink_eq h, Option.map_some]

/-- In the loop of a visit the visited node is on the stack, so the pops find it. -/
theorem closeChecked_eq (h : LoopInv deps v s₀ handled s) (h₀ : Inv deps s₀) :
    s.closeChecked v = some (s.close v) := by
  obtain ⟨above, hstack, hva, -⟩ := h.split h₀
  rw [State.closeChecked, State.close, getLowlink_eq h.own_isSome, hstack, popChecked_append hva,
    popComponent_append hva]
  by_cases hroot : s.indexOf v = some (s.lowlink v)
  · rw [if_pos hroot.symm, if_pos hroot, Option.map_some]
  · rw [if_neg (Ne.symm hroot), if_neg hroot]

/-! ### Runs -/

theorem Visited.isSome {t : State α} (h : Visited deps w s t) : (t.indexOf w).isSome = true := by
  rw [h.inv.indexed]
  rcases h.outcome with ⟨hdone, -⟩ | ⟨hstack, -⟩
  · exact Or.inr hdone
  · exact Or.inl hstack

theorem visitCalleeChecked_eq {visit : α → State α → State α}
    {visitChecked : α → State α → Option (State α)} (h : LoopInv deps v s₀ handled s)
    (hvisit : (deps.lookup w).isSome = true → s.indexOf w = none →
      visitChecked w s = some (visit w s) ∧ Visited deps w s (visit w s)) :
    visitCalleeChecked deps visitChecked v s w = some (visitCallee deps visit v s w) := by
  rw [visitCalleeChecked, visitCallee]
  cases hkey : deps.lookup w with
  | none => rfl
  | some callees =>
    simp only [Option.isNone_some, Bool.false_eq_true, if_false]
    cases hw : s.indexOf w with
    | none =>
      obtain ⟨hrun, hdid⟩ := hvisit (by rw [hkey]; rfl) hw
      have hv : ((visit w s).indexOf v).isSome = true := by
        rw [hdid.grows.indexOf v _ h.own]
        rfl
      simp only [hrun, Option.bind_eq_bind, Option.bind_some, getLowlink_eq hdid.isSome,
        lowerChecked_eq hv]
    | some iw =>
      simp only [lowerChecked_eq h.own_isSome]
      split <;> rfl

theorem foldlM_visitCalleeChecked {visit : α → State α → State α}
    {visitChecked : α → State α → Option (State α)} (hv : s₀.indexOf v = none)
    (hvisit : ∀ w t, Inv deps t → Grows s₀ t → (t.indexOf v).isSome = true →
      (deps.lookup w).isSome = true → t.indexOf w = none →
      visitChecked w t = some (visit w t) ∧ Visited deps w t (visit w t))
    (rest : List α) (h : LoopInv deps v s₀ handled s) :
    rest.foldlM (visitCalleeChecked deps visitChecked v) s =
      some (rest.foldl (visitCallee deps visit v) s) := by
  induction rest generalizing handled s with
  | nil => rfl
  | cons w rest ih =>
    have hboth : (deps.lookup w).isSome = true → s.indexOf w = none →
        visitChecked w s = some (visit w s) ∧ Visited deps w s (visit w s) :=
      fun hkey hw => hvisit w s h.inv h.grows h.own_isSome hkey hw
    have hnext := loopInv_visitCallee h hv fun hkey hw => (hboth hkey hw).2
    rw [List.foldlM_cons, visitCalleeChecked_eq h hboth, List.foldl_cons, Option.bind_eq_bind,
      Option.bind_some, ih hnext]

/-- Two visits of a node give the same when the fuel of each covers the nodes left, the
    checked one and the other. -/
theorem strongconnectChecked_eq {ns : List α}
    (hkeys : ∀ w, (deps.lookup w).isSome = true → w ∈ ns) (fuel : Nat) :
    ∀ (enough : Nat) (v : α) (s : State α), Inv deps s → s.indexOf v = none → v ∈ ns →
      pending ns s ≤ fuel → pending ns s ≤ enough →
      strongconnectChecked deps enough v s = some (strongconnect deps fuel v s) := by
  induction fuel with
  | zero =>
    intro enough v s _ hv hns hp
    have hpos : 0 < pending ns s := List.countP_pos_iff.mpr ⟨v, hns, by rw [hv]; rfl⟩
    omega
  | succ fuel ih =>
    intro enough v s hinv hv hns hp hp'
    have hpos : 0 < pending ns s := List.countP_pos_iff.mpr ⟨v, hns, by rw [hv]; rfl⟩
    cases enough with
    | zero => omega
    | succ enough =>
      have hstart := loopInv_push hinv hv
      have hvisit : ∀ w t, Inv deps t → Grows s t → (t.indexOf v).isSome = true →
          (deps.lookup w).isSome = true → t.indexOf w = none →
          strongconnectChecked deps enough w t = some (strongconnect deps fuel w t) ∧
            Visited deps w t (strongconnect deps fuel w t) := by
        intro w t ht hgrows hvt hkey hw
        have hlt := pending_lt hgrows hns hv hvt
        exact ⟨ih enough w t ht hw (hkeys w hkey) (by omega) (by omega),
          strongconnect_visited hkeys fuel w t ht hw (hkeys w hkey) (by omega)⟩
      have hloop := loopInv_foldl hv (fun w t ht hgrows hvt hkey hw =>
        (hvisit w t ht hgrows hvt hkey hw).2) ((deps.lookup v).getD []) hstart
      rw [strongconnectChecked, strongconnect]
      simp only [foldlM_visitCalleeChecked hv hvisit ((deps.lookup v).getD []) hstart,
        Option.bind_eq_bind, Option.bind_some, closeChecked_eq hloop hinv]

theorem foldlM_visitRootChecked {names : List α} {fuel : Nat}
    (hfuel : (nodes names deps).length ≤ fuel) (rest : List α) (hrest : ∀ n ∈ rest, n ∈ names)
    (h : RootInv deps handled s) :
    rest.foldlM (visitRootChecked deps fuel) s =
      some (rest.foldl (visitRoot deps (nodes names deps).length) s) := by
  induction rest generalizing handled s with
  | nil => rfl
  | cons n rest ih =>
    obtain ⟨hn, hrest⟩ := List.forall_mem_cons.mp hrest
    have hroot : visitRootChecked deps fuel s n =
        some (visitRoot deps (nodes names deps).length s n) := by
      rw [visitRootChecked, visitRoot]
      cases hi : s.indexOf n with
      | some i => rfl
      | none =>
        have hcount : pending (nodes names deps) s ≤ (nodes names deps).length :=
          List.countP_le_length
        exact strongconnectChecked_eq (fun w hw => mem_nodes_of_key hw) _ fuel n s h.inv hi
          (List.mem_append_left _ hn) hcount (hcount.trans hfuel)
    rw [List.foldlM_cons, hroot, List.foldl_cons, Option.bind_eq_bind, Option.bind_some,
      ih hrest (rootInv_visitRoot h hn)]

/-- **Every run ends, without a failed lookup, in the same components.** -/
theorem tarjanChecked_eq {names : List α} {fuel : Nat} (hfuel : (nodes names deps).length ≤ fuel) :
    tarjanChecked fuel names deps = some (tarjanSccs names deps) := by
  have hempty : RootInv deps [] (State.empty : State α) :=
    ⟨inv_empty deps, rfl, fun _ hn => absurd hn List.not_mem_nil⟩
  rw [tarjanChecked, foldlM_visitRootChecked hfuel names (fun _ hn => hn) hempty, Option.map_some,
    tarjanSccs]

/-! ### What the components are -/

/-- The list has the two nodes in one component. -/
def Together (sccs : List (List α)) (x y : α) : Prop := ∃ comp ∈ sccs, x ∈ comp ∧ y ∈ comp

/-- The strongly connected components of what the names reach, dependees first. -/
structure Condensation (names : List α) (deps : Deps α) (sccs : List (List α)) : Prop where
  nonempty : ∀ comp ∈ sccs, comp ≠ []
  once : sccs.flatten.Nodup
  covers : ∀ x, x ∈ sccs.flatten ↔ ∃ n ∈ names, Reach deps n x
  together : ∀ x ∈ sccs.flatten, ∀ y, Together sccs x y ↔ Reach deps x y ∧ Reach deps y x
  ordered : ∀ v ∈ sccs.flatten, ∀ w, Edge deps v w → ¬ Together sccs v w →
    position sccs w < position sccs v

theorem tarjanSccs_condensation (names : List α) (deps : Deps α) :
    Condensation names deps (tarjanSccs names deps) := by
  obtain ⟨hnodup, hcomps, hcovers⟩ := tarjanSccs_partition names deps
  refine ⟨fun comp hcomp => (hcomps comp hcomp).1, hnodup, hcovers, ?_, ?_⟩
  · intro x hx y
    constructor
    · rintro ⟨comp, hcomp, hxc, hyc⟩
      exact ((hcomps comp hcomp).2 x hxc y).mp hyc
    · intro hmutual
      obtain ⟨comp, hcomp, hxc⟩ := List.mem_flatten.mp hx
      exact ⟨comp, hcomp, hxc, ((hcomps comp hcomp).2 x hxc y).mpr hmutual⟩
  · intro v hv w hedge hapart
    obtain ⟨hlt, hmem⟩ := mem_position hnodup hv
    obtain ⟨j, hj, hle, hw⟩ := (tarjanSccs_spec names deps).1.exists_le hedge hmem
    rw [position_eq hnodup hw]
    refine Nat.lt_of_le_of_ne hle ?_
    rintro rfl
    exact hapart ⟨_, List.getElem_mem hlt, hmem, hw⟩

/-! ### Components in another order inside -/

theorem flatten_perm {sccs sccs' : List (List α)} (hperm : List.Forall₂ List.Perm sccs sccs') :
    sccs.flatten.Perm sccs'.flatten := by
  induction hperm with
  | nil => exact .refl _
  | cons hcomp _ ih =>
    rw [List.flatten_cons, List.flatten_cons]
    exact hcomp.append ih

theorem together_of_perm {sccs sccs' : List (List α)}
    (hperm : List.Forall₂ List.Perm sccs sccs') (x y : α) :
    Together sccs' x y ↔ Together sccs x y := by
  induction hperm with
  | nil => rfl
  | cons hcomp _ ih =>
    unfold Together at ih ⊢
    simp only [List.exists_mem_cons_iff, hcomp.mem_iff, ih]

theorem position_of_perm {sccs sccs' : List (List α)}
    (hperm : List.Forall₂ List.Perm sccs sccs') (x : α) : position sccs' x = position sccs x := by
  unfold position
  induction hperm with
  | nil => rfl
  | cons hcomp _ ih => simp only [List.findIdx_cons, hcomp.mem_iff, ih]

theorem ne_nil_of_perm {sccs sccs' : List (List α)} (hperm : List.Forall₂ List.Perm sccs sccs')
    (h : ∀ comp ∈ sccs, comp ≠ []) : ∀ comp ∈ sccs', comp ≠ [] := by
  induction hperm with
  | nil => exact h
  | cons hcomp _ ih =>
    obtain ⟨hfirst, hrest⟩ := List.forall_mem_cons.mp h
    refine List.forall_mem_cons.mpr ⟨?_, ih hrest⟩
    rintro rfl
    exact hfirst hcomp.eq_nil

/-- The order inside the components does not matter. -/
theorem Condensation.of_perm {names : List α} {sccs sccs' : List (List α)}
    (h : Condensation names deps sccs) (hperm : List.Forall₂ List.Perm sccs sccs') :
    Condensation names deps sccs' := by
  have hflatten := flatten_perm hperm
  have htogether := together_of_perm hperm
  refine ⟨ne_nil_of_perm hperm h.nonempty, hflatten.nodup_iff.mp h.once,
    fun x => hflatten.mem_iff.symm.trans (h.covers x), ?_, ?_⟩
  · intro x hx y
    rw [htogether]
    exact h.together x (hflatten.mem_iff.mpr hx) y
  · intro v hv w hedge hapart
    rw [position_of_perm hperm, position_of_perm hperm]
    refine h.ordered v (hflatten.mem_iff.mpr hv) w hedge fun ht => ?_
    exact hapart ((htogether v w).mpr ht)

end CambrianLang.Tarjan
