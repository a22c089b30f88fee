/-
  **The components that Tarjan's algorithm finds are the strongly connected ones.**

  A node that stays open reaches an older open node, so the nodes above `v` on the stack
  reach `v` or something below it; nothing below is reached when `v` closes its component.
  The nodes above `v` are all found from `v`.  So a component is strongly connected, and
  since no edge leads to a later component none is split.

  Where every edge can be travelled back, a root closes one component, its own, and the
  components come in the order of their first names.
-/
import CambrianLang.Lib.Tarjan

namespace CambrianLang.Tarjan

set_option linter.unusedSectionVars false

open Relation

variable {α : Type} [DecidableEq α]

/-- Along edges. -/
abbrev Reach (deps : Deps α) : α → α → Prop := ReflTransGen (Edge deps)

/-! ### Closed lists of components -/

section Closed

variable {deps : Deps α} {sccs : List (List α)}

theorem Closed.reach (h : Closed deps sccs) {a b : α} (hab : Reach deps a b)
    (ha : a ∈ sccs.flatten) : b ∈ sccs.flatten := by
  have hedge : ∀ {sccs : List (List α)}, Closed deps sccs → ∀ v ∈ sccs.flatten, ∀ w,
      Edge deps v w → w ∈ sccs.flatten := by
    intro sccs h
    induction h with
    | nil => exact fun v hv => absurd hv List.not_mem_nil
    | snoc _ hc ih =>
      intro v hv w hw
      rw [List.flatten_append, List.flatten_singleton] at hv ⊢
      rcases List.mem_append.mp hv with hv | hv
      · exact List.mem_append_left _ (ih v hv w hw)
      · rcases hc v hv w hw with hcomp | hdone
        · exact List.mem_append_right _ hcomp
        · exact List.mem_append_left _ hdone
  induction hab with
  | refl => exact ha
  | tail _ hstep ih => exact hedge h _ ih _ hstep

/-- An edge leads to the same position or an earlier one. -/
theorem Closed.exists_le (h : Closed deps sccs) {a b : α} (hab : Edge deps a b) {i : Nat}
    {hi : i < sccs.length} (ha : a ∈ sccs[i]) : ∃ (j : Nat) (hj : j < sccs.length), j ≤ i ∧ b ∈ sccs[j] := by
  induction h with
  | nil => exact absurd hi (Nat.not_lt_zero i)
  | @snoc sccs last h hc ih =>
    have hwiden : ∀ {j : Nat} (hj : j < sccs.length), b ∈ sccs[j] →
        ∃ hj' : j < (sccs ++ [last]).length, b ∈ (sccs ++ [last])[j] := by
      intro j hj hb
      refine ⟨by rw [List.length_append]; omega, ?_⟩
      rwa [List.getElem_append_left hj]
    by_cases hlt : i < sccs.length
    · rw [List.getElem_append_left hlt] at ha
      obtain ⟨j, hj, hle, hb⟩ := ih ha
      obtain ⟨hj', hb'⟩ := hwiden hj hb
      exact ⟨j, hj', hle, hb'⟩
    · have hge : sccs.length ≤ i := Nat.not_lt.mp hlt
      rw [List.getElem_append_right hge, List.getElem_singleton] at ha
      rcases hc a ha b hab with hcomp | hdone
      · refine ⟨i, hi, Nat.le_refl i, ?_⟩
        rw [List.getElem_append_right hge, List.getElem_singleton]
        exact hcomp
      · obtain ⟨c, hcmem, hbc⟩ := List.mem_flatten.mp hdone
        obtain ⟨j, hj, rfl⟩ := List.getElem_of_mem hcmem
        obtain ⟨hj', hb'⟩ := hwiden hj hbc
        exact ⟨j, hj', by omega, hb'⟩

/-- Nodes that reach each other are in one component. -/
theorem Closed.mem_of_mutual (h : Closed deps sccs) (hnodup : sccs.flatten.Nodup)
    {comp : List α} (hcomp : comp ∈ sccs) {a b : α} (ha : a ∈ comp) (hab : Reach deps a b)
    (hba : Reach deps b a) : b ∈ comp := by
  induction h with
  | nil => exact absurd hcomp List.not_mem_nil
  | @snoc sccs last h hc ih =>
    have hall := (Closed.snoc h hc).reach hab (List.mem_flatten.mpr ⟨comp, hcomp, ha⟩)
    rw [List.flatten_append, List.flatten_singleton] at hnodup hall
    obtain ⟨hold, -, hapart⟩ := List.nodup_append.mp hnodup
    rcases List.mem_append.mp hcomp with hcomp | hcomp
    · exact ih hold hcomp
    · rw [List.mem_singleton.mp hcomp] at ha ⊢
      rcases List.mem_append.mp hall with hb | hb
      · exact absurd rfl (hapart a (h.reach hba hb) a ha)
      · exact hb

end Closed

/-! ### Positions in a partition -/

section Position

variable {parts : List (List α)}

/-- Where the part with the node stands. -/
def position (parts : List (List α)) (a : α) : Nat := parts.findIdx (a ∈ ·)

theorem position_eq (hnodup : parts.flatten.Nodup) {a : α} {i : Nat} {hi : i < parts.length}
    (ha : a ∈ parts[i]) : position parts a = i := by
  have hpair := (List.nodup_flatten.mp hnodup).2
  rw [List.pairwise_iff_getElem] at hpair
  refine (List.findIdx_eq hi).mpr ⟨decide_eq_true ha, ?_⟩
  intro j hj
  rw [decide_eq_false_iff_not]
  exact fun hmem => hpair j i (by omega) hi hj hmem ha

theorem mem_position (hnodup : parts.flatten.Nodup) {a : α} (ha : a ∈ parts.flatten) :
    ∃ h : position parts a < parts.length, a ∈ parts[position parts a] := by
  obtain ⟨c, hc, hac⟩ := List.mem_flatten.mp ha
  obtain ⟨i, hi, rfl⟩ := List.getElem_of_mem hc
  have heq := position_eq hnodup hac
  exact ⟨by omega, by simpa only [heq] using hac⟩

theorem position_reverse (hnodup : parts.flatten.Nodup) {a : α} (ha : a ∈ parts.flatten) :
    position parts.reverse a = parts.length - 1 - position parts a := by
  obtain ⟨hlt, hmem⟩ := mem_position hnodup ha
  have hrev : parts.reverse.flatten.Nodup :=
    (List.Perm.flatten (List.reverse_perm parts)).nodup_iff.mpr hnodup
  have hbound : parts.length - 1 - position parts a < parts.reverse.length := by
    rw [List.length_reverse]
    omega
  have hback : parts.length - 1 - (parts.length - 1 - position parts a) = position parts a := by
    omega
  have hin : a ∈ parts.reverse[parts.length - 1 - position parts a] := by
    rw [List.getElem_reverse]
    simpa only [hback] using hmem
  exact position_eq hrev hin

end Position

/-! ### What a visit finds -/

/-- The emitted components so far. -/
structure Strong (deps : Deps α) (s : State α) : Prop where
  nodup : s.done.Nodup
  comps : ∀ comp ∈ s.sccs, comp ≠ [] ∧ ∀ a ∈ comp, ∀ b ∈ comp, Reach deps a b

/-- What a visit of `v` adds is reached from `v`, and what of it stays open reaches
    something that was open before. -/
structure Found (deps : Deps α) (v : α) (s t : State α) : Prop where
  strong : Strong deps t
  part : ∃ seg, t.stack = seg ++ s.stack ∧ (∀ u ∈ seg, Reach deps v u) ∧
    ∀ u ∈ seg, ∃ x ∈ s.stack, Reach deps u x
  low : v ∈ t.stack → ∃ x ∈ t.stack, t.lowlink v = t.idx x ∧ Reach deps v x
  fresh : ∃ comps, t.sccs = s.sccs ++ comps ∧ ∀ c ∈ comps, ∀ u ∈ c, Reach deps v u

/-- The same inside the loop, where `v` itself is open. -/
structure LoopFound (deps : Deps α) (v : α) (s₀ s : State α) : Prop where
  strong : Strong deps s
  part : ∃ above, s.stack = above ++ v :: s₀.stack ∧ (∀ u ∈ above, Reach deps v u) ∧
    ∀ u ∈ above, ∃ x ∈ v :: s₀.stack, Reach deps u x
  low : ∃ x ∈ s.stack, s.lowlink v = s.idx x ∧ Reach deps v x
  fresh : ∃ comps, s.sccs = s₀.sccs ++ comps ∧ ∀ c ∈ comps, ∀ u ∈ c, Reach deps v u

variable {deps : Deps α} {v w : α} {s₀ s t : State α} {handled : List α}

theorem loopFound_push (h : Strong deps s₀) : LoopFound deps v s₀ (s₀.push v) where
  strong := ⟨h.nodup, h.comps⟩
  part := ⟨[], rfl, fun u hu => absurd hu List.not_mem_nil, fun u hu => absurd hu List.not_mem_nil⟩
  low := by
    refine ⟨v, List.mem_cons_self, ?_, .refl⟩
    rw [idx_push_self]
    simp only [State.push, Function.update_self]
  fresh := ⟨[], (List.append_nil _).symm, fun c hc => absurd hc List.not_mem_nil⟩

theorem loopFound_lower (h : LoopFound deps v s₀ s) (hedge : Edge deps v w) (hw : w ∈ s.stack) :
    LoopFound deps v s₀ (s.lower v (s.idx w)) where
  strong := ⟨h.strong.nodup, h.strong.comps⟩
  part := h.part
  low := by
    obtain ⟨x, hx, heq, hreach⟩ := h.low
    rw [lowlink_lower]
    rcases Nat.le_total (s.lowlink v) (s.idx w) with hle | hle
    · exact ⟨x, hx, by rw [Nat.min_eq_left hle]; exact heq, hreach⟩
    · exact ⟨w, hw, by rw [Nat.min_eq_right hle]; rfl, .single hedge⟩
  fresh := h.fresh

theorem loopFound_child (hloop : LoopInv deps v s₀ handled s) (h : LoopFound deps v s₀ s)
    (hedge : Edge deps v w) (hw : s.indexOf w = none) (hvisit : Visited deps w s t)
    (hfound : Found deps w s t) : LoopFound deps v s₀ (t.lower v (t.lowlink w)) where
  strong := ⟨hfound.strong.nodup, hfound.strong.comps⟩
  part := by
    obtain ⟨above, hstack, hreach, hback⟩ := h.part
    obtain ⟨seg, hseg, hsreach, hsback⟩ := hfound.part
    refine ⟨seg ++ above, ?_, ?_, ?_⟩
    · rw [List.append_assoc, ← hstack]
      exact hseg
    · intro u hu
      rcases List.mem_append.mp hu with hnew | hold
      · exact .head hedge (hsreach u hnew)
      · exact hreach u hold
    · intro u hu
      rcases List.mem_append.mp hu with hnew | hold
      · obtain ⟨x, hx, hux⟩ := hsback u hnew
        rw [hstack] at hx
        rcases List.mem_append.mp hx with ha | hvb
        · obtain ⟨y, hy, hxy⟩ := hback x ha
          exact ⟨y, hy, hux.trans hxy⟩
        · exact ⟨x, hvb, hux⟩
      · exact hback u hold
  low := by
    have hkept := hvisit.open_kept hloop
    have hnewer := hvisit.newer hloop hw
    have hlow : t.lowlink v = s.lowlink v := hvisit.grows.lowlink v hloop.own_isSome
    have hle := hloop.le
    obtain ⟨x, hx, heq, hreach⟩ := h.low
    obtain ⟨hxt, hxidx⟩ := hkept x hx
    rw [lowlink_lower, hlow]
    rcases Nat.le_total (s.lowlink v) (t.lowlink w) with hmin | hmin
    · refine ⟨x, hxt, ?_, hreach⟩
      rw [Nat.min_eq_left hmin]
      change s.lowlink v = t.idx x
      omega
    · rcases hvisit.outcome with ⟨-, hroot, -⟩ | ⟨hmem, -⟩
      · omega
      · obtain ⟨y, hy, hyeq, hwy⟩ := hfound.low hmem
        refine ⟨y, hy, ?_, .head hedge hwy⟩
        rw [Nat.min_eq_right hmin]
        exact hyeq
  fresh := by
    obtain ⟨comps, heq, hreach⟩ := h.fresh
    obtain ⟨comps', heq', hreach'⟩ := hfound.fresh
    refine ⟨comps ++ comps', ?_, ?_⟩
    · rw [← List.append_assoc, ← heq]
      exact heq'
    · intro c hc u hu
      rcases List.mem_append.mp hc with hold | hnew
      · exact hreach c hold u hu
      · exact .head hedge (hreach' c hnew u hu)

/-! ### Closing -/

/-- When nothing below `v` is reached, what is above it is its component. -/
theorem found_popped (hloop : LoopInv deps v s₀ ((deps.lookup v).getD []) s)
    (h : LoopFound deps v s₀ s) (h₀ : Inv deps s₀) (hroot : s.lowlink v = s₀.index) :
    Found deps v s₀ (s.close v) := by
  have hvisit := visited_popped hloop h₀ hroot
  obtain ⟨above, hstack, hreach, hback⟩ := h.part
  have hva : v ∉ above := by
    obtain ⟨above', hstack', hva', -, -⟩ := hloop.split h₀
    rw [hstack, List.append_cancel_right_eq] at hstack'
    rwa [hstack']
  have hclose := close_popped hloop hroot hstack hva
  have hdone : (s.close v).done = s.done ++ (above ++ [v]) := by
    rw [hclose, State.done, List.flatten_append, List.flatten_singleton]
    rfl
  have hbelow : (s.close v).stack = s₀.stack := by rw [hclose]
  have hself : ∀ u ∈ above ++ [v], Reach deps v u := by
    intro u hu
    rcases List.mem_append.mp hu with ha | hv
    · exact hreach u ha
    · rw [List.mem_singleton.mp hv]
  have hreturn : ∀ u ∈ above ++ [v], Reach deps u v := by
    intro u hu
    rcases List.mem_append.mp hu with ha | hv
    · obtain ⟨x, hx, hux⟩ := hback u ha
      rcases List.mem_cons.mp hx with rfl | hx
      · exact hux
      -- an open node below `v` would be emitted
      · have hmem : x ∈ (s.close v).done := hvisit.inv.closed.reach hux (by
          change u ∈ (s.close v).done
          rw [hdone]
          exact List.mem_append_right _ hu)
        exact absurd (hbelow ▸ hx) (hvisit.inv.disjoint x hmem)
    · rw [List.mem_singleton.mp hv]
  have hsplit : s.stack = (above ++ [v]) ++ s₀.stack := by
    rw [hstack, List.append_assoc, List.singleton_append]
  have hnodup : (above ++ [v]).Nodup := by
    have hsorted := hloop.inv.sorted
    rw [hsplit] at hsorted
    refine (List.pairwise_append.mp hsorted).1.imp ?_
    rintro a _ hab rfl
    exact absurd hab (Nat.lt_irrefl _)
  refine ⟨⟨?_, ?_⟩, ⟨[], hbelow, fun u hu => absurd hu List.not_mem_nil,
    fun u hu => absurd hu List.not_mem_nil⟩, ?_, ?_⟩
  · rw [hdone]
    refine List.nodup_append.mpr ⟨h.strong.nodup, hnodup, ?_⟩
    rintro a ha _ hb rfl
    refine hloop.inv.disjoint a ha ?_
    rw [hsplit]
    exact List.mem_append_left _ hb
  · intro comp hcomp
    rw [hclose] at hcomp
    rcases List.mem_append.mp hcomp with hold | hnew
    · exact h.strong.comps comp hold
    · rw [List.mem_singleton.mp hnew]
      exact ⟨List.append_ne_nil_of_right_ne_nil _ (List.cons_ne_nil v []),
        fun a ha b hb => (hreturn a ha).trans (hself b hb)⟩
  · intro hmem
    rcases hvisit.outcome with ⟨hd, -, -⟩ | ⟨-, x, hx, hlow⟩
    · exact absurd hmem (hvisit.inv.disjoint v hd)
    · have hd : v ∈ (s.close v).done := by
        rw [hdone]
        exact List.mem_append_right _ (List.mem_append_right _ (List.mem_singleton.mpr rfl))
      exact absurd hmem (hvisit.inv.disjoint v hd)
  · obtain ⟨comps, heq, hfresh⟩ := h.fresh
    refine ⟨comps ++ [above ++ [v]], ?_, ?_⟩
    · rw [hclose, ← List.append_assoc, ← heq]
    · intro c hc u hu
      rcases List.mem_append.mp hc with hold | hnew
      · exact hfresh c hold u hu
      · rw [List.mem_singleton.mp hnew] at hu
        exact hself u hu

/-- Otherwise `v` reaches an older open node, and so does what is above it. -/
theorem found_kept (hloop : LoopInv deps v s₀ ((deps.lookup v).getD []) s)
    (h : LoopFound deps v s₀ s) (h₀ : Inv deps s₀) (hroot : s.lowlink v ≠ s₀.index) :
    Found deps v s₀ (s.close v) := by
  have hclose : s.close v = s := by
    rw [State.close, if_neg]
    rw [hloop.own, Option.some.injEq]
    exact fun heq => hroot heq.symm
  obtain ⟨above, hstack, hreach, hback⟩ := h.part
  have holder : ∃ x ∈ s₀.stack, Reach deps v x := by
    obtain ⟨above', hstack', -, habove, -⟩ := hloop.split h₀
    rw [hstack, List.append_cancel_right_eq] at hstack'
    subst hstack'
    have hown : s.idx v = s₀.index := by rw [State.idx, hloop.own, Option.getD_some]
    have hle := hloop.le
    obtain ⟨x, hx, heq, hvx⟩ := h.low
    rw [hstack] at hx
    rcases List.mem_append.mp hx with ha | hvb
    · have hlt := (habove x ha).2
      omega
    · rcases List.mem_cons.mp hvb with rfl | hbase
      · omega
      · exact ⟨x, hbase, hvx⟩
  rw [hclose]
  refine ⟨h.strong, ⟨above ++ [v], ?_, ?_, ?_⟩, fun _ => h.low, h.fresh⟩
  · rw [hstack, List.append_assoc, List.singleton_append]
  · intro u hu
    rcases List.mem_append.mp hu with ha | hv
    · exact hreach u ha
    · rw [List.mem_singleton.mp hv]
  · intro u hu
    rcases List.mem_append.mp hu with ha | hv
    · obtain ⟨x, hx, hux⟩ := hback u ha
      rcases List.mem_cons.mp hx with rfl | hx
      · obtain ⟨y, hy, hvy⟩ := holder
        exact ⟨y, hy, hux.trans hvy⟩
      · exact ⟨x, hx, hux⟩
    · rw [List.mem_singleton.mp hv]
      exact holder

/-! ### The recursion -/

theorem loopFound_visitCallee {visit : α → State α → State α}
    (hloop : LoopInv deps v s₀ handled s) (h : LoopFound deps v s₀ s)
    (hcallee : w ∈ (deps.lookup v).getD [])
    (hvisit : (deps.lookup w).isSome = true → s.indexOf w = none →
      Visited deps w s (visit w s) ∧ Found deps w s (visit w s)) :
    LoopFound deps v s₀ (visitCallee deps visit v s w) := by
  rw [visitCallee]
  by_cases hkey : (deps.lookup w).isSome = true
  · have hsome : ¬ (deps.lookup w).isNone = true := by
      rw [Option.isNone_iff_eq_none, ← Option.not_isSome_iff_eq_none]
      exact not_not_intro hkey
    rw [if_neg hsome]
    cases hw : s.indexOf w with
    | none =>
      obtain ⟨hv, hf⟩ := hvisit hkey hw
      exact loopFound_child hloop h ⟨hcallee, hkey⟩ hw hv hf
    | some iw =>
      simp only
      by_cases hon : s.onStack w = true
      · have hidx : s.idx w = iw := by rw [State.idx, hw, Option.getD_some]
        rw [if_pos hon, ← hidx]
        exact loopFound_lower h ⟨hcallee, hkey⟩ ((hloop.inv.onStack w).mp hon)
      · rw [if_neg hon]
        exact h
  · rw [if_pos (by rw [Option.isNone_iff_eq_none, ← Option.not_isSome_iff_eq_none]; exact hkey)]
    exact h

theorem loopFound_foldl {visit : α → State α → State α} (hv : s₀.indexOf v = none)
    (hvisit : ∀ w t, Inv deps t → Strong deps t → Grows s₀ t → (t.indexOf v).isSome = true →
      (deps.lookup w).isSome = true → t.indexOf w = none →
      Visited deps w t (visit w t) ∧ Found deps w t (visit w t))
    (rest : List α) (hrest : ∀ w ∈ rest, w ∈ (deps.lookup v).getD [])
    (hloop : LoopInv deps v s₀ handled s) (h : LoopFound deps v s₀ s) :
    LoopFound deps v s₀ (rest.foldl (visitCallee deps visit v) s) := by
  induction rest generalizing handled s with
  | nil => exact h
  | cons w rest ih =>
    obtain ⟨hw, hrest⟩ := List.forall_mem_cons.mp hrest
    have hboth : (deps.lookup w).isSome = true → s.indexOf w = none →
        Visited deps w s (visit w s) ∧ Found deps w s (visit w s) :=
      fun hkey hidx => hvisit w s hloop.inv h.strong hloop.grows hloop.own_isSome hkey hidx
    exact ih hrest (loopInv_visitCallee hloop hv fun hkey hidx => (hboth hkey hidx).1)
      (loopFound_visitCallee hloop h hw hboth)

/-- A visit whose fuel covers the nodes left finds components. -/
theorem strongconnect_found {ns : List α} (hkeys : ∀ w, (deps.lookup w).isSome = true → w ∈ ns)
    (fuel : Nat) : ∀ (v : α) (s : State α), Inv deps s → Strong deps s → s.indexOf v = none →
      v ∈ ns → pending ns s ≤ fuel →
      Visited deps v s (strongconnect deps fuel v s) ∧ Found deps v s (strongconnect deps fuel v s) := by
  induction fuel with
  | zero =>
    intro v s _ _ hv hns hp
    have hpos : 0 < pending ns s := List.countP_pos_iff.mpr ⟨v, hns, by rw [hv]; rfl⟩
    omega
  | succ fuel ih =>
    intro v s hinv hstrong hv hns hp
    refine ⟨strongconnect_visited hkeys _ v s hinv hv hns hp, ?_⟩
    have hvisit : ∀ w t, Inv deps t → Strong deps t → Grows s t → (t.indexOf v).isSome = true →
        (deps.lookup w).isSome = true → t.indexOf w = none →
        Visited deps w t (strongconnect deps fuel w t) ∧
          Found deps w t (strongconnect deps fuel w t) := by
      intro w t ht hstrong hgrows hvt hkey hw
      have hlt := pending_lt hgrows hns hv hvt
      exact ih w t ht hstrong hw (hkeys w hkey) (by omega)
    have hstart := loopInv_push hinv hv
    have hloop := loopInv_foldl hv (fun w t ht hgrows hvt hkey hw =>
      strongconnect_visited hkeys fuel w t ht hw (hkeys w hkey) (by
        have hlt := pending_lt hgrows hns hv hvt
        omega)) ((deps.lookup v).getD []) hstart
    rw [List.nil_append] at hloop
    have hfound := loopFound_foldl hv hvisit ((deps.lookup v).getD []) (fun _ hw => hw) hstart
      (loopFound_push hstrong)
    rw [strongconnect]
    by_cases hroot : (((deps.lookup v).getD []).foldl
        (visitCallee deps (strongconnect deps fuel) v) (s.push v)).lowlink v = s.index
    · exact found_popped hloop hfound hinv hroot
    · exact found_kept hloop hfound hinv hroot

/-! ### The roots -/

/-- What the roots so far have emitted. -/
structure RootFound (deps : Deps α) (handled : List α) (s : State α) : Prop where
  root : RootInv deps handled s
  strong : Strong deps s
  reached : ∀ x ∈ s.done, ∃ n ∈ handled, Reach deps n x

theorem rootFound_empty (deps : Deps α) : RootFound deps [] (State.empty : State α) where
  root := ⟨inv_empty deps, rfl, fun _ hn => absurd hn List.not_mem_nil⟩
  strong := ⟨List.nodup_nil, fun _ hcomp => absurd hcomp List.not_mem_nil⟩
  reached := fun _ hx => absurd hx List.not_mem_nil

/-- One root: the components it adds are reached from it, and it is in one of them. -/
theorem rootFound_visitRoot {names : List α} {n : α} (h : RootFound deps handled s)
    (hn : n ∈ names) :
    RootFound deps (handled ++ [n]) (visitRoot deps (nodes names deps).length s n) ∧
      ∃ comps, (visitRoot deps (nodes names deps).length s n).sccs = s.sccs ++ comps ∧
        ∀ c ∈ comps, ∀ u ∈ c, Reach deps n u := by
  have hroot := rootInv_visitRoot h.root hn
  by_cases hi : (s.indexOf n).isSome = true
  · rw [visitRoot, if_pos hi] at hroot ⊢
    refine ⟨⟨hroot, h.strong, ?_⟩, [], (List.append_nil _).symm,
      fun c hc => absurd hc List.not_mem_nil⟩
    intro x hx
    obtain ⟨m, hm, hreach⟩ := h.reached x hx
    exact ⟨m, List.mem_append_left _ hm, hreach⟩
  · rw [visitRoot, if_neg hi] at hroot ⊢
    rw [Option.not_isSome_iff_eq_none] at hi
    have hkeys : ∀ w, (deps.lookup w).isSome = true → w ∈ nodes names deps :=
      fun w hw => mem_nodes_of_key hw
    have hfound := (strongconnect_found hkeys _ n s
      h.root.inv h.strong hi (List.mem_append_left _ hn) List.countP_le_length).2
    obtain ⟨comps, heq, hfresh⟩ := hfound.fresh
    refine ⟨⟨hroot, hfound.strong, ?_⟩, comps, heq, hfresh⟩
    intro x hx
    rw [State.done, heq, List.flatten_append] at hx
    rcases List.mem_append.mp hx with hold | hnew
    · obtain ⟨m, hm, hreach⟩ := h.reached x hold
      exact ⟨m, List.mem_append_left _ hm, hreach⟩
    · obtain ⟨c, hc, hxc⟩ := List.mem_flatten.mp hnew
      exact ⟨n, List.mem_append_right _ (List.mem_singleton.mpr rfl), hfresh c hc x hxc⟩

theorem rootFound_foldl {names : List α} (rest : List α) (hrest : ∀ n ∈ rest, n ∈ names)
    (h : RootFound deps handled s) :
    RootFound deps (handled ++ rest)
      (rest.foldl (visitRoot deps (nodes names deps).length) s) := by
  induction rest generalizing handled s with
  | nil => rwa [List.append_nil, List.foldl_nil]
  | cons n rest ih =>
    obtain ⟨hn, hrest⟩ := List.forall_mem_cons.mp hrest
    have htail := ih hrest (rootFound_visitRoot h hn).1
    rwa [List.append_assoc, List.singleton_append] at htail

theorem tarjanSccs_found (names : List α) (deps : Deps α) :
    RootFound deps names (names.foldl (visitRoot deps (nodes names deps).length) State.empty) := by
  have hend := rootFound_foldl names (fun _ hn => hn) (rootFound_empty deps)
  rwa [List.nil_append] at hend

/-- **The components partition what is reached from the names into the maximal strongly
    connected sets.** -/
theorem tarjanSccs_partition (names : List α) (deps : Deps α) :
    (tarjanSccs names deps).flatten.Nodup ∧
      (∀ comp ∈ tarjanSccs names deps, comp ≠ [] ∧ ∀ a ∈ comp, ∀ b,
        b ∈ comp ↔ Reach deps a b ∧ Reach deps b a) ∧
      ∀ x, x ∈ (tarjanSccs names deps).flatten ↔ ∃ n ∈ names, Reach deps n x := by
  have h := tarjanSccs_found names deps
  obtain ⟨hclosed, hall⟩ := tarjanSccs_spec names deps
  refine ⟨h.strong.nodup, ?_, ?_⟩
  · intro comp hcomp
    obtain ⟨hne, hstrong⟩ := h.strong.comps comp hcomp
    refine ⟨hne, fun a ha b => ⟨fun hb => ⟨hstrong a ha b hb, hstrong b hb a ha⟩, ?_⟩⟩
    rintro ⟨hab, hba⟩
    exact hclosed.mem_of_mutual h.strong.nodup hcomp ha hab hba
  · intro x
    refine ⟨h.reached x, ?_⟩
    rintro ⟨n, hn, hreach⟩
    exact hclosed.reach hreach (hall n hn)

/-! ### Edges that can be travelled back -/

/-- The components so far each hold a root, and come in the order of their roots. -/
structure RootOrdered (names handled : List α) (sccs : List (List α)) : Prop where
  rooted : ∀ comp ∈ sccs, ∃ a ∈ comp, a ∈ handled
  ordered : sccs.Pairwise fun c c' => ∃ a ∈ c, ∀ b ∈ c', names.idxOf a < names.idxOf b

theorem rootOrdered_foldl {names : List α} (hback : ∀ a b, Edge deps a b → Reach deps b a)
    (rest : List α) (hnames : names = handled ++ rest) (h : RootFound deps handled s)
    (hordered : RootOrdered names handled s.sccs) :
    RootOrdered names names (rest.foldl (visitRoot deps (nodes names deps).length) s).sccs := by
  have hsymm : ∀ {a b}, Reach deps a b → Reach deps b a := by
    intro a b hab
    induction hab with
    | refl => exact .refl
    | tail _ hedge ih => exact (hback _ _ hedge).trans ih
  induction rest generalizing handled s with
  | nil =>
    rw [List.append_nil] at hnames
    exact hnames ▸ hordered
  | cons n rest ih =>
    have hn : n ∈ names := by
      rw [hnames]
      exact List.mem_append_right _ List.mem_cons_self
    obtain ⟨hnext, comps, heq, hfresh⟩ := rootFound_visitRoot h hn
    rw [List.foldl_cons]
    refine ih (by rw [hnames, List.append_assoc, List.singleton_append]) hnext ?_
    have hown : ∀ c ∈ comps, n ∈ c := by
      intro c hc
      have hmem : c ∈ (visitRoot deps (nodes names deps).length s n).sccs := by
        rw [heq]
        exact List.mem_append_right _ hc
      obtain ⟨u, hu⟩ := List.exists_mem_of_ne_nil _ (hnext.strong.comps c hmem).1
      have hreach := hfresh c hc u hu
      exact hnext.root.inv.closed.mem_of_mutual hnext.strong.nodup hmem hu (hsymm hreach) hreach
    have hnodup := hnext.strong.nodup
    rw [State.done, heq, List.flatten_append] at hnodup
    obtain ⟨-, hcomps, hapart⟩ := List.nodup_append.mp hnodup
    have hlater : ∀ c ∈ comps, ∀ b ∈ c, handled.length ≤ names.idxOf b := by
      intro c hc b hb
      have hnot : b ∉ handled := fun hbh =>
        hapart b (h.root.done b hbh) b (List.mem_flatten.mpr ⟨c, hc, hb⟩) rfl
      rw [hnames, List.idxOf_append_of_notMem hnot]
      exact Nat.le_add_right _ _
    rw [heq]
    refine ⟨?_, List.pairwise_append.mpr ⟨hordered.ordered, ?_, ?_⟩⟩
    · intro comp hcomp
      rcases List.mem_append.mp hcomp with hold | hnew
      · obtain ⟨a, ha, hah⟩ := hordered.rooted comp hold
        exact ⟨a, ha, List.mem_append_left _ hah⟩
      · exact ⟨n, hown comp hnew, List.mem_append_right _ (List.mem_singleton.mpr rfl)⟩
    · -- two new components would share the root
      cases comps with
      | nil => exact List.Pairwise.nil
      | cons c rest =>
        refine List.pairwise_cons.mpr ⟨?_, ?_⟩
        · intro c' hc'
          rw [List.flatten_cons] at hcomps
          exact absurd rfl ((List.nodup_append.mp hcomps).2.2 n (hown c List.mem_cons_self) n
            (List.mem_flatten.mpr ⟨c', hc', hown c' (List.mem_cons_of_mem _ hc')⟩))
        · cases rest with
          | nil => exact List.Pairwise.nil
          | cons c' rest =>
            rw [List.flatten_cons] at hcomps
            exact absurd rfl ((List.nodup_append.mp hcomps).2.2 n (hown c List.mem_cons_self) n
              (List.mem_flatten.mpr ⟨c', List.mem_cons_self,
                hown c' (List.mem_cons_of_mem _ List.mem_cons_self)⟩))
    · intro c hc c' hc'
      obtain ⟨a, ha, hah⟩ := hordered.rooted c hc
      refine ⟨a, ha, fun b hb => lt_of_lt_of_le ?_ (hlater c' hc' b hb)⟩
      rw [hnames, List.idxOf_append_of_mem hah]
      exact List.idxOf_lt_length_of_mem hah

/-- Where every edge can be travelled back, a component with an earlier first name is
    emitted earlier. -/
theorem tarjanSccs_ordered {names : List α} (hback : ∀ a b, Edge deps a b → Reach deps b a) :
    (tarjanSccs names deps).Pairwise fun c c' =>
      ∃ a ∈ c, ∀ b ∈ c', names.idxOf a < names.idxOf b :=
  (rootOrdered_foldl hback names rfl (rootFound_empty deps)
    ⟨fun _ hcomp => absurd hcomp List.not_mem_nil, List.Pairwise.nil⟩).ordered

end CambrianLang.Tarjan
