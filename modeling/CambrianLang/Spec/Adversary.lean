/-
  **Clauses that tell a statement from a run**: for every list of kinds, clauses which a
  statement meets and a run only if the statement keeps every expectation.

  The state is a clock that each call moves on.  An expectation holds if the statement
  keeps it and only of the values the statement reads; where the statement has ended, the
  calls do what is not expected of them.
-/
import CambrianLang.Spec.KeptExpectations

namespace CambrianLang.Spec

open Scripts

variable {σ V : Type} {m : Mark} {b : Binders σ V} {v : View σ V}
variable {cs : List (Clause σ V)} {s : σ}

/-! ### The clauses -/

/-- A state that moves on with every call. -/
structure Clock (σ : Type) where
  time : σ → Nat
  idle : σ → σ
  bind : σ → σ
  call : σ → σ
  refused : σ → σ
  time_idle : ∀ s, time (idle s) = time s
  time_bind : ∀ s, time (bind s) = time s
  time_call : ∀ s, time (call s) = time s + 1
  time_refused : ∀ s, time (refused s) = time s

/-- The end of the statement is reached, not cut off at a throw. -/
def reaches : List Kind → Bool
  | [] => true
  | .call kind :: ks =>
      if (paired kind ks).isSome then continues ks && reaches ks else reaches ks
  | .update :: ks | .rebind :: ks | .refuse _ :: ks => reaches ks
  | .expect _ :: ks | .announce _ :: ks => reaches ks

/-- A pending announcement is checked right after the next call. -/
def lands : List Kind → Bool
  | [] | .expect _ :: _ | .announce _ :: _ => false
  | .call kind :: ks => (paired kind ks).isNone
  | .update :: ks | .rebind :: ks | .refuse _ :: ks => lands ks

/-- The value of a call that returns one. -/
def token (b : Bool) : Option Unit := if b then some () else none

variable (K : Clock σ)

/-- What an expectation demands: that it is kept and reads what the statement does. -/
def doubt (reading : Reading) (kept held : Bool) (i : String) (v : Option Unit) : Prop :=
  reading ≠ .absurd ∧ (reading = .nothing ∨ kept = true) ∧
    (reading.readsResult = true → v = token held) ∧ (reading.readsState = true → i = "inst")

/-- After the end of the statement nothing holds. -/
def rejected : List Kind → List (Clause σ Unit)
  | [] => []
  | .update :: ks => .update K.idle :: rejected ks
  | .rebind :: ks => .rebind "peer_inst" K.bind :: rejected ks
  | .refuse code :: ks => .refuse code :: rejected ks
  | .expect reading :: ks =>
      .expect reading (fun i v _ => doubt reading false false i v) :: rejected ks
  | .announce reading :: ks => .announce reading (fun _ _ => False) :: rejected ks
  | .call kind :: ks =>
      .call kind (fun s => if kind.fallible && (refusals ks).isEmpty then .error 0
        else .ok (K.call s, token kind.view)) K.refused :: rejected ks

/-- The clauses, from a place where the clock shows `n` and a `_result` is bound or not. -/
def adversary : List Kind → (skipping held : Bool) → Nat → List (Clause σ Unit)
  | [], _, _, _ => []
  | .update :: ks, skipping, held, n => .update K.idle :: adversary ks skipping held n
  | .rebind :: ks, skipping, held, n =>
      .rebind "peer_inst" K.bind :: adversary ks skipping held n
  | .refuse code :: ks, _, held, n => .refuse code :: adversary ks false held n
  | .expect reading :: ks, skipping, held, n =>
      .expect reading (fun i v _ => doubt reading (!skipping && reaches ks) held i v) ::
        adversary ks skipping held n
  | .announce reading :: ks, skipping, held, n =>
      .announce reading (fun i s => reaches ks = true ∧ (reading.readsState = true → i = "inst") ∧
        K.time s = if lands ks then n + 1 else n) :: adversary ks skipping held n
  | .call kind :: ks, skipping, held, n =>
      match paired kind ks with
      | some code =>
          .call kind (fun _ => .error code) K.refused ::
            if continues ks then adversary ks true held n else rejected K ks
      | none =>
          .call kind (fun s => .ok (K.call s, token kind.view)) K.refused ::
            adversary ks skipping (kind.view || (kind.fallible && held)) (n + 1)

theorem shape_rejected (ks : List Kind) : (rejected K ks).map Step.shape = ks := by
  induction ks with
  | nil => rfl
  | cons k ks ih => cases k <;> simp only [rejected, List.map_cons, Step.shape, ih]

theorem shape_adversary (ks : List Kind) (skipping held : Bool) (n : Nat) :
    (adversary K ks skipping held n).map Step.shape = ks := by
  induction ks generalizing skipping held n with
  | nil => rfl
  | cons k ks ih =>
    cases k with
    | call kind =>
      rw [adversary]
      split
      · split
        · simp only [List.map_cons, Step.shape, ih]
        · simp only [List.map_cons, Step.shape, shape_rejected]
      · simp only [List.map_cons, Step.shape, ih]
    | update | rebind | refuse code | expect reading | announce reading =>
      simp only [adversary, List.map_cons, Step.shape, ih]

theorem allows_doubt (reading : Reading) (kept held : Bool) :
    reading.Allows (fun i v (_ : σ) => doubt reading kept held i v) := by
  refine ⟨?_, ?_, ?_, ?_⟩
  · rintro rfl i v s
    exact ⟨by decide, Or.inl rfl, by simp [Reading.readsResult], by simp [Reading.readsState]⟩
  · rintro rfl i v s h
    exact h.1 rfl
  · intro h i v v' s
    simp [doubt, h]
  · intro h i i' v s
    simp [doubt, h]

theorem not_executes_of_announced {p : String → σ → Prop} (hp : ∀ i s, ¬ p i s)
    (hmem : p ∈ v.announced) : ¬ Executes cs v s := by
  induction cs generalizing v s with
  | nil =>
    intro h
    rw [Executes] at h
    rw [h] at hmem
    cases hmem
  | cons c cs ih =>
    cases c with
    | update f | refuse code => exact ih hmem
    | rebind subject f => exact ih (v := { v with subject := subject }) hmem
    | announce reading q =>
      exact ih (v := { v with announced := q :: v.announced }) (List.mem_cons_of_mem _ hmem)
    | expect reading q => exact fun h => ih hmem h.2
    | call kind f refused =>
      intro h
      simp only [Executes] at h
      split at h
      · exact hp _ _ (h.2.1 p hmem)
      · rw [h.2.2.1] at hmem
        cases hmem

theorem demandless_of_rejected {ks : List Kind} {v : View σ Unit}
    (h : Executes (rejected K ks) v s) : demandless ks = true := by
  induction ks generalizing v s with
  | nil => rfl
  | cons k ks ih =>
    cases k with
    | update | rebind | refuse code => exact ih h
    | announce reading =>
      exact absurd h (not_executes_of_announced (v := { v with announced := _ :: v.announced })
        (fun _ _ => id) List.mem_cons_self)
    | expect reading =>
      obtain ⟨hdoubt, hrest⟩ := h
      rw [demandless, Bool.and_eq_true, decide_eq_true_eq]
      exact ⟨hdoubt.2.1.resolve_right (by decide), ih hrest⟩
    | call kind =>
      simp only [rejected, Executes] at h
      rw [shape_rejected] at h
      split at h
      · next s' r hcall =>
        obtain ⟨hcodes, -, hrest⟩ := h
        rw [hcodes, List.isEmpty_nil, Bool.and_true] at hcall
        rw [demandless, hcodes, ih hrest]
        cases hfallible : kind.fallible with
        | false => rfl
        | true => simp [hfallible] at hcall
      · next code hcall =>
        have hempty : (refusals ks).isEmpty = true := by
          by_contra hne
          simp [hne] at hcall
        exact absurd (List.isEmpty_iff.mp hempty) h.1

theorem Binders.names_flush {s : σ} : (∀ p ∈ (b.flush s).names, p) ↔
    (∀ p ∈ b.names, p) ∧ ∀ p ∈ b.pending, p "inst" s := by
  rw [Binders.flush, forall_names_append]
  refine and_congr_right fun _ => ?_
  cases b.pending <;> simp only [Option.map_none, Option.map_some, Option.toList_none,
    Option.toList_some, List.mem_singleton, forall_eq, Option.mem_def, Option.some.injEq,
    forall_eq', reduceCtorEq, List.not_mem_nil, false_implies, implies_true]

theorem stated_adversary {ks : List Kind} {skipping held hopeless : Bool} {n : Nat}
    {b : Binders σ Unit} (hskip : b.skipping = skipping) (hheld : b.held = token held)
    (htime : K.time s = n) (hcont : skipping = true → continues ks = true)
    (hpending : ∀ p ∈ b.pending, reaches ks = true → ∀ s',
      K.time s' = (if !skipping && lands ks then n + 1 else n) → p "inst" s')
    (hdoom : doomed ks skipping hopeless = false)
    (hnames : hopeless = false → reaches ks = true → ∀ p ∈ b.names, p) :
    stated (adversary K ks skipping held n) b s := by
  induction ks generalizing b s skipping held hopeless n with
  | nil => exact hnames hdoom rfl
  | cons k ks ih =>
    cases k with
    | update =>
      refine ih hskip hheld ((K.time_idle s).trans htime) ?_ hpending hdoom hnames
      exact fun h => absurd (hcont h) Bool.false_ne_true
    | rebind =>
      refine ih hskip hheld ((K.time_bind s).trans htime) ?_ hpending hdoom hnames
      exact fun h => absurd (hcont h) Bool.false_ne_true
    | announce reading =>
      refine ih (b := { b with pending := _ }) hskip hheld htime ?_ ?_ hdoom hnames
      · exact fun h => absurd (hcont h) Bool.false_ne_true
      · intro p hp hreach s' hs'
        cases hp
        refine ⟨hreach, fun _ => rfl, ?_⟩
        cases skipping with
        | false => exact hs'
        | true => exact absurd (hcont rfl) Bool.false_ne_true
    | refuse code =>
      simp only [adversary, stated]
      cases skipping with
      | true =>
        rw [if_pos hskip]
        refine ih (b := { b.flush s with skipping := false }) rfl hheld htime
          (fun h => by cases h) ?_ hdoom ?_
        · exact fun p hp => by cases hp
        · intro hh hreach
          exact Binders.names_flush.mpr
            ⟨hnames hh hreach, fun p hp => hpending p hp hreach s htime⟩
      | false =>
        rw [if_neg (by rw [hskip]; decide)]
        exact ih hskip hheld htime (fun h => by cases h) hpending hdoom hnames
    | expect reading =>
      simp only [adversary, stated]
      cases skipping with
      | true =>
        rw [if_pos hskip]
        refine ih hskip hheld htime (fun _ => hcont rfl) hpending ?_ hnames
        simpa [doomed] using hdoom
      | false =>
        rw [if_neg (by rw [hskip]; decide)]
        refine ih (b := { b.flush s with names := _ }) hskip hheld htime
          (fun h => by cases h) ?_ hdoom ?_
        · exact fun p hp => by cases hp
        · intro hh hreach
          rw [Bool.or_eq_false_iff] at hh
          rw [forall_names_snoc]
          have hflushed : ∀ p ∈ (b.flush s).names, p :=
            Binders.names_flush.mpr
              ⟨hnames hh.1 hreach, fun p hp => hpending p hp hreach s htime⟩
          refine ⟨hflushed, ?_⟩
          refine ⟨?_, Or.inr (by rw [hreach]; rfl), fun _ => hheld, fun _ => rfl⟩
          rintro rfl
          exact absurd hh.2 (by decide)
    | call kind =>
      simp only [adversary]
      simp only [doomed] at hdoom
      have hskipping : skipping = false := by
        cases skipping with
        | false => rfl
        | true => exact absurd (hcont rfl) Bool.false_ne_true
      subst hskipping
      cases hpaired : paired kind ks with
      | some code =>
        rw [hpaired, Option.isSome_some, if_pos rfl] at hdoom
        have hreaches : reaches (.call kind :: ks) = (continues ks && reaches ks) := by
          rw [reaches, hpaired]
          rfl
        by_cases hc : continues ks = true
        · rw [hc, Bool.true_and] at hdoom hreaches
          simp only [stated, shape_adversary, hpaired, hc, if_true, true_and]
          refine ih (b := { b with skipping := true }) rfl hheld
            ((K.time_refused s).trans htime) (fun _ => hc) ?_ hdoom ?_
          · intro p hp hreach s' hs'
            refine hpending p hp (hreaches.trans hreach) s' ?_
            rw [lands, hpaired]
            exact hs'
          · exact fun hh hreach => hnames hh (hreaches.trans hreach)
        · simp only [stated, if_neg hc, shape_rejected, hpaired, and_self]
      | none =>
        rw [hpaired, Option.isSome_none, if_neg Bool.false_ne_true] at hdoom
        have hreaches : reaches (.call kind :: ks) = reaches ks := by
          rw [reaches, hpaired]
          rfl
        simp only [stated, shape_adversary, hpaired]
        refine ih (b := { b.flush (K.call s) with held := _ }) hskip ?_
          ((K.time_call s).trans (congrArg _ htime)) (fun h => by cases h) ?_ hdoom ?_
        · rw [hheld]
          cases kind.view <;> cases kind.fallible <;> cases held <;> rfl
        · exact fun p hp => by cases hp
        · intro hh hreach
          refine Binders.names_flush.mpr ⟨hnames hh (hreaches.trans hreach), ?_⟩
          intro p hp
          refine hpending p hp (hreaches.trans hreach) _ ?_
          rw [lands, hpaired, K.time_call, htime]
          rfl

theorem not_executes_of_late {ks : List Kind} {skipping held : Bool} {n : Nat}
    {v : View σ Unit} {p : String → σ → Prop} (htime : K.time s = n)
    (hp : ∀ i s', p i s' → K.time s' = n) (hmem : p ∈ v.announced) :
    ¬ Executes (adversary K ks skipping held n) v s := by
  induction ks generalizing v s skipping held with
  | nil =>
    intro h
    simp only [adversary, Executes] at h
    rw [h] at hmem
    cases hmem
  | cons k ks ih =>
    cases k with
    | update => exact ih ((K.time_idle s).trans htime) hmem
    | refuse code => exact ih htime hmem
    | rebind =>
      exact ih (v := { v with subject := "peer_inst" }) ((K.time_bind s).trans htime) hmem
    | announce reading =>
      exact ih (v := { v with announced := _ :: v.announced }) htime (List.mem_cons_of_mem _ hmem)
    | expect reading => exact fun h => ih htime hmem h.2
    | call kind =>
      simp only [adversary]
      split
      · intro h
        simp only [Executes] at h
        rw [h.2.2.1] at hmem
        cases hmem
      · intro h
        simp only [Executes] at h
        have hlate := hp _ _ (h.2.1 p hmem)
        rw [K.time_call, htime] at hlate
        exact Nat.succ_ne_self n hlate

theorem keeps_of_executes {ks : List Kind} {n : Nat} {v : View σ Unit}
    (htime : K.time s = n)
    (hcont : m.skipping = true → continues ks = true ∧ m.pending = none)
    (hfresh : v.result = token m.held → m.fresh = true)
    (hrebound : m.rebound = true → v.subject ≠ "inst")
    (hseen : m.seen = true → reaches ks = true)
    (hpending : ∀ reading, m.pending = some reading → lands ks = true ∧ ∃ p ∈ v.announced,
      ∀ i s', p i s' → reaches ks = true ∧ (reading.readsState = true → i = "inst"))
    (h : Executes (adversary K ks m.skipping m.held n) v s) : keeps ks m = true := by
  induction ks generalizing m v s n with
  | nil =>
    rw [keeps, Option.isNone_iff_eq_none, Option.eq_none_iff_forall_ne_some]
    exact fun reading hm => absurd (hpending reading hm).1 Bool.false_ne_true
  | cons k ks ih =>
    have hnone (hlands : lands (k :: ks) = false) : m.pending.isNone = true := by
      rw [Option.isNone_iff_eq_none, Option.eq_none_iff_forall_ne_some]
      intro reading hm
      rw [(hpending reading hm).1] at hlands
      cases hlands
    cases k with
    | update =>
      refine ih ((K.time_idle s).trans htime) ?_ hfresh hrebound hseen hpending h
      exact fun hm => absurd (hcont hm).1 Bool.false_ne_true
    | rebind =>
      refine ih (m := { m with rebound := true }) (v := { v with subject := "peer_inst" })
        ((K.time_bind s).trans htime) ?_ hfresh ?_ hseen hpending h
      · exact fun hm => absurd (hcont hm).1 Bool.false_ne_true
      · exact fun _ h => absurd h (by decide : ("peer_inst" : String) ≠ "inst")
    | refuse code =>
      rw [keeps, Bool.and_eq_true, Bool.or_eq_true, Bool.not_eq_true']
      refine ⟨?_, ih (m := { m with skipping := false }) htime (fun hm => by cases hm) hfresh
        hrebound hseen hpending h⟩
      cases hm : m.skipping with
      | false => exact Or.inl rfl
      | true =>
        rw [(hcont hm).2]
        exact Or.inr rfl
    | announce reading =>
      rw [keeps, Bool.and_eq_true]
      refine ⟨hnone rfl, ?_⟩
      cases hlands : lands ks with
      | false =>
        refine absurd h (not_executes_of_late K
          (v := { v with announced := _ :: v.announced }) htime ?_ List.mem_cons_self)
        intro i s' hp
        rw [hp.2.2, hlands]
        rfl
      | true =>
        refine ih (m := { m with pending := some reading })
          (v := { v with announced := _ :: v.announced }) htime ?_ hfresh hrebound hseen ?_ h
        · exact fun hm => absurd (hcont hm).1 Bool.false_ne_true
        · intro r hr
          cases hr
          exact ⟨hlands, _, List.mem_cons_self, fun i s' hp => ⟨hp.1, hp.2.1⟩⟩
    | expect reading =>
      obtain ⟨hdoubt, hrest⟩ := h
      have hpend : ∀ r, m.pending = some r → lands ks = true ∧ ∃ p ∈ v.announced,
          ∀ i s', p i s' → reaches ks = true ∧ (r.readsState = true → i = "inst") := by
        intro r hr
        exact absurd (hpending r hr).1 Bool.false_ne_true
      rw [keeps]
      split
      · rw [Bool.and_eq_true, Bool.or_eq_true]
        exact ⟨Or.inr (hnone rfl), ih htime hcont hfresh hrebound hseen hpend hrest⟩
      · next hreading =>
        have hkept := hdoubt.2.1.resolve_left hreading
        rw [Bool.and_eq_true, Bool.not_eq_true'] at hkept
        rw [Bool.and_eq_true, Bool.and_eq_true, Bool.and_eq_true, Bool.not_eq_true']
        refine ⟨⟨⟨hkept.1, hnone rfl⟩, ?_⟩, ?_⟩
        · rw [Mark.reads, Bool.and_eq_true, Bool.or_eq_true, Bool.or_eq_true, Bool.not_eq_true',
            Bool.not_eq_true']
          constructor
          · cases hr : reading.readsResult with
            | false => exact Or.inl rfl
            | true => exact Or.inr (hfresh (hdoubt.2.2.1 hr))
          · cases hr : reading.readsState with
            | false => exact Or.inl rfl
            | true =>
              refine Or.inr ?_
              rw [Bool.not_eq_true', Bool.eq_false_iff]
              exact fun hm => hrebound hm (hdoubt.2.2.2 hr)
        · exact ih (m := { m with seen := true }) htime hcont hfresh hrebound (fun _ => hkept.2)
            hpend hrest
    | call kind =>
      have hskipping : m.skipping = false := by
        rw [Bool.eq_false_iff]
        exact fun hm => absurd (hcont hm).1 Bool.false_ne_true
      rw [keeps]
      simp only [adversary] at h
      cases hpaired : paired kind ks with
      | some code =>
        rw [hpaired] at h
        have hreaches : reaches (.call kind :: ks) = (continues ks && reaches ks) := by
          rw [reaches, hpaired]
          rfl
        have hlands : lands (.call kind :: ks) = false := by
          rw [lands, hpaired]
          rfl
        simp only [Executes] at h
        obtain ⟨hne, hcodes, hv, hrest⟩ := h
        have hmem : ∀ c ∈ refusals ks, code = c := by
          intro c hc
          refine hcodes c ?_
          split
          · rwa [shape_adversary]
          · rwa [shape_rejected]
        have hall : (refusals ks).all (· == code) = true :=
          List.all_eq_true.mpr fun c hc => beq_iff_eq.mpr (hmem c hc).symm
        simp only [hall, hnone hlands, Bool.true_and]
        split
        · next hc =>
          rw [if_pos hc] at hrest
          refine ih (m := { m with skipping := true, fresh := !m.held })
            (v := { v with result := none }) ((K.time_refused s).trans htime) ?_ ?_ hrebound ?_ ?_
            hrest
          · exact fun _ => ⟨hc, Option.isNone_iff_eq_none.mp (hnone hlands)⟩
          · intro hresult
            cases hm : m.held with
            | false => rfl
            | true =>
              rw [hm] at hresult
              cases hresult
          · intro hm
            have hr := hseen hm
            rwa [hreaches, hc, Bool.true_and] at hr
          · intro r hr
            rw [Option.isNone_iff_eq_none.mp (hnone hlands)] at hr
            cases hr
        · next hc =>
          rw [if_neg hc] at hrest
          rw [demandless_of_rejected K hrest, Bool.and_true, Bool.not_eq_true', Bool.eq_false_iff]
          intro hm
          have hr := hseen hm
          rw [hreaches, Bool.and_eq_true] at hr
          exact hc hr.1
      | none =>
        rw [hpaired] at h
        have hreaches : reaches (.call kind :: ks) = reaches ks := by
          rw [reaches, hpaired]
          rfl
        simp only [Executes, shape_adversary] at h
        obtain ⟨hcodes, hannounced, hrest⟩ := h
        simp only [hcodes, List.isEmpty_nil, Bool.true_and, Bool.and_eq_true]
        constructor
        · rw [Mark.flushes, Option.all_eq_true]
          intro reading hm
          obtain ⟨-, p, hp, hholds⟩ := hpending reading hm
          have hinst := (hholds _ _ (hannounced p hp)).2
          rw [Bool.or_eq_true, Bool.not_eq_true', Bool.not_eq_true']
          cases hr : reading.readsState with
          | false => exact Or.inl rfl
          | true => exact Or.inr (Bool.eq_false_iff.mpr fun hm' => hrebound hm' (hinst hr))
        · refine ih (m := { m with
              held := kind.view || (kind.fallible && m.held)
              fresh := kind.view || !(kind.fallible && m.held)
              pending := none
              seen := m.seen || m.pending.isSome })
            (v := { v with result := token kind.view, announced := [] })
            ((K.time_call s).trans (congrArg (· + 1) htime)) ?_ ?_ hrebound ?_
            (fun _ hm => by cases hm) hrest
          · exact fun hm => absurd (hskipping.symm.trans hm) Bool.false_ne_true
          · intro hresult
            cases hview : kind.view with
            | true => rfl
            | false =>
              rw [hview] at hresult
              cases hheld : (kind.fallible && m.held) with
              | false => rfl
              | true =>
                rw [hheld] at hresult
                cases hresult
          · intro hm
            rw [Bool.or_eq_true] at hm
            rcases hm with hm | hm
            · exact hreaches.symm.trans (hseen hm)
            · obtain ⟨reading, hm⟩ := Option.isSome_iff_exists.mp hm
              obtain ⟨-, p, hp, hholds⟩ := hpending reading hm
              exact hreaches.symm.trans (hholds _ _ (hannounced p hp)).1

end CambrianLang.Spec
