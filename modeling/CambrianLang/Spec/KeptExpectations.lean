/-
  **When a statement keeps every expectation** (`docs/LANGUAGE.md`: every `expect` that
  follows a `call` is kept).

  The condition reads nothing but the kinds of the events.  Where it holds, the
  proposition is the run of the events in order.
-/
import CambrianLang.Spec.Clauses

namespace CambrianLang.Spec

open Scripts

variable {σ V : Type}

/-! ### The condition -/

/-- What is known where an event is reached: whether the way leads to the throw of a failed
    call, whether a `_result` is bound and is that of the last call, whether the entity
    under test was deployed again, the announcement that waits for a call, and whether
    anything was expected before. -/
structure Mark where
  skipping : Bool
  held : Bool
  fresh : Bool
  rebound : Bool
  pending : Option Reading
  seen : Bool
deriving DecidableEq

/-- Nothing is demanded. -/
def demandless : List Kind → Bool
  | [] => true
  | .update :: ks | .rebind :: ks | .refuse _ :: ks => demandless ks
  | .expect reading :: ks => reading = .nothing && demandless ks
  | .announce _ :: _ => false
  | .call kind :: ks => !kind.fallible && refusals ks = [] && demandless ks

/-- The statement and the run read the same. -/
def Mark.reads (m : Mark) (reading : Reading) : Bool :=
  (!reading.readsResult || m.fresh) && (!reading.readsState || !m.rebound)

/-- The waiting announcement is about the instance the statement reads. -/
def Mark.flushes (m : Mark) : Bool :=
  m.pending.all fun reading => !reading.readsState || !m.rebound

/-- Every expectation of the events is kept.  The events after the last call of the
    statement, which is one that has to fail, may demand nothing; nor may those before it. -/
def keeps : List Kind → Mark → Bool
  | [], m => m.pending.isNone
  | .update :: ks, m => keeps ks m
  | .rebind :: ks, m => keeps ks { m with rebound := true }
  | .expect reading :: ks, m =>
      if reading = .nothing then (m.skipping || m.pending.isNone) && keeps ks m
      else !m.skipping && m.pending.isNone && m.reads reading && keeps ks { m with seen := true }
  | .announce reading :: ks, m => m.pending.isNone && keeps ks { m with pending := some reading }
  | .refuse _ :: ks, m =>
      (!m.skipping || m.pending.isNone) && keeps ks { m with skipping := false }
  | .call kind :: ks, m =>
      match paired kind ks with
      | none =>
          (refusals ks).isEmpty && m.flushes &&
          keeps ks { m with
            held := kind.view || (kind.fallible && m.held)
            fresh := kind.view || !(kind.fallible && m.held)
            pending := none
            seen := m.seen || m.pending.isSome }
      | some code =>
          (refusals ks).all (· == code) && m.pending.isNone &&
          (if continues ks then keeps ks { m with skipping := true, fresh := !m.held }
           else !m.seen && demandless ks)

/-- An expectation that is `False` is kept, so that neither side can hold. -/
def doomed : List Kind → Bool → Bool → Bool
  | [], _, hopeless => hopeless
  | .update :: ks, skipping, hopeless => doomed ks skipping hopeless
  | .rebind :: ks, skipping, hopeless => doomed ks skipping hopeless
  | .announce _ :: ks, skipping, hopeless => doomed ks skipping hopeless
  | .expect reading :: ks, skipping, hopeless =>
      doomed ks skipping (hopeless || (reading = .absurd && !skipping))
  | .refuse _ :: ks, _, hopeless => doomed ks false hopeless
  | .call kind :: ks, skipping, hopeless =>
      if (paired kind ks).isSome then continues ks && doomed ks true hopeless
      else doomed ks skipping hopeless


/-! ### Sufficiency -/

/-- The binders of the statement and what the run sees, as the mark has it. -/
structure Tracks (m : Mark) (b : Binders σ V) (v : View σ V) : Prop where
  skipping : b.skipping = m.skipping
  held : b.held.isSome = m.held
  fresh : m.fresh = true → v.result = b.held
  rebound : m.rebound = false → v.subject = "inst"
  announced : v.announced = b.pending.toList
  nothing : m.pending = none → b.pending = none
  promise : ∀ reading, m.pending = some reading → ∃ p, b.pending = some p ∧
    (reading.readsState = false → ∀ i i' s, p i s ↔ p i' s)
  seen : m.seen = false → ∀ p ∈ b.names, p

variable {m : Mark} {b : Binders σ V} {v : View σ V} {cs : List (Clause σ V)} {s : σ}

theorem executes_of_demandless (h : demandless (cs.map Step.shape) = true)
    (hlaw : ∀ c ∈ cs, Lawful c) (hv : v.announced = []) : Executes cs v s := by
  induction cs generalizing v s with
  | nil => exact hv
  | cons c cs ih =>
    rw [List.forall_mem_cons] at hlaw
    obtain ⟨hc, hcs⟩ := hlaw
    cases c with
    | update f => exact ih h hcs hv
    | rebind subject f => exact ih h hcs hv
    | refuse code => exact ih h hcs hv
    | announce reading p => cases h
    | expect reading p =>
      simp only [List.map_cons, Step.shape, demandless, Bool.and_eq_true, decide_eq_true_eq] at h
      exact ⟨hc.nothing h.1 _ _ _, ih h.2 hcs hv⟩
    | call kind f refused =>
      simp only [List.map_cons, Step.shape, demandless, Bool.and_eq_true, decide_eq_true_eq,
        Bool.not_eq_true'] at h
      obtain ⟨⟨htotal, hcodes⟩, hrest⟩ := h
      obtain ⟨⟨s', r⟩, hr⟩ := (hc s).1 htotal
      simp only [Executes, hr, hcodes]
      refine ⟨trivial, ?_, ih hrest hcs rfl⟩
      rw [hv]
      exact fun p hp => absurd hp List.not_mem_nil

theorem Tracks.pending_none (h : Tracks m b v) (hm : m.pending.isNone = true) :
    b.pending = none ∧ v.announced = [] := by
  have hb : b.pending = none := h.nothing (Option.isNone_iff_eq_none.mp hm)
  refine ⟨hb, ?_⟩
  rw [h.announced, hb]
  rfl

theorem Binders.flush_of_none (hb : b.pending = none) (s : σ) : b.flush s = b := by
  cases b
  cases hb
  simp [Binders.flush]

theorem forall_names_snoc {ps : List Prop} {q : Prop} : (∀ p ∈ ps ++ [q], p) ↔ (∀ p ∈ ps, p) ∧ q := by
  simp only [List.mem_append, List.mem_singleton, or_imp, forall_and, forall_eq]

theorem forall_names_append {ps qs : List Prop} :
    (∀ p ∈ ps ++ qs, p) ↔ (∀ p ∈ ps, p) ∧ ∀ p ∈ qs, p := by
  simp only [List.mem_append, or_imp, forall_and]

theorem reads_agree {reading : Reading} {p : String → Option V → σ → Prop} (h : Tracks m b v)
    (hp : reading.Allows p) (hreads : m.reads reading = true) :
    p "inst" b.held s ↔ p v.subject v.result s := by
  simp only [Mark.reads, Bool.and_eq_true, Bool.or_eq_true, Bool.not_eq_true'] at hreads
  obtain ⟨hresult, hstate⟩ := hreads
  have h1 : p "inst" b.held s ↔ p "inst" v.result s := by
    rcases hresult with hr | hr
    · exact hp.result hr _ _ _ _
    · rw [h.fresh hr]
  have h2 : p "inst" v.result s ↔ p v.subject v.result s := by
    rcases hstate with hs | hs
    · exact hp.state hs _ _ _ _
    · rw [h.rebound hs]
  exact h1.trans h2


theorem Tracks.named (ht : Tracks m b v) {q : Prop} (hq : m.seen = false → q) :
    Tracks m { b with names := b.names ++ [q] } v := by
  refine { ht with seen := ?_ }
  intro hm
  rw [forall_names_snoc]
  exact ⟨ht.seen hm, hq hm⟩

theorem Tracks.named_seen (ht : Tracks m b v) (q : Prop) :
    Tracks { m with seen := true } { b with names := b.names ++ [q] } v :=
  { ht with seen := fun hm => by cases hm }

theorem Tracks.names_flush (ht : Tracks m b v)
    (h : m.flushes = true) (s' : σ) :
    (∀ p ∈ (b.flush s').names, p) ↔
      (∀ p ∈ b.names, p) ∧ ∀ p ∈ v.announced, p v.subject s' := by
  rw [Binders.flush, forall_names_append, ht.announced]
  cases hp : m.pending with
  | none =>
    rw [ht.nothing hp]
    simp
  | some reading =>
    obtain ⟨p, hb, hlaw⟩ := ht.promise reading hp
    rw [hb]
    simp only [Option.map_some, Option.toList_some, List.mem_singleton, forall_eq]
    have hagree : p "inst" s' ↔ p v.subject s' := by
      rw [Mark.flushes, hp, Option.all_some, Bool.or_eq_true, Bool.not_eq_true',
        Bool.not_eq_true'] at h
      rcases h with hstate | hstate
      · exact hlaw hstate _ _ _
      · rw [ht.rebound hstate]
    rw [hagree]

theorem Tracks.called (ht : Tracks m b v) (kind : CallKind) {r : Option V}
    (hr : r.isSome = kind.view) (s' : σ) :
    Tracks { m with
        held := kind.view || (kind.fallible && m.held)
        fresh := kind.view || !(kind.fallible && m.held)
        pending := none
        seen := m.seen || m.pending.isSome }
      { b.flush s' with held := if kind.fallible then r.or b.held else r }
      { v with result := r, announced := [] } := by
  have hheld : (if kind.fallible then r.or b.held else r).isSome =
      (kind.view || (kind.fallible && m.held)) := by
    rw [← ht.held, ← hr]
    cases kind.fallible <;> cases r <;> simp
  refine ⟨ht.skipping, hheld, ?_, ht.rebound, rfl, fun _ => rfl, fun _ hm => (by cases hm), ?_⟩
  · intro hfresh
    rw [← hr, ← ht.held] at hfresh
    cases r with
    | none =>
      cases hf : kind.fallible with
      | false => rfl
      | true =>
        rw [hf] at hfresh
        cases hb : b.held with
        | none => rfl
        | some u =>
          rw [hb] at hfresh
          cases hfresh
    | some u =>
      cases kind.fallible <;> rfl
  · intro hm
    rw [Bool.or_eq_false_iff, Option.isSome_eq_false_iff, Option.isNone_iff_eq_none] at hm
    obtain ⟨hseen, hpending⟩ := hm
    rw [Binders.flush_of_none (ht.nothing hpending)]
    exact ht.seen hseen

theorem Tracks.refused (ht : Tracks m b v) (hpending : m.pending.isNone = true) :
    Tracks { m with skipping := true, fresh := !m.held } { b with skipping := true }
      { v with result := none } := by
  obtain ⟨hb, hv⟩ := ht.pending_none hpending
  refine { ht with skipping := rfl, fresh := ?_ }
  intro hfresh
  rw [← ht.held, Bool.not_eq_true', Option.isSome_eq_false_iff, Option.isNone_iff_eq_none]
    at hfresh
  exact hfresh.symm

theorem paired_some {kind : CallKind} {ks : List Kind} {code : Nat}
    (h : paired kind ks = some code) : kind.fallible = true ∧ code ∈ refusals ks := by
  rw [paired] at h
  split at h
  · next hfallible => exact ⟨hfallible, List.mem_of_head? h⟩
  · cases h

/-- The codes agree with the one the call is paired with. -/
theorem forall_codes_iff {n code : Nat} {codes : List Nat} (hmem : code ∈ codes)
    (h : codes.all (· == code) = true) : (∀ c ∈ codes, n = c) ↔ n = code := by
  constructor
  · exact fun hall => hall code hmem
  · rintro rfl c hc
    exact (beq_iff_eq.mp (List.all_eq_true.mp h c hc)).symm

theorem stated_iff (h : keeps (cs.map Step.shape) m = true) (hlaw : ∀ c ∈ cs, Lawful c)
    (ht : Tracks m b v) : stated cs b s ↔ (∀ p ∈ b.names, p) ∧ Executes cs v s := by
  induction cs generalizing m b v s with
  | nil =>
    obtain ⟨-, hv⟩ := ht.pending_none h
    exact (and_iff_left hv).symm
  | cons c cs ih =>
    rw [List.forall_mem_cons] at hlaw
    obtain ⟨hc, hcs⟩ := hlaw
    cases c with
    | update f => exact ih h hcs ht
    | rebind subject f =>
      exact ih h hcs { ht with rebound := fun hm => by cases hm }
    | refuse code =>
      simp only [List.map_cons, Step.shape, keeps, Bool.and_eq_true, Bool.or_eq_true,
        Bool.not_eq_true'] at h
      obtain ⟨hpending, hrest⟩ := h
      by_cases hskip : b.skipping = true
      · rw [ht.skipping] at hskip
        obtain ⟨hb, -⟩ := ht.pending_none (hpending.resolve_left (by rw [hskip]; decide))
        rw [← ht.skipping] at hskip
        simp only [stated, if_pos hskip, b.flush_of_none hb]
        exact ih hrest hcs { ht with skipping := rfl }
      · simp only [stated, if_neg hskip]
        rw [Bool.not_eq_true] at hskip
        exact ih hrest hcs { ht with skipping := hskip }
    | announce reading p =>
      simp only [List.map_cons, Step.shape, keeps, Bool.and_eq_true] at h
      obtain ⟨hpending, hrest⟩ := h
      obtain ⟨hb, hv⟩ := ht.pending_none hpending
      refine ih hrest hcs { ht with announced := ?_, nothing := ?_, promise := ?_ }
      · rw [hv]
        rfl
      · intro hm
        cases hm
      · intro r hr
        cases hr
        exact ⟨p, rfl, hc⟩
    | expect reading p =>
      simp only [List.map_cons, Step.shape, keeps] at h
      by_cases hnothing : reading = .nothing
      · rw [if_pos hnothing, Bool.and_eq_true, Bool.or_eq_true] at h
        obtain ⟨hpending, hrest⟩ := h
        have hp := hc.nothing hnothing
        by_cases hskip : b.skipping = true
        · simp only [stated, if_pos hskip, Executes]
          rw [ih hrest hcs ht, and_iff_right (hp _ _ _)]
        · have hm : ¬ m.skipping = true := by rwa [← ht.skipping]
          obtain ⟨hb, -⟩ := ht.pending_none (hpending.resolve_left hm)
          simp only [stated, if_neg hskip, b.flush_of_none hb, Executes]
          rw [ih hrest hcs (ht.named fun _ => hp _ _ _), forall_names_snoc,
            and_iff_left (hp _ _ _), and_iff_right (hp _ _ _)]
      · rw [if_neg hnothing, Bool.and_eq_true, Bool.and_eq_true, Bool.and_eq_true,
          Bool.not_eq_true'] at h
        obtain ⟨⟨⟨hskip, hpending⟩, hreads⟩, hrest⟩ := h
        rw [← ht.skipping] at hskip
        obtain ⟨hb, -⟩ := ht.pending_none hpending
        have hskip' : ¬ b.skipping = true := by rw [hskip]; decide
        simp only [stated, if_neg hskip', b.flush_of_none hb, Executes]
        rw [ih hrest hcs (ht.named_seen _), forall_names_snoc, reads_agree ht hc hreads,
          and_assoc]
    | call kind f refused =>
      simp only [List.map_cons, Step.shape, keeps] at h
      simp only [stated, Executes]
      obtain ⟨htotal, hview⟩ := hc s
      cases hpaired : paired kind (cs.map Step.shape) with
      | none =>
        rw [hpaired] at h
        simp only [Bool.and_eq_true, List.isEmpty_iff] at h
        obtain ⟨⟨hcodes, hflush⟩, hrest⟩ := h
        rw [hcodes]
        cases hf : f s with
        | error n => simp
        | ok r =>
          obtain ⟨s', r⟩ := r
          have hsucceeded := ih (s := s') hrest hcs (ht.called kind (hview _ hf) s')
          rw [ht.names_flush hflush, and_assoc] at hsucceeded
          simpa only [true_and] using hsucceeded
      | some code =>
        rw [hpaired] at h
        simp only [Bool.and_eq_true] at h
        obtain ⟨⟨hall, hpending⟩, hrest⟩ := h
        obtain ⟨hb, hv⟩ := ht.pending_none hpending
        obtain ⟨-, hmem⟩ := paired_some hpaired
        have hne : refusals (cs.map Step.shape) ≠ [] := List.ne_nil_of_mem hmem
        cases hf : f s with
        | ok r =>
          simp only [hne, false_and, and_false]
        | error n =>
          simp only [forall_codes_iff hmem hall, hne, ne_eq, not_false_eq_true, true_and, hv]
          by_cases hcont : continues (cs.map Step.shape) = true
          · rw [if_pos hcont] at hrest ⊢
            rw [ih hrest hcs (ht.refused hpending), hv]
            exact and_left_comm
          · rw [if_neg hcont] at hrest ⊢
            simp only [Bool.and_eq_true, Bool.not_eq_true'] at hrest
            obtain ⟨hseen, hquiet⟩ := hrest
            have hexec : Executes cs { v with result := none, announced := [] } (refused s) :=
              executes_of_demandless hquiet hcs rfl
            rw [and_iff_left trivial, and_iff_left hexec, and_iff_right (ht.seen hseen)]

/-! ### False statements -/

theorem not_executes_of_absurd (hlaw : ∀ c ∈ cs, Lawful c)
    (h : .expect .absurd ∈ cs.map Step.shape) : ¬ Executes cs v s := by
  induction cs generalizing v s with
  | nil => cases h
  | cons c cs ih =>
    rw [List.forall_mem_cons] at hlaw
    obtain ⟨hc, hcs⟩ := hlaw
    rw [List.map_cons, List.mem_cons] at h
    cases c with
    | update f | rebind subject f | refuse code | announce reading p =>
      exact ih hcs (h.resolve_left (by simp))
    | expect reading p =>
      rintro ⟨hp, hrest⟩
      rcases h with h | h
      · cases h
        exact hc.absurd rfl _ _ _ hp
      · exact ih hcs h hrest
    | call kind f refused =>
      have hrest := h.resolve_left (by simp)
      intro hexec
      simp only [Executes] at hexec
      split at hexec
      · exact ih hcs hrest hexec.2.2
      · exact ih hcs hrest hexec.2.2.2

theorem absurd_of_doomed {ks : List Kind} {skipping hopeless : Bool}
    (h : doomed ks skipping hopeless = true) :
    hopeless = true ∨ .expect .absurd ∈ ks := by
  induction ks generalizing skipping hopeless with
  | nil => exact Or.inl h
  | cons k ks ih =>
    cases k with
    | update | rebind | announce reading | refuse code =>
      exact (ih h).imp_right (List.mem_cons_of_mem _)
    | expect reading =>
      rcases ih h with h | h
      · rw [Bool.or_eq_true, Bool.and_eq_true, decide_eq_true_eq] at h
        rcases h with h | ⟨rfl, -⟩
        · exact Or.inl h
        · exact Or.inr List.mem_cons_self
      · exact Or.inr (List.mem_cons_of_mem _ h)
    | call kind =>
      rw [doomed] at h
      split at h
      · rw [Bool.and_eq_true] at h
        exact (ih h.2).imp_right (List.mem_cons_of_mem _)
      · exact (ih h).imp_right (List.mem_cons_of_mem _)

theorem not_stated_of_doomed {hopeless : Bool} (hlaw : ∀ c ∈ cs, Lawful c)
    (h : doomed (cs.map Step.shape) b.skipping hopeless = true)
    (hnames : hopeless = true → ¬ ∀ p ∈ b.names, p) : ¬ stated cs b s := by
  induction cs generalizing b s hopeless with
  | nil => exact hnames h
  | cons c cs ih =>
    rw [List.forall_mem_cons] at hlaw
    obtain ⟨hc, hcs⟩ := hlaw
    have hflush : ∀ s', hopeless = true → ¬ ∀ p ∈ (b.flush s').names, p := by
      intro s' hh hall
      exact hnames hh (forall_names_append.mp hall).1
    cases c with
    | update f | rebind subject f => exact ih hcs h hnames
    | announce reading p => exact ih (b := { b with pending := some p }) hcs h hnames
    | refuse code =>
      rw [stated]
      split
      · exact ih (b := { b.flush s with skipping := false }) hcs h (hflush s)
      · next hskip =>
        rw [Bool.not_eq_true] at hskip
        refine ih hcs ?_ hnames
        rw [hskip]
        exact h
    | expect reading p =>
      simp only [List.map_cons, Step.shape, doomed] at h
      rw [stated]
      split
      · next hskip =>
        rw [hskip, Bool.not_true, Bool.and_false, Bool.or_false] at h
        refine ih hcs ?_ hnames
        rw [hskip]
        exact h
      · refine ih (b := { b.flush s with names := (b.flush s).names ++ [p "inst" b.held s] }) hcs h ?_
        intro hh hall
        rw [forall_names_snoc] at hall
        rw [Bool.or_eq_true, Bool.and_eq_true, decide_eq_true_eq] at hh
        rcases hh with hh | ⟨rfl, -⟩
        · exact hflush s hh hall.1
        · exact hc.absurd rfl _ _ _ hall.2
    | call kind f refused =>
      simp only [List.map_cons, Step.shape, doomed] at h
      simp only [stated]
      cases hpaired : paired kind (cs.map Step.shape) with
      | some code =>
        rw [hpaired, Option.isSome_some, if_pos rfl, Bool.and_eq_true] at h
        cases hf : f s with
        | ok r => exact id
        | error n =>
          rintro ⟨-, hrest⟩
          rw [if_pos h.1] at hrest
          exact ih (b := { b with skipping := true }) hcs h.2 hnames hrest
      | none =>
        rw [hpaired, Option.isSome_none, if_neg Bool.false_ne_true] at h
        cases hf : f s with
        | error n => exact id
        | ok r =>
          obtain ⟨s', r⟩ := r
          exact ih (b := { b.flush s' with held := if kind.fallible then r.or b.held else r })
            hcs h (hflush s')

end CambrianLang.Spec
