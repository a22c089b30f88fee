/-
  **The identities of the instances in a Lean statement**
  (`codegen/lean/evm/invariant.rs`).

  The statement of a multi-entity invariant binds the identity of every instance.  A
  pin on another instance reads the binder of that instance, so the binders are put in
  an order of the pins; where none is ready, the first one left is taken.  That happens
  when an instance is pinned to itself, through any member, and an instance whose pins
  lead there can then come before one that it reads.
-/
import CambrianLang.Invariants.DeployOrder
import CambrianLang.Layout.Agreement

namespace CambrianLang.Invariants

open Ast TopoSort

/-! ### Binders -/

/-- A field of an identity as the statement has it. -/
inductive BinderTerm where
  | address (entity inst : String)
  | expr (e : Expr)
  | default

def pinnedFields (inst : Deployable) : List String := inst.init.map (·.1)

/-- One target of a `*` specification. -/
def addForallField (inst : Deployable) (fields : List String) : Authored.ForallTarget → List String
  | .stateField f =>
      if (pinnedFields inst).contains f || fields.contains f then fields
      else if inst.entity.members.any (·.name == f) then fields ++ [f]
      else fields
  | .context _ _ => fields

/-- The fields that `resolve_forall_init` quantifies over. -/
def forallFields (inst : Deployable) : List String :=
  inst.forallState.targets.foldl (addForallField inst)
    (if inst.forallState.allState then
      (inst.entity.members.map (·.name)).filter (!(pinnedFields inst).contains ·) else [])

/-- The quantified variable of a field. -/
def forallVar (inst : Deployable) (field : String) : String := inst.name ++ "_" ++ field

/-- The pins of an instance and those on its quantified variables. -/
def effInit (inst : Deployable) : List (String × Expr) :=
  inst.init ++ (forallFields inst).map fun f => (f, .ident (forallVar inst f))

section Binders

variable (insts : List Deployable)

/-- `sibling_pin_term`. -/
def siblingPinTerm (siblings : List Deployable) (e : Expr) : Option BinderTerm :=
  (pinnedName e).bind fun n =>
    (siblings.find? (·.name == n)).map fun s => .address s.entity.name s.name

/-- The term of an identity member in `identity_field_inits`. -/
def identityTerm (inst : Deployable) (m : Member) : BinderTerm :=
  match findPin (effInit inst) m.name with
  | some e => (siblingPinTerm (insts.filter (·.name != inst.name)) e).getD (.expr e)
  | none => .default

/-- The instances that the pins of an instance name. -/
def declDeps (i : ℕ) : List ℕ :=
  match insts[i]? with
  | some inst => inst.init.filterMap fun p => (pinnedName p.2).bind (namePosition insts)
  | none => []

def readyToDeclare (placed : List ℕ) (i : ℕ) : Bool :=
  decide (i ∉ placed) && (declDeps insts i).all fun d => decide (d ∈ placed)

/-- The next instance: one whose dependencies are placed, or the first one left. -/
def nextDeclared (placed : List ℕ) : Option ℕ :=
  ((List.range insts.length).find? (readyToDeclare insts placed)).or
    ((List.range insts.length).find? fun i => decide (i ∉ placed))

def declLoop : ℕ → List ℕ → List ℕ
  | 0, placed => placed
  | fuel + 1, placed =>
      match nextDeclared insts placed with
      | some i => declLoop fuel (placed ++ [i])
      | none => placed

/-- `instance_decl_order`. -/
def instanceDeclOrder : List ℕ := declLoop insts insts.length []

/-- Every instance is bound once, a pin on an instance reads the binder of that instance and stands
behind it, and nothing else reads a binder. -/
structure BindsSoundly : Prop where
  once : (instanceDeclOrder insts).Perm (List.range insts.length)
  bound : ∀ pre i post, instanceDeclOrder insts = pre ++ i :: post →
    ∀ inst, insts[i]? = some inst → ∀ m ∈ inst.entity.members, m.isIdentity = true →
      ∀ sibling j, findPin inst.init m.name = some (.ident sibling) →
        namePosition insts sibling = some j →
        j ∈ pre ∧ ∃ other, insts[j]? = some other ∧
          identityTerm insts inst m = .address other.entity.name sibling
  reads : ∀ inst ∈ insts, ∀ m ∈ inst.entity.members, m.isIdentity = true →
    ∀ entity name, identityTerm insts inst m = .address entity name →
      findPin inst.init m.name = some (.ident name)

/-- The pins lead from an instance to one that is pinned to itself, through instances declared after
`i` only. -/
inductive Stuck (i : ℕ) : ℕ → Prop
  | self {x : ℕ} : i < x → x ∈ declDeps insts x → Stuck i x
  | step {x y : ℕ} : i < x → y ∈ declDeps insts x → Stuck i y → Stuck i x

/-- No identity member is pinned to an instance from which the pins lead to one that is pinned to
itself. -/
def NoStuckIdentity : Prop :=
  ∀ i inst, insts[i]? = some inst → ∀ m ∈ inst.entity.members, m.isIdentity = true →
    ∀ sibling j, findPin inst.init m.name = some (.ident sibling) →
      namePosition insts sibling = some j → ¬ Stuck insts i j

/-- No quantified variable of an identity member has the name of an instance. -/
def NoCapture : Prop :=
  ∀ inst ∈ insts, ∀ m ∈ inst.entity.members, m.isIdentity = true →
    m.name ∈ forallFields inst → ∀ other ∈ insts, other.name ≠ forallVar inst m.name

end Binders

/-! ### The loop -/

section Loop

variable {insts : List Deployable}

/-- A list that the loop comes to. -/
inductive Built (insts : List Deployable) : List ℕ → Prop
  | nil : Built insts []
  | snoc {placed : List ℕ} {i : ℕ} : Built insts placed → nextDeclared insts placed = some i →
      Built insts (placed ++ [i])

theorem nextDeclared_spec {placed : List ℕ} {i : ℕ} (h : nextDeclared insts placed = some i) :
    i < insts.length ∧ i ∉ placed ∧
      ((∀ d ∈ declDeps insts i, d ∈ placed) ∨
        (∀ k < insts.length, k ∉ placed → ∃ d ∈ declDeps insts k, d ∉ placed) ∧
          ∀ k < i, k ∈ placed) := by
  rcases Option.or_eq_some_iff.mp h with hready | ⟨hnone, hfirst⟩
  · have hlt := List.mem_range.mp (List.mem_of_find?_eq_some hready)
    have hi := List.find?_some hready
    rw [readyToDeclare, Bool.and_eq_true, decide_eq_true_eq, List.all_eq_true] at hi
    exact ⟨hlt, hi.1, Or.inl fun d hd => of_decide_eq_true (hi.2 d hd)⟩
  · have hlt := List.mem_range.mp (List.mem_of_find?_eq_some hfirst)
    have hi : i ∉ placed := by
      have hfound := List.find?_some hfirst
      exact of_decide_eq_true hfound
    refine ⟨hlt, hi, Or.inr ⟨fun k hk hnot => ?_, fun k hk => ?_⟩⟩
    · have hstuck := List.find?_eq_none.mp hnone k (List.mem_range.mpr hk)
      by_contra hall
      refine hstuck ?_
      rw [readyToDeclare, Bool.and_eq_true, decide_eq_true_eq, List.all_eq_true]
      refine ⟨hnot, fun d hd => decide_eq_true ?_⟩
      by_contra hmiss
      exact hall ⟨d, hd, hmiss⟩
    · by_contra hnot
      obtain ⟨-, j, hj, hget, hbefore⟩ := List.find?_eq_some_iff_getElem.mp hfirst
      rw [List.getElem_range] at hget
      subst hget
      have hk' := hbefore k hk
      rw [List.getElem_range] at hk'
      simp [hnot] at hk'

theorem Built.nodup {placed : List ℕ} (h : Built insts placed) :
    placed.Nodup ∧ ∀ i ∈ placed, i < insts.length := by
  induction h with
  | nil => exact ⟨List.nodup_nil, fun _ h => by cases h⟩
  | snoc h hnext ih =>
    obtain ⟨hlt, hnot, -⟩ := nextDeclared_spec hnext
    refine ⟨List.nodup_append.mpr ⟨ih.1, List.nodup_singleton _, ?_⟩, ?_⟩
    · rintro a ha b hb rfl
      exact hnot (List.mem_singleton.mp hb ▸ ha)
    · intro i hi
      rcases List.mem_append.mp hi with hi | hi
      · exact ih.2 i hi
      · rw [List.mem_singleton.mp hi]
        exact hlt

theorem built_declLoop (fuel : ℕ) : ∀ {placed : List ℕ}, Built insts placed →
    placed.length + fuel = insts.length →
    Built insts (declLoop insts fuel placed) ∧
      (declLoop insts fuel placed).length = insts.length := by
  induction fuel with
  | zero => exact fun h hlen => ⟨h, hlen⟩
  | succ fuel ih =>
    intro placed h hlen
    rw [declLoop]
    cases hnext : nextDeclared insts placed with
    | some i =>
      refine ih (.snoc h hnext) ?_
      rw [List.length_append, List.length_singleton]
      omega
    | none =>
      exfalso
      rw [nextDeclared, Option.or_eq_none_iff] at hnext
      have hall : List.range insts.length ⊆ placed := by
        intro i hi
        have hplaced := List.find?_eq_none.mp hnext.2 i hi
        rw [decide_eq_true_eq, not_not] at hplaced
        exact hplaced
      have hle := (List.subperm_of_subset List.nodup_range hall).length_le
      rw [List.length_range] at hle
      omega

theorem built_instanceDeclOrder :
    Built insts (instanceDeclOrder insts) ∧
      (instanceDeclOrder insts).Perm (List.range insts.length) := by
  have hnil : Built insts [] := .nil
  obtain ⟨hbuilt, hlen⟩ := built_declLoop insts.length hnil (Nat.zero_add _)
  refine ⟨hbuilt, ?_⟩
  have hsub : instanceDeclOrder insts ⊆ List.range insts.length :=
    fun i hi => List.mem_range.mpr (hbuilt.nodup.2 i hi)
  refine (List.subperm_of_subset hbuilt.nodup.1 hsub).perm_of_length_le ?_
  rw [List.length_range]
  exact Nat.le_of_eq hlen.symm

theorem Built.split {order : List ℕ} (h : Built insts order) : ∀ {pre post : List ℕ} {i : ℕ},
    order = pre ++ i :: post → Built insts pre ∧ nextDeclared insts pre = some i := by
  induction h with
  | nil =>
    intro pre post i hsplit
    cases pre with
    | nil => cases hsplit
    | cons => cases hsplit
  | @snoc placed v h hnext ih =>
    intro pre post i hsplit
    rcases List.eq_nil_or_concat post with rfl | ⟨rest, w, rfl⟩
    · obtain ⟨rfl, hv⟩ := List.append_inj' hsplit rfl
      cases hv
      exact ⟨h, hnext⟩
    · rw [List.concat_eq_append, ← List.cons_append, ← List.append_assoc] at hsplit
      exact ih (List.append_inj' hsplit rfl).1

/-- A stuck instance is placed behind the one it waits for. -/
theorem Built.stuck_after {order : List ℕ} (h : Built insts order) {i : ℕ} :
    ∀ {x : ℕ}, Stuck insts i x → x ∈ order → i ∈ order := by
  induction h with
  | nil =>
    intro x _ hx
    cases hx
  | @snoc placed v h hnext ih =>
    intro x hstuck hx
    refine List.mem_append_left _ ?_
    rcases List.mem_append.mp hx with hx | hx
    · exact ih hstuck hx
    · obtain rfl := List.mem_singleton.mp hx
      obtain ⟨-, hnot, hready | ⟨-, hfirst⟩⟩ := nextDeclared_spec hnext
      · cases hstuck with
        | self hlt hself => exact absurd (hready x hself) hnot
        | step hlt hy hstuck => exact ih hstuck (hready _ hy)
      · cases hstuck with
        | self hlt _ => exact hfirst i hlt
        | step hlt _ _ => exact hfirst i hlt

theorem deployDeps_of_declDeps {i d : ℕ} (h : d ∈ declDeps insts i) (hne : d ≠ i) :
    d ∈ deployDeps insts i := by
  rw [declDeps] at h
  cases hi : insts[i]? with
  | none =>
    rw [hi] at h
    cases h
  | some inst =>
    rw [hi] at h
    simp only [deployDeps, hi]
    exact List.mem_filter.mpr ⟨List.mem_append_left _ h, decide_eq_true hne⟩

/-- A dependency that is not stuck is placed before. -/
theorem Built.dep_before (horder : (instanceDeployOrderReport insts).topological = true)
    {order pre post : List ℕ} (h : Built insts order) {i j : ℕ} (hsplit : order = pre ++ i :: post)
    (hj : j ∈ declDeps insts i) (hne : j ≠ i) (hstuck : ¬ Stuck insts i j) : j ∈ pre := by
  have hid : ∀ l : List ℕ, (id l).Perm l := fun l => List.Perm.refl l
  obtain ⟨hperm, hranked⟩ := topologicalSort_ok hid List.nodup_range
    (topologicalSort_of_report horder)
  have hnodup := hperm.nodup_iff.mpr List.nodup_range
  have hrank : ∀ {z d : ℕ}, z < insts.length → d ∈ declDeps insts z → d ≠ z →
      (instanceDeployOrderReport insts).order.idxOf d <
        (instanceDeployOrderReport insts).order.idxOf z := by
    intro z d hz hd hdz
    have hdep := deployDeps_of_declDeps hd hdz
    exact hranked.idxOf_lt hnodup (hperm.mem_iff.mpr (List.mem_range.mpr hz)) hdep
      (List.mem_range.mpr (deployDeps_lt hdep))
  obtain ⟨-, hnext⟩ := h.split hsplit
  obtain ⟨hlt, -, hready | ⟨hwaiting, hfirst⟩⟩ := nextDeclared_spec hnext
  · exact hready j hj
  · by_contra hmiss
    -- from an unplaced instance below `i` the pins lead on to unplaced ones, until one waits for itself
    have hchain : ∀ (r : ℕ) {z : ℕ}, z < insts.length → z ∉ pre →
        (instanceDeployOrderReport insts).order.idxOf z = r →
        r < (instanceDeployOrderReport insts).order.idxOf i → Stuck insts i z := by
      intro r
      induction r using Nat.strong_induction_on with
      | _ r ih =>
        intro z hz hnot hr hri
        have hiz : i < z := by
          rcases Nat.lt_trichotomy z i with hzi | rfl | hzi
          · exact absurd (hfirst z hzi) hnot
          · omega
          · exact hzi
        obtain ⟨d, hd, hdnot⟩ := hwaiting z hz hnot
        by_cases hdz : d = z
        · exact .self hiz (hdz ▸ hd)
        · have hdrank := hrank hz hd hdz
          have hdlt := deployDeps_lt (deployDeps_of_declDeps hd hdz)
          exact .step hiz hd (ih _ (by omega) hdlt hdnot rfl (by omega))
    have hjrank := hrank hlt hj hne
    exact hstuck (hchain _ (deployDeps_lt (deployDeps_of_declDeps hj hne)) hmiss rfl hjrank)

end Loop

/-! ### The terms -/

section Terms

variable {insts : List Deployable} {inst : Deployable} {m : Member}

theorem findPin_append (init rest : List (String × Expr)) (name : String) :
    findPin (init ++ rest) name = (findPin init name).or (findPin rest name) := by
  rw [findPin, List.find?_append]
  cases hfind : init.find? (·.1 == name) with
  | some p => simp [findPin, hfind]
  | none => simp [findPin, hfind]

/-- A pin of an identity member is one of the clause or one on its quantified variable. -/
theorem findPin_effInit {e : Expr} (h : findPin (effInit inst) m.name = some e) :
    findPin inst.init m.name = some e ∨
      m.name ∈ forallFields inst ∧ e = .ident (forallVar inst m.name) := by
  rw [effInit, findPin_append] at h
  rcases Option.or_eq_some_iff.mp h with h | ⟨-, h⟩
  · exact Or.inl h
  · obtain ⟨p, hp, rfl⟩ := Option.map_eq_some_iff.mp h
    obtain ⟨f, hf, rfl⟩ := List.mem_map.mp (List.mem_of_find?_eq_some hp)
    have hname := List.find?_some hp
    rw [beq_iff_eq] at hname
    cases hname
    exact Or.inr ⟨hf, rfl⟩

theorem unpinned_foldl (targets : List Authored.ForallTarget) : ∀ {fields : List String},
    (∀ f ∈ fields, (pinnedFields inst).contains f = false) →
    ∀ f ∈ targets.foldl (addForallField inst) fields, (pinnedFields inst).contains f = false := by
  induction targets with
  | nil => exact fun h => h
  | cons t targets ih =>
    intro fields h
    rw [List.foldl_cons]
    refine ih ?_
    cases t with
    | context ns field => exact h
    | stateField g =>
      rw [addForallField]
      split_ifs with hskip hmember
      · exact h
      · intro f hf
        rcases List.mem_append.mp hf with hf | hf
        · exact h f hf
        · rw [List.mem_singleton.mp hf]
          rw [Bool.or_eq_true, not_or, Bool.not_eq_true] at hskip
          exact hskip.1
      · exact h

/-- A quantified field has no pin. -/
theorem findPin_of_forallField {f : String} (h : f ∈ forallFields inst) :
    findPin inst.init f = none := by
  have hunpinned : (pinnedFields inst).contains f = false := by
    refine unpinned_foldl inst.forallState.targets ?_ f h
    intro g hg
    split_ifs at hg
    · have hnot := (List.mem_filter.mp hg).2
      rwa [Bool.not_eq_true'] at hnot
    · cases hg
  rw [findPin, Option.map_eq_none_iff, List.find?_eq_none]
  intro p hp heq
  rw [List.contains_eq_mem, decide_eq_false_iff_not] at hunpinned
  exact hunpinned (beq_iff_eq.mp heq ▸ List.mem_map_of_mem hp)

theorem findPin_quantified {f : String} (h : f ∈ forallFields inst) :
    findPin ((forallFields inst).map fun f => (f, .ident (forallVar inst f))) f =
      some (.ident (forallVar inst f)) := by
  rw [findPin]
  cases hfind : ((forallFields inst).map fun f => (f, Expr.ident (forallVar inst f))).find?
      (·.1 == f) with
  | none =>
    have hmiss := List.find?_eq_none.mp hfind _ (List.mem_map_of_mem h)
    exact absurd (beq_self_eq_true f) hmiss
  | some p =>
    obtain ⟨g, -, rfl⟩ := List.mem_map.mp (List.mem_of_find?_eq_some hfind)
    have hname := List.find?_some hfind
    rw [beq_iff_eq] at hname
    rw [← hname]
    rfl

theorem siblingPinTerm_eq {siblings : List Deployable} {e : Expr} {entity name : String}
    (h : siblingPinTerm siblings e = some (.address entity name)) :
    e = .ident name ∧ ∃ s ∈ siblings, s.name = name ∧ s.entity.name = entity := by
  obtain ⟨n, hn, hfind⟩ := Option.bind_eq_some_iff.mp h
  obtain ⟨s, hs, heq⟩ := Option.map_eq_some_iff.mp hfind
  cases heq
  have hname := List.find?_some hs
  rw [beq_iff_eq] at hname
  subst hname
  refine ⟨?_, s, List.mem_of_find?_eq_some hs, rfl, rfl⟩
  cases e with
  | ident x =>
    cases hn
    rfl
  | _ => cases hn

/-- A pin on another instance is the address of that instance. -/
theorem siblingPinTerm_of_other (hnames : (insts.map (·.name)).Nodup) {other : Deployable}
    (hother : other ∈ insts) (hne : other.name ≠ inst.name) :
    siblingPinTerm (insts.filter (·.name != inst.name)) (.ident other.name) =
      some (.address other.entity.name other.name) := by
  have hnodup : ((insts.filter (·.name != inst.name)).map (·.name)).Nodup :=
    hnames.sublist (List.filter_sublist.map _)
  have hmem : other ∈ insts.filter (·.name != inst.name) :=
    List.mem_filter.mpr ⟨hother, bne_iff_ne.mpr hne⟩
  rw [siblingPinTerm, pinnedName, Option.bind_some, find_of_nodup hnodup hmem]
  rfl

theorem declDeps_of_pin {i j : ℕ} (hi : insts[i]? = some inst) {sibling : String}
    (hpin : findPin inst.init m.name = some (.ident sibling))
    (hj : namePosition insts sibling = some j) : j ∈ declDeps insts i := by
  obtain ⟨p, hp, heq⟩ := mem_of_findPin hpin
  simp only [declDeps, hi]
  refine List.mem_filterMap.mpr ⟨p, hp, ?_⟩
  rw [heq]
  exact hj

theorem namePosition_of_nodup (hnames : (insts.map (·.name)).Nodup) {i : ℕ}
    (hi : insts[i]? = some inst) : namePosition insts inst.name = some i := by
  obtain ⟨hlt, rfl⟩ := List.getElem?_eq_some_iff.mp hi
  rw [namePosition, List.findIdx?_eq_some_iff_getElem]
  refine ⟨hlt, beq_self_eq_true _, fun k hk heq => ?_⟩
  have hlen : i < (insts.map (·.name)).length := by rwa [List.length_map]
  have heqnames : (insts.map (·.name))[k] = (insts.map (·.name))[i] := by
    rw [List.getElem_map, List.getElem_map]
    exact beq_iff_eq.mp heq
  have hsame := (List.Nodup.getElem_inj_iff hnames).mp heqnames
  omega

/-- **The binders are sound** exactly when no identity member is pinned to its own instance or to a
stuck one, and no quantified variable is taken for an instance. -/
theorem bindsSoundly_of_order (horder : (instanceDeployOrderReport insts).topological = true)
    (hnames : (insts.map (·.name)).Nodup) :
    BindsSoundly insts ↔ NoSelfIdentity insts ∧ NoStuckIdentity insts ∧ NoCapture insts := by
  obtain ⟨hbuilt, hperm⟩ := @built_instanceDeclOrder insts
  constructor
  · rintro ⟨-, hbound, hreads⟩
    have hsplit : ∀ {i : ℕ} {inst : Deployable}, insts[i]? = some inst →
        ∃ pre post, instanceDeclOrder insts = pre ++ i :: post := by
      intro i inst hi
      obtain ⟨hlt, -⟩ := List.getElem?_eq_some_iff.mp hi
      exact List.append_of_mem (hperm.mem_iff.mpr (List.mem_range.mpr hlt))
    refine ⟨fun inst hinst m hm hid hpin => ?_, fun i inst hi m hm hid sibling j hpin hj hstuck => ?_,
      fun inst hinst m hm hid hfield other hother hname => ?_⟩
    · obtain ⟨i, hi⟩ := List.mem_iff_getElem?.mp hinst
      obtain ⟨pre, post, horder'⟩ := hsplit hi
      obtain ⟨hmem, -⟩ := hbound pre i post horder' inst hi m hm hid inst.name i hpin
        (namePosition_of_nodup hnames hi)
      obtain ⟨-, hnext⟩ := hbuilt.split horder'
      exact (nextDeclared_spec hnext).2.1 hmem
    · obtain ⟨pre, post, horder'⟩ := hsplit hi
      obtain ⟨hmem, -⟩ := hbound pre i post horder' inst hi m hm hid sibling j hpin hj
      obtain ⟨hpre, hnext⟩ := hbuilt.split horder'
      exact (nextDeclared_spec hnext).2.1 (hpre.stuck_after hstuck hmem)
    · have hnone := findPin_of_forallField hfield
      have hne : other.name ≠ inst.name := by
        intro heq
        have hlen := congrArg String.length (hname.symm.trans heq)
        rw [forallVar, String.length_append, String.length_append] at hlen
        have hone : ("_" : String).length = 1 := rfl
        omega
      have hpin : findPin (effInit inst) m.name = some (.ident other.name) := by
        rw [effInit, findPin_append, hnone, Option.none_or, hname]
        exact findPin_quantified hfield
      have hterm : identityTerm insts inst m = .address other.entity.name other.name := by
        rw [identityTerm, hpin]
        simp only [siblingPinTerm_of_other hnames hother hne, Option.getD_some]
      rw [hreads inst hinst m hm hid _ _ hterm] at hnone
      cases hnone
  · rintro ⟨hself, hstuck, hcapture⟩
    refine ⟨hperm, fun pre i post hsplit inst hi m hm hid sibling j hpin hj => ?_,
      fun inst hinst m hm hid entity name hterm => ?_⟩
    · obtain ⟨other, hother, rfl⟩ := namePosition_spec hj
      have hne : other.name ≠ inst.name := by
        intro heq
        exact hself inst (List.mem_of_getElem? hi) m hm hid (heq ▸ hpin)
      have hji : j ≠ i := by
        rintro rfl
        rw [hother] at hi
        cases hi
        exact hne rfl
      refine ⟨hbuilt.dep_before horder hsplit (declDeps_of_pin hi hpin hj) hji
        (hstuck i inst hi m hm hid _ j hpin hj), other, hother, ?_⟩
      have hpin' : findPin (effInit inst) m.name = some (.ident other.name) := by
        rw [effInit, findPin_append, hpin]
        rfl
      rw [identityTerm, hpin']
      simp only [siblingPinTerm_of_other hnames (List.mem_of_getElem? hother) hne, Option.getD_some]
    · rw [identityTerm] at hterm
      split at hterm
      · rename_i e hpin
        cases hterm' : siblingPinTerm (insts.filter (·.name != inst.name)) e with
        | none =>
          rw [hterm'] at hterm
          cases hterm
        | some term =>
          rw [hterm', Option.getD_some] at hterm
          subst hterm
          obtain ⟨rfl, s, hs, rfl, -⟩ := siblingPinTerm_eq hterm'
          rcases findPin_effInit hpin with hpin | ⟨hfield, heq⟩
          · exact hpin
          · exact absurd (Expr.ident.inj heq)
              (hcapture inst hinst m hm hid hfield s (List.mem_of_mem_filter hs))
      · cases hterm

end Terms

/-! ### Accepted invariants -/

theorem names_deployables {entities : List Entity} {inv : Authored.InvariantDecl}
    (h : (inv.instances.map (·.name)).Nodup) :
    ((deployables entities inv).map (·.name)).Nodup := by
  refine h.sublist ?_
  rw [deployables]
  induction inv.instances with
  | nil => exact List.Sublist.slnil
  | cons inst rest ih =>
    rw [List.filterMap_cons]
    cases entities.find? (·.name == inst.entity) with
    | none => exact ih.cons _
    | some e => exact ih.cons_cons _

theorem topological_of_accepted {entities : List Entity} {inv : Authored.InvariantDecl}
    (h : Accepted entities inv) :
    (instanceDeployOrderReport (deployables entities inv)).topological = true := by
  by_cases hlen : 2 ≤ (deployables entities inv).length
  · exact h.order hlen
  · exact topological_of_lt_two (by omega)

/-- **Multi-entity deployment is well founded**, in `setUp` and in the statement, exactly when no
identity member is pinned to its own instance or to one from which the pins lead, through instances
declared later, to an instance that is pinned to itself, and no quantified variable of an identity
member has the name of an instance. -/
theorem multi_deployment_iff {entities : List Entity} {inv : Authored.InvariantDecl}
    (h : Accepted entities inv) :
    DeploysSoundly (deployables entities inv) inv.deploy inv.senders ∧
        BindsSoundly (deployables entities inv) ↔
      NoSelfIdentity (deployables entities inv) ∧ NoStuckIdentity (deployables entities inv) ∧
        NoCapture (deployables entities inv) := by
  have horder := topological_of_accepted h
  have hnames : ((deployables entities inv).map (·.name)).Nodup := names_deployables h.names
  rw [deploysSoundly_of_order horder hnames, bindsSoundly_of_order horder hnames]
  exact ⟨And.right, fun hall => ⟨hall.1, hall⟩⟩

/-! ### Two systems -/

def systemInvariant (instances : List Authored.InvariantInstance) : Authored.InvariantDecl :=
  { name := "system", instances := instances, skipFrom := false, senders := [], deploy := [],
    context := ⟨[]⟩, actions := [], checks := [], failOnRevert := false, runs := none, depth := none,
    tag := none, instantiates := none, emitPolicy := .emit, withTime := false, track := [],
    derived := [], excludeSenders := [], excludeSelectors := [] }

def pinnedInstance (name entity : String) (init : List (String × Expr)) :
    Authored.InvariantInstance :=
  { name := name, entity := entity, init := init, forallState := .default, initSpecified := true }

def token : Entity := Layout.syntheticEntity "Token"

/-- An entity with the identity `m_peer`. -/
def linked : Entity :=
  { Layout.syntheticEntity "Linked" with
    members := [Layout.plainMember "m_peer" (.simple "address") true] }

/-- A link with a pin and a token that is declared after it. -/
def linkSystem (pin : String) : Authored.InvariantDecl :=
  systemInvariant
    [pinnedInstance "link" "Linked" [("m_peer", .ident pin)], pinnedInstance "tok" "Token" []]

theorem declared_linkSystem (pin : String) :
    ∀ inst ∈ (linkSystem pin).instances, ∃ e ∈ [token, linked], e.name = inst.entity := by
  intro inst hinst
  rcases List.mem_cons.mp hinst with rfl | hinst
  · exact ⟨linked, List.mem_cons_of_mem _ List.mem_cons_self, rfl⟩
  · rw [List.mem_singleton.mp hinst]
    exact ⟨token, List.mem_cons_self, rfl⟩

theorem multi_deployment_forward :
    DeploysSoundly (deployables [token, linked] (linkSystem "tok")) [] [] ∧
        BindsSoundly (deployables [token, linked] (linkSystem "tok")) ↔
      NoSelfIdentity (deployables [token, linked] (linkSystem "tok")) ∧
        NoStuckIdentity (deployables [token, linked] (linkSystem "tok")) ∧
        NoCapture (deployables [token, linked] (linkSystem "tok")) :=
  multi_deployment_iff ⟨by decide, by decide, declared_linkSystem "tok", fun _ => by decide⟩

/-- A link that is pinned to itself is accepted, and rendering its address does not come back. -/
theorem self_link_not_deployed :
    Accepted [token, linked] (linkSystem "link") ∧
      ¬ (DeploysSoundly (deployables [token, linked] (linkSystem "link")) [] [] ∧
        BindsSoundly (deployables [token, linked] (linkSystem "link"))) := by
  have haccepted : Accepted [token, linked] (linkSystem "link") :=
    ⟨by decide, by decide, declared_linkSystem "link", fun _ => by decide⟩
  refine ⟨haccepted, fun ⟨hdeploys, _⟩ => ?_⟩
  have hself := (deploysSoundly_of_order (topological_of_accepted haccepted)
    (names_deployables haccepted.names)).mp hdeploys
  exact hself ⟨"link", linked, [("m_peer", .ident "link")], .default⟩ List.mem_cons_self
    (Layout.plainMember "m_peer" (.simple "address") true) List.mem_cons_self rfl rfl

end CambrianLang.Invariants
