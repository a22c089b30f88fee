/-
  **The names of a derived fuzz test** (`desugar.rs`).

  A sampled state field and a sampled context entry become parameters, under names that avoid
  the parameters of the property, the pinned fields and each other.  The `let` steps of the
  body bind names in the same function, and these are not avoided.  They stay apart exactly
  when putting them in play as well would make no difference.
-/
import CambrianLang.Project.Desugar

namespace CambrianLang.Authored

open Ast

/-! ### Fresh names -/

/-- The first of the names tried for `desired` that is not in play. -/
def FirstFree (desired : String) (used : List String) (name : String) : Prop :=
  name ∉ used ∧ (name = desired ∨ desired ∈ used ∧
    ∃ k, name = freshCandidate desired k ∧ ∀ j < k, freshCandidate desired j ∈ used)

theorem freshName_firstFree (desired : String) (used : List String) :
    FirstFree desired used (freshName desired used) := by
  refine ⟨freshName_not_mem desired used, ?_⟩
  have hfree := freshName_not_mem desired used
  rw [freshName] at hfree ⊢
  split at hfree
  · next htaken =>
    rw [if_pos htaken]
    rw [List.contains_iff_mem] at htaken
    right
    refine ⟨htaken, ?_⟩
    rw [List.find?_map] at hfree ⊢
    cases hfind : (List.range (used.length + 1)).find?
        ((fun name => !used.contains name) ∘ freshCandidate desired) with
    | none =>
      rw [hfind] at hfree
      exact absurd htaken hfree
    | some k =>
      obtain ⟨-, -, hbefore⟩ := List.find?_range_eq_some.mp hfind
      refine ⟨k, rfl, fun j hj => ?_⟩
      simpa using hbefore j hj
  · next hfresh =>
    left
    rw [if_neg hfresh]

theorem FirstFree.unique {desired name name' : String} {used : List String}
    (h : FirstFree desired used name) (h' : FirstFree desired used name') : name = name' := by
  obtain ⟨hfree, rfl | ⟨htaken, k, rfl, hbefore⟩⟩ := h
  · obtain ⟨-, rfl | ⟨htaken', -⟩⟩ := h'
    · rfl
    · exact absurd htaken' hfree
  · obtain ⟨hfree', rfl | ⟨-, k', rfl, hbefore'⟩⟩ := h'
    · exact absurd htaken hfree'
    · rcases Nat.lt_trichotomy k k' with hlt | rfl | hlt
      · exact absurd (hbefore' k hlt) hfree
      · rfl
      · exact absurd (hbefore k' hlt) hfree'

/-- More names in play make no difference to a name that is still free. -/
theorem freshName_eq_of_subset {desired : String} {used used' : List String}
    (hsub : used ⊆ used') (hfree : freshName desired used ∉ used') :
    freshName desired used' = freshName desired used := by
  obtain ⟨-, hfirst⟩ := freshName_firstFree desired used
  refine (freshName_firstFree desired used').unique ⟨hfree, ?_⟩
  rcases hfirst with heq | ⟨htaken, k, heq, hbefore⟩
  · exact Or.inl heq
  · exact Or.inr ⟨hsub htaken, k, heq, fun j hj => hsub (hbefore j hj)⟩

/-- The names given to the desired ones, in order. -/
def sampledNames : List String → List String → List String
  | _, [] => []
  | used, desired :: rest =>
      freshName desired used :: sampledNames (used ++ [freshName desired used]) rest

theorem sampledNames_append (used ds ds' : List String) :
    sampledNames used (ds ++ ds') =
      sampledNames used ds ++ sampledNames (used ++ sampledNames used ds) ds' := by
  induction ds generalizing used with
  | nil => rw [List.nil_append, sampledNames, List.nil_append, List.append_nil]
  | cons d ds ih =>
    rw [List.cons_append, sampledNames, ih, sampledNames, List.cons_append, List.append_assoc]
    rfl

theorem not_mem_of_mem_sampledNames {used ds : List String} {name : String}
    (h : name ∈ sampledNames used ds) : name ∉ used := by
  induction ds generalizing used with
  | nil => cases h
  | cons d ds ih =>
    rcases List.mem_cons.mp h with rfl | hrest
    · exact freshName_not_mem d used
    · exact fun hused => ih hrest (List.mem_append_left _ hused)

theorem sampledNames_nodup (used ds : List String) : (sampledNames used ds).Nodup := by
  induction ds generalizing used with
  | nil => exact List.nodup_nil
  | cons d ds ih =>
    refine List.nodup_cons.mpr ⟨fun hmem => ?_, ih _⟩
    exact not_mem_of_mem_sampledNames hmem (List.mem_append_right _ (List.mem_singleton.mpr rfl))

theorem sampledNames_eq_of_subset {used used' ds : List String} (hsub : used ⊆ used')
    (hfree : ∀ name ∈ sampledNames used ds, name ∉ used') :
    sampledNames used' ds = sampledNames used ds := by
  induction ds generalizing used used' with
  | nil => rfl
  | cons d ds ih =>
    have hhead := freshName_eq_of_subset hsub (hfree _ (List.mem_cons_self ..))
    rw [sampledNames, sampledNames, hhead]
    have hsub' : used ++ [freshName d used] ⊆ used' ++ [freshName d used] :=
      List.append_subset.mpr
        ⟨List.Subset.trans hsub (List.subset_append_left _ _), List.subset_append_right _ _⟩
    refine congrArg _ (ih hsub' ?_)
    intro name hname hmem
    rcases List.mem_append.mp hmem with hmem | hmem
    · exact hfree name (List.mem_cons_of_mem _ hname) hmem
    · exact not_mem_of_mem_sampledNames hname (List.mem_append_right _ hmem)

/-- **Names that are not in play are avoided exactly when they would make no difference in
    play.** -/
theorem sampledNames_avoid_iff (used others ds : List String) :
    sampledNames (used ++ others) ds = sampledNames used ds ↔
      ∀ name ∈ sampledNames used ds, name ∉ others := by
  constructor
  · intro heq name hname hmem
    rw [← heq] at hname
    exact not_mem_of_mem_sampledNames hname (List.mem_append_right _ hmem)
  · intro havoid
    refine sampledNames_eq_of_subset (List.subset_append_left used others) ?_
    intro name hname hmem
    rcases List.mem_append.mp hmem with hmem | hmem
    · exact not_mem_of_mem_sampledNames hname hmem
    · exact havoid name hname hmem

/-! ### The names in play and the names that are sampled -/

/-- The fields that are pinned. -/
def pinnedFields (prop : PropertyDecl) (i : Option PropertyInstance) : List String :=
  (mergedInit prop i).map (·.1)

/-- The names in play: the parameters and the pinned fields. -/
def namesInPlay (prop : PropertyDecl) (i : Option PropertyInstance) : List String :=
  (pinnedFields prop i).foldl (fun used k => if used.contains k then used else used ++ [k])
    (prop.params.map (·.name))

/-- The names wanted for the sampled fields and context entries. -/
def desiredNames (members : List Member) (prop : PropertyDecl) (i : Option PropertyInstance) :
    List String :=
  (forallFields members (pinnedFields prop i) (resolveForall prop i)).map (·.1) ++
    ((resolveContext prop i).entries.filter fun e => e.value.isNone).map fun e =>
      e.ns ++ "_" ++ e.field

/-- The names that the `let` steps of a body bind. -/
def letNames (body : List TestStep) : List String :=
  body.filterMap fun
    | .letS name _ _ => some name
    | _ => none

theorem letNames_append (body body' : List TestStep) :
    letNames (body ++ body') = letNames body ++ letNames body' :=
  List.filterMap_append ..

/-- The steps for the bindings bind nothing. -/
theorem letNames_fuzzBindings (bindings : List (String × InstanceArg)) :
    letNames (bindings.map fuzzBinding) = [] := by
  induction bindings with
  | nil => rfl
  | cons b bindings ih =>
    rcases b with ⟨name, value | ⟨lo, hi, inclusive⟩⟩
    · exact ih
    · exact ih

theorem foldl_sampleField (fields : List (String × Ty)) (draft : FuzzDraft) :
    let final := fields.foldl FuzzDraft.sampleField draft
    let names := sampledNames draft.used (fields.map (·.1))
    final.used = draft.used ++ names ∧
      final.params.map (·.name) = draft.params.map (·.name) ++ names ∧
      final.init.map (·.1) = draft.init.map (·.1) ++ fields.map (·.1) ∧
      final.ctxSteps = draft.ctxSteps := by
  induction fields generalizing draft with
  | nil =>
    refine ⟨?_, ?_, ?_, rfl⟩
    · exact (List.append_nil _).symm
    · exact (List.append_nil _).symm
    · exact (List.append_nil _).symm
  | cons field fields ih =>
    obtain ⟨hused, hparams, hinit, hctx⟩ := ih (draft.sampleField field)
    refine ⟨?_, ?_, ?_, hctx⟩
    · exact hused.trans (List.append_assoc ..)
    · rw [List.foldl_cons, hparams, FuzzDraft.sampleField, List.map_append, List.append_assoc]
      rfl
    · rw [List.foldl_cons, hinit, FuzzDraft.sampleField, List.map_append, List.append_assoc]
      rfl

theorem foldl_addContext (entries : List ContextEntry) (draft : FuzzDraft) :
    let final := entries.foldl FuzzDraft.addContext draft
    let names := sampledNames draft.used
      ((entries.filter fun e => e.value.isNone).map fun e => e.ns ++ "_" ++ e.field)
    final.params.map (·.name) = draft.params.map (·.name) ++ names ∧
      final.init = draft.init ∧ letNames final.ctxSteps = letNames draft.ctxSteps := by
  induction entries generalizing draft with
  | nil => exact ⟨(List.append_nil _).symm, rfl, rfl⟩
  | cons e entries ih =>
    obtain ⟨hparams, hinit, hlets⟩ := ih (draft.addContext e)
    cases hvalue : e.value with
    | some v =>
      have hadd : draft.addContext e =
          { draft with ctxSteps := draft.ctxSteps ++ [.setContext e.ns [(e.field, v)]] } := by
        rw [FuzzDraft.addContext, hvalue]
      rw [hadd] at hparams hinit hlets
      rw [List.foldl_cons, hadd, List.filter_cons_of_neg (by simp [hvalue])]
      refine ⟨hparams, hinit, hlets.trans ?_⟩
      rw [letNames_append]
      exact List.append_nil _
    | none =>
      have hadd : draft.addContext e =
          { draft with
            used := draft.used ++ [freshName (e.ns ++ "_" ++ e.field) draft.used]
            params := draft.params ++
              [⟨freshName (e.ns ++ "_" ++ e.field) draft.used, ctxParamType e.ns e.field⟩]
            ctxSteps := draft.ctxSteps ++ [.setContext e.ns
              [(e.field, .ident (freshName (e.ns ++ "_" ++ e.field) draft.used))]] } := by
        rw [FuzzDraft.addContext, hvalue]
      rw [hadd] at hparams hinit hlets
      rw [List.foldl_cons, hadd, List.filter_cons_of_pos (by rw [hvalue]; rfl)]
      refine ⟨?_, hinit, hlets.trans ?_⟩
      · rw [hparams, List.map_append, List.append_assoc]
        rfl
      · rw [letNames_append]
        exact List.append_nil _

/-- **The names of a derived fuzz test**: the parameters of the property and the sampled
    names; the pinned fields and the sampled ones; the `let` steps of the property's body. -/
theorem propToFuzz_names (prop : PropertyDecl) (inst : Option (Nat × PropertyInstance))
    (members : List Member) :
    let i := inst.map (·.2)
    let f := propToFuzz prop inst members
    f.params.map (·.name) = prop.params.map (·.name) ++
        sampledNames (namesInPlay prop i) (desiredNames members prop i) ∧
      f.initState.map (·.1) = pinnedFields prop i ++
        (forallFields members (pinnedFields prop i) (resolveForall prop i)).map (·.1) ∧
      letNames f.body = letNames (propertyBody prop i) := by
  let i := inst.map (·.2)
  let fields := forallFields members (pinnedFields prop i) (resolveForall prop i)
  obtain ⟨hused, hparams, hinit, hctx⟩ := foldl_sampleField fields
    ⟨namesInPlay prop i, prop.params, mergedInit prop i, []⟩
  obtain ⟨hparams', hinit', hlets'⟩ := foldl_addContext (resolveContext prop i).entries
    (fields.foldl FuzzDraft.sampleField ⟨namesInPlay prop i, prop.params, mergedInit prop i, []⟩)
  refine ⟨?_, ?_, ?_⟩
  · rw [desiredNames, sampledNames_append, ← List.append_assoc]
    rw [hparams, hused] at hparams'
    exact hparams'
  · exact (congrArg (List.map (·.1)) hinit').trans hinit
  · rw [hctx] at hlets'
    have hbody : letNames (propToFuzz prop inst members).body =
        letNames ((resolveContext prop i).entries.foldl FuzzDraft.addContext
          (fields.foldl FuzzDraft.sampleField
            ⟨namesInPlay prop i, prop.params, mergedInit prop i, []⟩)).ctxSteps ++
          letNames (((i.map (·.bindings)).getD []).map fuzzBinding) ++
            letNames (propertyBody prop i) := by
      rw [← letNames_append, ← letNames_append]
      rfl
    rw [hbody, letNames_fuzzBindings, hlets']
    rfl

theorem mem_foldl_insert {used ks : List String} {name : String} :
    name ∈ ks.foldl (fun used k => if used.contains k then used else used ++ [k]) used ↔
      name ∈ used ∨ name ∈ ks := by
  induction ks generalizing used with
  | nil => simp
  | cons k ks ih =>
    rw [List.foldl_cons, ih, List.mem_cons]
    split
    · next hin =>
      rw [List.contains_iff_mem] at hin
      constructor
      · rintro (h | h)
        · exact Or.inl h
        · exact Or.inr (Or.inr h)
      · rintro (h | rfl | h)
        · exact Or.inl h
        · exact Or.inl hin
        · exact Or.inr h
    · rw [List.mem_append, List.mem_singleton, or_assoc]

theorem mem_namesInPlay {prop : PropertyDecl} {i : Option PropertyInstance} {name : String} :
    name ∈ namesInPlay prop i ↔
      name ∈ prop.params.map (·.name) ∨ name ∈ pinnedFields prop i :=
  mem_foldl_insert

/-! ### The init fields of a derived fuzz test -/

theorem overlay_keys (pin : String × Expr) (out : List (String × Expr)) :
    (overlay (fun x => x.1 == pin.1) pin out).map (·.1) =
      if pin.1 ∈ out.map (·.1) then out.map (·.1) else out.map (·.1) ++ [pin.1] := by
  induction out with
  | nil => rfl
  | cons x out ih =>
    rw [overlay, List.map_cons]
    by_cases hkey : x.1 = pin.1
    · rw [if_pos (beq_iff_eq.mpr hkey), List.map_cons, if_pos (by rw [hkey]; exact .head _), hkey]
    · rw [if_neg (by rwa [beq_iff_eq]), List.map_cons, ih]
      have hiff : pin.1 ∈ x.1 :: out.map (·.1) ↔ pin.1 ∈ out.map (·.1) := by
        rw [List.mem_cons, or_iff_right (Ne.symm hkey)]
      by_cases hmem : pin.1 ∈ out.map (·.1)
      · rw [if_pos hmem, if_pos (hiff.mpr hmem)]
      · rw [if_neg hmem, if_neg (fun h => hmem (hiff.mp h)), List.cons_append]

/-- The pins of the instance replace those of the property or follow them. -/
theorem pinnedFields_nodup {prop : PropertyDecl} (h : (prop.initState.map (·.1)).Nodup)
    (i : Option PropertyInstance) : (pinnedFields prop i).Nodup := by
  cases i with
  | none => exact h
  | some i =>
    rw [pinnedFields, mergedInit]
    generalize prop.initState = out at h
    induction i.initState generalizing out with
    | nil => exact h
    | cons pin pins ih =>
      refine ih _ ?_
      rw [overlay_keys]
      split
      · exact h
      · next hnew =>
        rw [← List.concat_eq_append]
        exact h.concat hnew

/-- The fields that are sampled because the whole state is. -/
def allFields (members : List Member) (pinned : List String) (spec : ForallSpec) :
    List (String × Ty) :=
  if spec.allState then
    (members.filter fun m => !pinned.contains m.name).map fun m => (m.name, m.ty)
  else []

/-- A target adds its field, unless it is pinned or sampled already. -/
def addTarget (members : List Member) (pinned : List String) (fields : List (String × Ty)) :
    ForallTarget → List (String × Ty)
  | .stateField f =>
    if pinned.contains f || fields.any fun field => field.1 == f then fields
    else
      let ty := ((members.find? fun m => m.name == f).map (·.ty)).getD (.simple "U256")
      fields ++ [(f, ty)]
  | .context .. => fields

theorem forallFields_eq (members : List Member) (pinned : List String) (spec : ForallSpec) :
    forallFields members pinned spec =
      spec.targets.foldl (addTarget members pinned) (allFields members pinned spec) := by
  rw [forallFields]
  refine congrArg (fun f => List.foldl f _ spec.targets) (funext fun fields => funext fun t => ?_)
  cases t <;> rfl

/-- Fields that are different, not pinned and not among others. -/
structure FieldsApart (pinned : List String) (others added : List (String × Ty)) : Prop where
  nodup : (added.map (·.1)).Nodup
  apart : ∀ name ∈ added.map (·.1), name ∉ pinned ∧ name ∉ others.map (·.1)

theorem addTarget_split (members : List Member) {pinned : List String}
    {others added : List (String × Ty)} (h : FieldsApart pinned others added) (t : ForallTarget) :
    ∃ added', addTarget members pinned (others ++ added) t = others ++ added' ∧
      FieldsApart pinned others added' := by
  cases t with
  | context ns field => exact ⟨added, rfl, h⟩
  | stateField f =>
    rw [addTarget]
    split
    · exact ⟨added, rfl, h⟩
    · next hnew =>
      simp only [Bool.or_eq_true, List.contains_iff_mem, List.any_append, List.any_eq_true,
        beq_iff_eq, not_or] at hnew
      obtain ⟨hpinned, hothers, hadded⟩ := hnew
      have hof : ∀ fields : List (String × Ty), (¬ ∃ x ∈ fields, x.1 = f) →
          f ∉ fields.map (·.1) := by
        intro fields hno hmem
        obtain ⟨x, hx, heq⟩ := List.mem_map.mp hmem
        exact hno ⟨x, hx, heq⟩
      refine ⟨added ++ [_], List.append_assoc .., ?_, ?_⟩
      · rw [List.map_append, List.map_singleton, ← List.concat_eq_append]
        exact h.nodup.concat (hof added hadded)
      · intro name hname
        rw [List.map_append, List.mem_append, List.map_singleton, List.mem_singleton] at hname
        rcases hname with hname | rfl
        · exact h.apart name hname
        · exact ⟨hpinned, hof others hothers⟩

/-- The targets add fields that are neither pinned nor sampled. -/
theorem forallFields_split (members : List Member) (pinned : List String) (spec : ForallSpec) :
    ∃ added, forallFields members pinned spec = allFields members pinned spec ++ added ∧
      FieldsApart pinned (allFields members pinned spec) added := by
  have hfold : ∀ (targets : List ForallTarget) (others added : List (String × Ty)),
      FieldsApart pinned others added →
      ∃ added', targets.foldl (addTarget members pinned) (others ++ added) = others ++ added' ∧
        FieldsApart pinned others added' := by
    intro targets others
    induction targets with
    | nil => exact fun added h => ⟨added, rfl, h⟩
    | cons t targets ih =>
      intro added h
      obtain ⟨added', heq, h'⟩ := addTarget_split members h t
      rw [List.foldl_cons, heq]
      exact ih added' h'
  rw [forallFields_eq]
  have hstart : FieldsApart pinned (allFields members pinned spec) [] :=
    ⟨List.nodup_nil, fun name hname => absurd hname List.not_mem_nil⟩
  obtain ⟨added, heq, h⟩ := hfold spec.targets _ [] hstart
  rw [List.append_nil] at heq
  exact ⟨added, heq, h⟩

/-- The members that are sampled with the whole state have different names. -/
def MembersApart (members : List Member) (prop : PropertyDecl) (i : Option PropertyInstance) :
    Prop :=
  (resolveForall prop i).allState = true →
    ((members.filter fun m => !(pinnedFields prop i).contains m.name).map (·.name)).Nodup

/-- **The init fields of a derived fuzz test are different** exactly when the members that are
    sampled with the whole state are. -/
theorem initFields_nodup_iff {prop : PropertyDecl} (h : (prop.initState.map (·.1)).Nodup)
    (i : Option PropertyInstance) (members : List Member) :
    (pinnedFields prop i ++
        (forallFields members (pinnedFields prop i) (resolveForall prop i)).map (·.1)).Nodup ↔
      MembersApart members prop i := by
  obtain ⟨added, heq, hnodup, hapart⟩ :=
    forallFields_split members (pinnedFields prop i) (resolveForall prop i)
  have hall : ∀ name ∈ (allFields members (pinnedFields prop i) (resolveForall prop i)).map (·.1),
      name ∉ pinnedFields prop i := by
    intro name hname
    rw [allFields] at hname
    split at hname
    · rw [List.map_map, List.mem_map] at hname
      obtain ⟨m, hm, rfl⟩ := hname
      have hfree := (List.mem_filter.mp hm).2
      simpa using hfree
    · cases hname
  have hfields : ((allFields members (pinnedFields prop i) (resolveForall prop i)).map
      (·.1)).Nodup ↔ MembersApart members prop i := by
    rw [allFields, MembersApart]
    split
    · next hstate =>
      rw [List.map_map, imp_iff_right hstate]
      rfl
    · next hstate => simp [hstate]
  rw [heq, List.map_append, List.nodup_append', List.nodup_append', hfields]
  constructor
  · exact fun hparts => hparts.2.1.1
  · intro hmembers
    refine ⟨pinnedFields_nodup h i, ⟨hmembers, hnodup, ?_⟩, ?_⟩
    · exact fun name hname hadded => (hapart name hadded).2 hname
    · intro name hname hfield
      rcases List.mem_append.mp hfield with hfield | hfield
      · exact hall name hfield hname
      · exact (hapart name hfield).1 hname

/-! ### What is derived -/

/-- What a declaration is derived from: a property, and one of its instances with its
    position, if it has any. -/
structure Source where
  prop : PropertyDecl
  inst : Option (Nat × PropertyInstance)

def Source.isFuzz (s : Source) : Bool :=
  match s.inst with
  | some (_, i) => i.kind == .fuzz
  | none =>
    !(s.prop.params.isEmpty && s.prop.forallState.isEmpty &&
      !s.prop.context.entries.any fun e => e.value.isNone)

/-- One for each instance, or one for the property. -/
def PropertyDecl.sources (prop : PropertyDecl) : List Source :=
  if prop.instances.isEmpty then [⟨prop, none⟩]
  else prop.instances.zipIdx.map fun (inst, idx) => ⟨prop, some (idx, inst)⟩

def Program.sources (p : Program) : List Source := p.properties.flatMap PropertyDecl.sources

section Derived

variable (entities : List Contract)

def Source.instance? (s : Source) : Option PropertyInstance := s.inst.map (·.2)

def Source.members (s : Source) : List Member := membersOf entities s.prop.entityName

def Source.test (s : Source) : TestDecl := propToTest s.prop s.inst

def Source.fuzz (s : Source) : FuzzDecl := propToFuzz s.prop s.inst (s.members entities)

def Source.lowered (s : Source) : Lowered :=
  if s.isFuzz then .fuzz (s.fuzz entities) else .test s.test

/-- The parameters of a derived fuzz test after those of the property. -/
def Source.sampled (s : Source) : List String :=
  ((s.fuzz entities).params.drop s.prop.params.length).map (·.name)

theorem Source.lowered_of_fuzz {s : Source} (h : s.isFuzz = true) :
    s.lowered entities = .fuzz (s.fuzz entities) :=
  if_pos h

theorem Source.lowered_of_test {s : Source} (h : s.isFuzz = false) :
    s.lowered entities = .test s.test := by
  rw [Source.lowered, h]
  rfl

theorem lowerProperty_eq (prop : PropertyDecl) :
    lowerProperty (membersOf entities prop.entityName) prop =
      prop.sources.map (Source.lowered entities) := by
  rw [lowerProperty, PropertyDecl.sources]
  split
  · have hfuzz : Source.isFuzz ⟨prop, none⟩ =
        !(prop.params.isEmpty && prop.forallState.isEmpty &&
          !prop.context.entries.any fun e => e.value.isNone) := rfl
    rw [List.map_singleton]
    simp only
    split
    · next htest =>
      rw [htest] at hfuzz
      rw [Source.lowered_of_test entities hfuzz]
      rfl
    · next hsampled =>
      rw [Bool.not_eq_true] at hsampled
      rw [hsampled] at hfuzz
      rw [Source.lowered_of_fuzz entities hfuzz]
      rfl
  · rw [List.map_map]
    refine List.map_congr_left fun x hx => ?_
    obtain ⟨inst, idx⟩ := x
    have hfuzz : Source.isFuzz ⟨prop, some (idx, inst)⟩ = (inst.kind == .fuzz) := rfl
    rw [Function.comp_apply]
    cases hkind : inst.kind with
    | test =>
      rw [hkind] at hfuzz
      rw [Source.lowered_of_test entities (hfuzz.trans (by decide))]
      simp only [hkind]
      rfl
    | fuzz =>
      rw [hkind] at hfuzz
      rw [Source.lowered_of_fuzz entities (hfuzz.trans (by decide))]
      simp only [hkind]
      rfl

theorem lowered_eq (p : Program) :
    lowered entities p.properties = p.sources.map (Source.lowered entities) := by
  rw [lowered, Program.sources, List.map_flatMap]
  exact congrArg (List.flatMap · p.properties) (funext (lowerProperty_eq entities))

theorem filterMap_test (ss : List Source) :
    (ss.map (Source.lowered entities)).filterMap Lowered.test? =
      (ss.filter fun s => !s.isFuzz).map Source.test := by
  induction ss with
  | nil => rfl
  | cons s ss ih =>
    rw [List.map_cons, List.filter_cons]
    cases hfuzz : s.isFuzz with
    | true =>
      rw [Source.lowered_of_fuzz entities hfuzz]
      exact ih
    | false =>
      rw [Source.lowered_of_test entities hfuzz]
      exact congrArg (s.test :: ·) ih

theorem filterMap_fuzz (ss : List Source) :
    (ss.map (Source.lowered entities)).filterMap Lowered.fuzz? =
      (ss.filter Source.isFuzz).map (Source.fuzz entities) := by
  induction ss with
  | nil => rfl
  | cons s ss ih =>
    rw [List.map_cons, List.filter_cons]
    cases hfuzz : s.isFuzz with
    | true =>
      rw [Source.lowered_of_fuzz entities hfuzz]
      exact congrArg (s.fuzz entities :: ·) ih
    | false =>
      rw [Source.lowered_of_test entities hfuzz]
      exact ih

/-- The names of a derived fuzz test are as they should be. -/
structure WellNamed (s : Source) : Prop where
  params : ((s.fuzz entities).params.map (·.name)).Nodup
  init : ((s.fuzz entities).initState.map (·.1)).Nodup
  sampled : (s.sampled entities).Nodup
  apart : ∀ name ∈ s.sampled entities,
    name ∉ s.prop.params.map (·.name) ∧ name ∉ letNames (s.fuzz entities).body

/-- The members that are sampled with the whole state have different names, and the names for
    what is sampled would be the same with the `let` steps of the body in play as well. -/
structure NamesApart (s : Source) : Prop where
  members : MembersApart (s.members entities) s.prop s.instance?
  lets : sampledNames
      (namesInPlay s.prop s.instance? ++ letNames (propertyBody s.prop s.instance?))
      (desiredNames (s.members entities) s.prop s.instance?) =
    sampledNames (namesInPlay s.prop s.instance?)
      (desiredNames (s.members entities) s.prop s.instance?)

theorem sampled_eq (s : Source) :
    s.sampled entities = sampledNames (namesInPlay s.prop s.instance?)
      (desiredNames (s.members entities) s.prop s.instance?) := by
  obtain ⟨hparams, -, -⟩ := propToFuzz_names s.prop s.inst (s.members entities)
  rw [Source.sampled, List.map_drop]
  refine (congrArg (List.drop s.prop.params.length) hparams).trans ?_
  exact List.drop_left' (List.length_map ..)

theorem wellNamed_iff {s : Source} (hparams : (s.prop.params.map (·.name)).Nodup)
    (hinit : (s.prop.initState.map (·.1)).Nodup) :
    WellNamed entities s ↔ NamesApart entities s := by
  obtain ⟨hnames, hfields, hbody⟩ := propToFuzz_names s.prop s.inst (s.members entities)
  have hsampled := sampled_eq entities s
  have hlets : (∀ name ∈ s.sampled entities, name ∉ letNames (s.fuzz entities).body) ↔
      ∀ name ∈ sampledNames (namesInPlay s.prop s.instance?)
        (desiredNames (s.members entities) s.prop s.instance?),
        name ∉ letNames (propertyBody s.prop s.instance?) := by
    rw [hsampled, Source.fuzz, hbody]
    rfl
  have hfree : ∀ name ∈ s.sampled entities, name ∉ s.prop.params.map (·.name) := by
    intro name hname hmem
    rw [hsampled] at hname
    exact not_mem_of_mem_sampledNames hname (mem_namesInPlay.mpr (Or.inl hmem))
  have hnodup : (s.sampled entities).Nodup := by
    rw [hsampled]
    exact sampledNames_nodup _ _
  constructor
  · intro h
    constructor
    · have hinitFields := h.init
      rw [Source.fuzz, hfields] at hinitFields
      exact (initFields_nodup_iff hinit s.instance? (s.members entities)).mp hinitFields
    · exact (sampledNames_avoid_iff _ _ _).mpr (hlets.mp fun name hname => (h.apart name hname).2)
  · intro h
    have havoid := hlets.mpr ((sampledNames_avoid_iff _ _ _).mp h.lets)
    refine ⟨?_, ?_, hnodup, fun name hname => ⟨hfree name hname, havoid name hname⟩⟩
    · have hall : (s.fuzz entities).params.map (·.name) =
          s.prop.params.map (·.name) ++ s.sampled entities := by
        rw [hsampled]
        exact hnames
      rw [hall, List.nodup_append']
      exact ⟨hparams, hnodup, fun name hname hmem => hfree name hmem hname⟩
    · rw [Source.fuzz, hfields]
      exact (initFields_nodup_iff hinit s.instance? (s.members entities)).mpr h.members

end Derived

/-! ### The pass -/

/-- The names that a property and its instances write down are different. -/
structure DistinctNames (prop : PropertyDecl) : Prop where
  params : (prop.params.map (·.name)).Nodup
  init : (prop.initState.map (·.1)).Nodup
  instances : ∀ i ∈ prop.instances, (i.initState.map (·.1)).Nodup

/-- What the pass adds, and that it keeps what there was. -/
structure Appended (p out : Program) : Prop where
  properties : out.properties = p.properties
  tests : out.tests = p.tests ++ (p.sources.filter fun s => !s.isFuzz).map Source.test
  fuzzTests : out.fuzzTests =
    p.fuzzTests ++ (p.sources.filter Source.isFuzz).map (Source.fuzz p.entities)

theorem desugarProperties_appended (p : Program) : Appended p (desugarProperties p) where
  properties := rfl
  tests := by
    rw [← filterMap_test p.entities, ← lowered_eq]
    rfl
  fuzzTests := by
    rw [← filterMap_fuzz, ← lowered_eq]
    rfl

/-- A counter whose property samples its total, with a `let` in the body. -/
def counterProgram (bound : String) : Program :=
  { Program.empty with
    entities :=
      [{ name := "Counter", records := [], enums := [], typeAliases := [], constants := []
         macros := [], routes := [], members := [⟨"total", .simple "U256", false, none, []⟩]
         events := [], errors := [] }]
    properties :=
      [{ name := "grows", entityName := "Counter", params := [⟨"n", .simple "U256"⟩]
         initState := [], forallState := ⟨[.stateField "total"], false⟩, context := ⟨[]⟩
         body := [.letS bound none (.ident "n"), .call none "add" [.ident bound]]
         instances := [], tag := none, instantiates := none }] }

theorem counterProgram_distinctNames (bound : String) :
    ∀ prop ∈ (counterProgram bound).properties, DistinctNames prop := by
  intro prop hprop
  rw [List.mem_singleton.mp hprop]
  constructor
  · exact List.nodup_singleton _
  · exact List.nodup_nil
  · exact fun i hi => absurd hi List.not_mem_nil

end CambrianLang.Authored
