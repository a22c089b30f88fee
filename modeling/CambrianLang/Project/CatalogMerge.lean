/-
  **Folding linked declarations into the catalog** (`merge_catalog.rs`).

  Linked tests, then linked properties, then linked invariants are taken out of their
  lists, and each is resolved anew against what is left.  The check that precedes the
  merge resolves the same stems against the program as it was.
-/
import CambrianLang.Project.CatalogLinks
import CambrianLang.Lib.MapM

namespace CambrianLang.Authored

open UniqueMatch MapM
open Validate (NoErrors)

/-! ### The merge -/

/-- `has_catalog_links`. -/
def hasCatalogLinks (p : Program) : Bool :=
  (p.tests.any fun t => t.instantiates.isSome) ||
    (p.properties.any fun prop => prop.instantiates.isSome) ||
    p.invariants.any fun inv => inv.instantiates.isSome

/-- The instance a linked test becomes. -/
def testInstance (test : TestDecl) : PropertyInstance :=
  { kind := .test, name := some test.name, bindings := [], initState := test.initState
    forallState := ForallSpec.default, context := ⟨[]⟩, skipFrom := test.skipFrom, runs := none
    tag := test.tag, bodyDelta := test.body, replaceCatalogBody := false }

/-- The instance a linked property becomes.  Its own instances are not read. -/
def propertyInstance (prop : PropertyDecl) : PropertyInstance :=
  { kind := if prop.params.isEmpty then .test else .fuzz
    name := some prop.name, bindings := [], initState := prop.initState
    forallState := prop.forallState, context := prop.context, skipFrom := false, runs := none
    tag := prop.tag, bodyDelta := prop.body, replaceCatalogBody := false }

/-- `property_index`, without a value where the source panics. -/
def propertyIndex (p : Program) (entity stem : String) : Option Nat :=
  match resolveCatalogStem p entity stem with
  | .ok (.property i) => some i
  | _ => none

/-- `invariant_index`, without a value where the source panics. -/
def invariantIndex (p : Program) (entity stem : String) : Option Nat :=
  match resolveCatalogStem p entity stem with
  | .ok (.invariant i) => some i
  | _ => none

def addInstance (inst : PropertyInstance) (prop : PropertyDecl) : PropertyDecl :=
  { prop with instances := prop.instances ++ [inst] }

/-- `attach_test_link`. -/
def attachTestLink (p : Program) (test : TestDecl) : Option Program := do
  let stem ← test.instantiates
  let i ← propertyIndex p test.entityName stem
  return { p with properties := p.properties.modify i (addInstance (testInstance test)) }

/-- `attach_property_link`. -/
def attachPropertyLink (p : Program) (prop : PropertyDecl) : Option Program := do
  let stem ← prop.instantiates
  let i ← propertyIndex p prop.entityName stem
  return { p with properties := p.properties.modify i (addInstance (propertyInstance prop)) }

/-- A list of the supplemental declaration, or the catalog's where it has none. -/
def overriding {α : Type} (supplemental catalog : List α) : List α :=
  if supplemental.isEmpty then catalog else supplemental

/-- The instances of the merged invariant, without a value where the source panics on a
    missing first instance. -/
def overlayInstances : List InvariantInstance → List InvariantInstance →
    Option (List InvariantInstance)
  | m :: ms, s :: _ =>
    if s.initSpecified then
      some ({ m with init := s.init, forallState := s.forallState, initSpecified := true } :: ms)
    else if !s.forallState.isEmpty then some ({ m with forallState := s.forallState } :: ms)
    else some (m :: ms)
  | [], s :: _ => if s.initSpecified || !s.forallState.isEmpty then none else some []
  | _, [] => none

/-- `merge_invariant_overlay`. -/
def mergeInvariantOverlay (catalog supplemental : InvariantDecl) : Option InvariantDecl := do
  let instances ← overlayInstances catalog.instances supplemental.instances
  return {
    name := supplemental.name
    instances
    skipFrom := catalog.skipFrom || supplemental.skipFrom
    senders := overriding supplemental.senders catalog.senders
    deploy := overriding supplemental.deploy catalog.deploy
    context := if supplemental.context.isEmpty then catalog.context else supplemental.context
    actions := catalog.actions ++ supplemental.actions
    checks := overriding supplemental.checks catalog.checks
    failOnRevert := catalog.failOnRevert || supplemental.failOnRevert
    runs := supplemental.runs.or catalog.runs
    depth := supplemental.depth.or catalog.depth
    tag := supplemental.tag.or catalog.tag
    instantiates := none
    emitPolicy := .emit
    withTime := catalog.withTime || supplemental.withTime
    track := overriding supplemental.track catalog.track
    derived := overriding supplemental.derived catalog.derived
    excludeSenders := overriding supplemental.excludeSenders catalog.excludeSenders
    excludeSelectors := overriding supplemental.excludeSelectors catalog.excludeSelectors }

/-- One round of the loop over linked invariants: the program and
    `superseded_catalog_idxs`. -/
def attachInvariantLink (s : Program × List Nat) (inv : InvariantDecl) :
    Option (Program × List Nat) := do
  let stem ← inv.instantiates
  let entity ← inv.entityName
  let i ← invariantIndex s.1 entity stem
  let catalog ← s.1.invariants[i]?
  let merged ← mergeInvariantOverlay catalog inv
  return ({ s.1 with invariants := s.1.invariants ++ [merged] }, i :: s.2)

def supersede (inv : InvariantDecl) : InvariantDecl := { inv with emitPolicy := .superseded }

/-- The last loop, over `superseded_catalog_idxs`. -/
def supersedeAll (s : Program × List Nat) : Program :=
  { s.1 with invariants := s.2.foldl (fun invs i => invs.modify i supersede) s.1.invariants }

/-- The three loops, the linked declarations being taken out before each. -/
def foldLinks (p : Program) : Option Program := do
  let linkedTests := p.tests.filter fun t => t.instantiates.isSome
  let p ← linkedTests.foldlM attachTestLink
    { p with tests := p.tests.filter fun t => t.instantiates.isNone }
  let linkedProps := p.properties.filter fun prop => prop.instantiates.isSome
  let p ← linkedProps.foldlM attachPropertyLink
    { p with properties := p.properties.filter fun prop => prop.instantiates.isNone }
  let linkedInvs := p.invariants.filter fun inv => inv.instantiates.isSome
  let s ← linkedInvs.foldlM attachInvariantLink
    ({ p with invariants := p.invariants.filter fun inv => inv.instantiates.isNone }, [])
  return supersedeAll s

/-- `merge_catalog_instantiations`, without a value where the source panics. -/
def mergeCatalogInstantiations (p : Program) : Option Program :=
  if hasCatalogLinks p then foldLinks p else some p

theorem filter_all {α : Type} {u : α → Bool} {xs : List α} (h : ∀ x ∈ xs, u x = true) :
    xs.filter u = xs := List.filter_eq_self.mpr h

/-- Without links the loops do nothing. -/
theorem mergeCatalog_eq_foldLinks (p : Program) : mergeCatalogInstantiations p = foldLinks p := by
  rw [mergeCatalogInstantiations]
  split
  · rfl
  · rename_i hnone
    simp only [hasCatalogLinks, Bool.or_eq_true, List.any_eq_true, not_or, not_exists, not_and,
      Bool.not_eq_true] at hnone
    obtain ⟨⟨htests, hprops⟩, hinvs⟩ := hnone
    have htests' : (p.tests.filter fun t => t.instantiates.isSome) = [] :=
      List.filter_eq_nil_iff.mpr fun t ht => by simp [htests t ht]
    have hprops' : (p.properties.filter fun t => t.instantiates.isSome) = [] :=
      List.filter_eq_nil_iff.mpr fun t ht => by simp [hprops t ht]
    have hinvs' : (p.invariants.filter fun t => t.instantiates.isSome) = [] :=
      List.filter_eq_nil_iff.mpr fun t ht => by simp [hinvs t ht]
    have hkept : ∀ {o : Option String}, o.isSome = false → o.isNone = true := by
      intro o ho
      cases o <;> simp_all
    simp only [foldLinks, htests', List.foldlM_nil, hprops', hinvs', Option.bind_eq_bind,
      Option.pure_def, Option.bind_some, supersedeAll, List.foldl_nil,
      filter_all fun t ht => hkept (htests t ht), filter_all fun t ht => hkept (hprops t ht),
      filter_all fun t ht => hkept (hinvs t ht)]

/-! ### Attaching instances -/

/-- The additions to the property at position `i`. -/
def additionsAt (adds : List (Nat × PropertyInstance)) (i : Nat) : List PropertyInstance :=
  (adds.filter fun a => a.1 == i).map (·.2)

/-- A property with the additions to its position. -/
def withAdditions (adds : List (Nat × PropertyInstance)) (x : PropertyDecl × Nat) : PropertyDecl :=
  { x.1 with instances := x.1.instances ++ additionsAt adds x.2 }

/-- The properties with instances added at positions. -/
def grow (props : List PropertyDecl) (adds : List (Nat × PropertyInstance)) : List PropertyDecl :=
  props.zipIdx.map (withAdditions adds)

theorem grow_nil (props : List PropertyDecl) : grow props [] = props := by
  have hid : withAdditions [] = Prod.fst := by
    funext x
    simp [withAdditions, additionsAt]
  rw [grow, hid, List.zipIdx_map_fst]

theorem getElem?_grow (props : List PropertyDecl) (adds : List (Nat × PropertyInstance))
    (i : Nat) : (grow props adds)[i]? = props[i]?.map fun prop => withAdditions adds (prop, i) := by
  simp [grow, List.getElem?_zipIdx, Option.map_map, Function.comp_def]

/-- Pushing one more instance. -/
theorem modify_grow (props : List PropertyDecl) (adds : List (Nat × PropertyInstance)) (i : Nat)
    (inst : PropertyInstance) :
    (grow props adds).modify i (addInstance inst) = grow props (adds ++ [(i, inst)]) := by
  apply List.ext_getElem?
  intro j
  rw [List.getElem?_modify, getElem?_grow, getElem?_grow]
  cases props[j]? with
  | none => rfl
  | some prop =>
    by_cases hij : i = j
    · simp [hij, withAdditions, addInstance, additionsAt]
    · simp [hij, withAdditions, additionsAt]

/-- What resolution reads of a property. -/
def propertySig (prop : PropertyDecl) : String × String := (prop.entityName, prop.name)

/-- What resolution reads of an invariant. -/
def invariantSig (inv : InvariantDecl) : Bool × Option String × String :=
  (inv.isSingleEntity, inv.entityName, inv.name)

theorem propertyIndices_congr {ps qs : List PropertyDecl}
    (h : ps.map propertySig = qs.map propertySig) (entity stem : String) :
    indices (propertyMatches entity stem) ps = indices (propertyMatches entity stem) qs := by
  have hmap := congrArg
    (List.map fun sig : String × String => sig.1 == entity && stemMatches sig.2 stem) h
  rw [List.map_map, List.map_map] at hmap
  exact indices_eq_of_map hmap

theorem invariantIndices_congr {is js : List InvariantDecl}
    (h : is.map invariantSig = js.map invariantSig) (entity stem : String) :
    indices (invariantMatches entity stem) is = indices (invariantMatches entity stem) js := by
  have hmap := congrArg (List.map fun sig : Bool × Option String × String =>
    sig.1 && sig.2.1 == some entity && stemMatches sig.2.2 stem) h
  rw [List.map_map, List.map_map] at hmap
  exact indices_eq_of_map hmap

theorem map_sig_grow (props : List PropertyDecl) (adds : List (Nat × PropertyInstance)) :
    (grow props adds).map propertySig = props.map propertySig := by
  have hsig : propertySig ∘ withAdditions adds = propertySig ∘ Prod.fst := rfl
  rw [grow, List.map_map, hsig, ← List.map_map, List.zipIdx_map_fst]

/-- Resolution sees only the signatures. -/
theorem resolve_congr {p q : Program}
    (hprops : q.properties.map propertySig = p.properties.map propertySig)
    (hinvs : q.invariants.map invariantSig = p.invariants.map invariantSig)
    (entity stem : String) : resolveCatalogStem q entity stem = resolveCatalogStem p entity stem := by
  simp only [resolveCatalogStem, propertyIndices_congr hprops, invariantIndices_congr hinvs]

/-- A loop that pushes an instance for every element pushes them all, or stops at one it
    finds no place for. -/
theorem foldlM_attach {β : Type} {attach : Program → β → Option Program}
    {place : β → Option (Nat × PropertyInstance)} {q : Program}
    (hattach : ∀ adds x, attach { q with properties := grow q.properties adds } x =
      (place x).map fun a => { q with properties := grow q.properties (adds ++ [a]) }) :
    ∀ (xs : List β) (adds : List (Nat × PropertyInstance)),
      xs.foldlM attach { q with properties := grow q.properties adds } =
        (xs.mapM place).map fun as => { q with properties := grow q.properties (adds ++ as) } := by
  intro xs
  induction xs with
  | nil =>
    intro adds
    simp
  | cons x xs ih =>
    intro adds
    rw [List.foldlM_cons, hattach, List.mapM_cons]
    cases place x with
    | none => rfl
    | some a =>
      simp only [Option.map_some, Option.bind_eq_bind, Option.bind_some, ih (adds ++ [a])]
      cases xs.mapM place <;> simp

/-! ### The loops over tests and properties -/

/-- The position in the program as written that the link of a test resolves to. -/
def testTarget (p : Program) (test : TestDecl) : Option Nat :=
  test.instantiates.bind (propertyIndex p test.entityName)

/-- The position that the link of a property resolves to. -/
def propertyTarget (p : Program) (prop : PropertyDecl) : Option Nat :=
  prop.instantiates.bind (propertyIndex p prop.entityName)

/-- The position that the link of an invariant resolves to. -/
def invariantTarget (p : Program) (inv : InvariantDecl) : Option Nat :=
  inv.instantiates.bind fun stem => inv.entityName.bind fun entity => invariantIndex p entity stem

def unlinkedProperty (prop : PropertyDecl) : Bool := prop.instantiates.isNone

def unlinkedInvariant (inv : InvariantDecl) : Bool := inv.instantiates.isNone

def linkedProperty (prop : PropertyDecl) : Bool := prop.instantiates.isSome

def linkedInvariant (inv : InvariantDecl) : Bool := inv.instantiates.isSome

/-- The properties without a link, with their positions. -/
def survivors (p : Program) : List (PropertyDecl × Nat) :=
  p.properties.zipIdx.filter fun x => unlinkedProperty x.1

theorem filter_zipIdx_fst {α : Type} (u : α → Bool) (xs : List α) :
    (xs.zipIdx.filter fun x => u x.1).map Prod.fst = xs.filter u := by
  conv_rhs => rw [← List.zipIdx_map_fst 0 xs, List.filter_map]
  rfl

theorem filter_grow (u : PropertyDecl → Bool) (props : List PropertyDecl)
    (adds : List (Nat × PropertyInstance))
    (hu : ∀ x, u (withAdditions adds x) = u x.1) :
    (grow props adds).filter u = (props.zipIdx.filter fun x => u x.1).map (withAdditions adds) := by
  have hcomp : u ∘ withAdditions adds = fun x => u x.1 := funext hu
  rw [grow, List.filter_map, hcomp]

theorem propertyIndex_congr {p q : Program}
    (hprops : q.properties.map propertySig = p.properties.map propertySig)
    (hinvs : q.invariants.map invariantSig = p.invariants.map invariantSig)
    (entity stem : String) : propertyIndex q entity stem = propertyIndex p entity stem := by
  rw [propertyIndex, propertyIndex, resolve_congr hprops hinvs]

/-- The loop over linked tests, whose stems resolve as they did before. -/
theorem foldlM_tests (p : Program) (tests kept : List TestDecl) :
    tests.foldlM attachTestLink { p with tests := kept } =
      (tests.mapM fun t => (testTarget p t).map fun i => (i, testInstance t)).map fun as =>
        { p with tests := kept, properties := grow p.properties as } := by
  have hattach : ∀ adds t, attachTestLink { p with tests := kept, properties := grow p.properties adds } t =
      ((testTarget p t).map fun i => (i, testInstance t)).map fun a =>
        { p with tests := kept, properties := grow p.properties (adds ++ [a]) } := by
    intro adds t
    cases hlink : t.instantiates with
    | none => simp [attachTestLink, testTarget, hlink]
    | some stem =>
      have hindex : propertyIndex { p with tests := kept, properties := grow p.properties adds }
          t.entityName stem = propertyIndex p t.entityName stem := by
        apply propertyIndex_congr
        · exact map_sig_grow p.properties adds
        · rfl
      simp only [attachTestLink, testTarget, hlink, hindex, Option.bind_eq_bind, Option.bind_some,
        modify_grow]
      cases propertyIndex p t.entityName stem <;> rfl
  have hloop := foldlM_attach (q := { p with tests := kept }) hattach tests []
  simpa [grow_nil] using hloop

/-- The loop over linked properties, in a program `q` of which only the properties change. -/
theorem foldlM_properties (q : Program) (props : List PropertyDecl) :
    props.foldlM attachPropertyLink q =
      (props.mapM fun r => (propertyTarget q r).map fun i => (i, propertyInstance r)).map fun as =>
        { q with properties := grow q.properties as } := by
  have hattach : ∀ adds r, attachPropertyLink { q with properties := grow q.properties adds } r =
      ((propertyTarget q r).map fun i => (i, propertyInstance r)).map fun a =>
        { q with properties := grow q.properties (adds ++ [a]) } := by
    intro adds r
    cases hlink : r.instantiates with
    | none => simp [attachPropertyLink, propertyTarget, hlink]
    | some stem =>
      have hindex : propertyIndex { q with properties := grow q.properties adds }
          r.entityName stem = propertyIndex q r.entityName stem := by
        apply propertyIndex_congr
        · exact map_sig_grow q.properties adds
        · rfl
      simp only [attachPropertyLink, propertyTarget, hlink, hindex, Option.bind_eq_bind,
        Option.bind_some, modify_grow]
      cases propertyIndex q r.entityName stem <;> rfl
  have hloop := foldlM_attach hattach props []
  simpa [grow_nil] using hloop

/-- **A stem among the properties that are left** finds its property, unless that one was
    linked and is gone. -/
theorem propertyIndex_survivors {p q : Program} {entity stem : String} {i : Nat}
    {catalog : PropertyDecl}
    (hprops : q.properties.map propertySig = (p.properties.filter unlinkedProperty).map propertySig)
    (hinvs : q.invariants.map invariantSig = p.invariants.map invariantSig)
    (hres : resolveCatalogStem p entity stem = .ok (.property i))
    (hcatalog : p.properties[i]? = some catalog) :
    propertyIndex q entity stem =
      if unlinkedProperty catalog then some (rank unlinkedProperty p.properties i) else none := by
  obtain ⟨hstem, hfound, hnone⟩ := resolve_property_iff.mp hres
  obtain ⟨x, hx⟩ := indices_eq_singleton.mp hfound
  obtain rfl : x = catalog := Option.some.inj (hx.get.symm.trans hcatalog)
  have hnone' : indices (invariantMatches entity (trim stem)) q.invariants = [] := by
    rw [invariantIndices_congr hinvs, hnone]
  have hfound' : indices (propertyMatches entity (trim stem)) q.properties =
      if unlinkedProperty x then [rank unlinkedProperty p.properties i] else [] := by
    rw [propertyIndices_congr hprops, hx.filter]
  cases hu : unlinkedProperty x with
  | true =>
    rw [hu, if_pos rfl] at hfound'
    rw [propertyIndex, resolve_property_iff.mpr ⟨hstem, hfound', hnone'⟩, if_pos rfl]
  | false =>
    rw [hu, if_neg Bool.false_ne_true] at hfound'
    have hmissing : ∀ j, resolveCatalogStem q entity stem ≠ .ok (.property j) := by
      intro j hj
      rw [(resolve_property_iff.mp hj).2.1] at hfound'
      exact List.cons_ne_nil _ _ hfound'
    rw [propertyIndex, if_neg Bool.false_ne_true]
    split
    · rename_i j hj
      exact absurd hj (hmissing j)
    · rfl

/-! ### The loop over invariants -/

/-- The merged invariant answers to the name of the supplemental one. -/
theorem mergeInvariantOverlay_single {catalog supplemental : InvariantDecl}
    (hcatalog : catalog.isSingleEntity = true) (hsup : supplemental.isSingleEntity = true) :
    ∃ merged, mergeInvariantOverlay catalog supplemental = some merged ∧
      invariantSig merged = (true, catalog.entityName, supplemental.name) ∧
      merged.emitPolicy = .emit ∧ merged.instantiates = none := by
  simp only [InvariantDecl.isSingleEntity, Bool.and_eq_true, beq_iff_eq] at hcatalog hsup
  obtain ⟨m, hm⟩ := List.length_eq_one_iff.mp hcatalog.1
  obtain ⟨s, hs⟩ := List.length_eq_one_iff.mp hsup.1
  have hname : m.name = "_self" := by simpa [hm] using hcatalog.2
  simp only [mergeInvariantOverlay, hm, hs, overlayInstances]
  cases s.initSpecified with
  | true =>
    exact ⟨_, rfl, by simp [invariantSig, InvariantDecl.isSingleEntity, InvariantDecl.entityName, hm,
      hname], rfl, rfl⟩
  | false =>
    cases s.forallState.isEmpty <;>
      exact ⟨_, rfl, by simp [invariantSig, InvariantDecl.isSingleEntity, InvariantDecl.entityName,
        hm, hname], rfl, rfl⟩

/-- What a linked invariant becomes: an invariant under its name that is emitted, and the
    overlay of its catalog declaration where that one is not linked itself. -/
structure MergedAs (p : Program) (inv m : InvariantDecl) : Prop where
  sig : invariantSig m = invariantSig inv
  emitted : m.emitPolicy = .emit
  unlinked : m.instantiates = none
  overlaid : ∀ i catalog, invariantTarget p inv = some i → p.invariants[i]? = some catalog →
    unlinkedInvariant catalog = true → mergeInvariantOverlay catalog inv = some m

/-- The linked invariants of `pre` have been merged. -/
abbrev Folded (p : Program) (pre merged : List InvariantDecl) : Prop :=
  List.Forall₂ (MergedAs p) (pre.filter linkedInvariant) merged

theorem Folded.sigs {p : Program} {pre merged : List InvariantDecl} (h : Folded p pre merged) :
    merged.map invariantSig = (pre.filter linkedInvariant).map invariantSig := by
  have hmap : ∀ {xs ys : List InvariantDecl}, List.Forall₂ (MergedAs p) xs ys →
      ys.map invariantSig = xs.map invariantSig := by
    intro xs ys hxy
    induction hxy with
    | nil => rfl
    | cons hm _ ih => rw [List.map_cons, List.map_cons, hm.sig, ih]
  exact hmap h

variable {p q : Program} {pre post merged : List InvariantDecl} {inv catalog : InvariantDecl}
  {entity stem : String} {i : Nat}

/-- The position at which the target of a link is found, once the linked invariants before
    `n` are merged: among the unlinked ones, or among the merged. -/
def placeOf (p : Program) (n i : Nat) (catalog : InvariantDecl) : Option Nat :=
  if unlinkedInvariant catalog then some (rank unlinkedInvariant p.invariants i)
  else if i < n then
    some ((p.invariants.filter unlinkedInvariant).length + rank linkedInvariant p.invariants i)
  else none

theorem linked_eq_not_unlinked (inv : InvariantDecl) :
    linkedInvariant inv = !unlinkedInvariant inv := by
  simp only [unlinkedInvariant, linkedInvariant]
  cases inv.instantiates <;> rfl

/-- Among the linked invariants of `pre` the match is found if it is one of them. -/
theorem indices_linked (hp : p.invariants = pre ++ post)
    (hx : UniqueAt (invariantMatches entity stem) p.invariants i catalog) :
    indices (invariantMatches entity stem) (pre.filter linkedInvariant) =
      if i < pre.length ∧ linkedInvariant catalog = true then [rank linkedInvariant p.invariants i]
      else [] := by
  have hpre : p.invariants.take pre.length = pre := by rw [hp, List.take_left]
  obtain ⟨hbefore, hafter⟩ := hx.indices_take (n := pre.length)
  rw [hpre] at hbefore hafter
  by_cases hi : i < pre.length
  · have hrank : rank linkedInvariant pre i = rank linkedInvariant p.invariants i := by
      rw [rank, rank, hp, List.take_append_of_le_length (Nat.le_of_lt hi)]
    rw [(hbefore hi).filter, hrank]
    simp [hi]
  · rw [if_neg fun h => hi h.1]
    refine indices_eq_nil.mpr fun x hxm => ?_
    exact hafter (Nat.le_of_not_lt hi) x (List.mem_filter.mp hxm).1

theorem indices_merged (hp : p.invariants = pre ++ post) (hm : Folded p pre merged)
    (hx : UniqueAt (invariantMatches entity stem) p.invariants i catalog) :
    indices (invariantMatches entity stem) (p.invariants.filter unlinkedInvariant ++ merged) =
      (placeOf p pre.length i catalog).toList := by
  rw [indices_append, hx.filter, invariantIndices_congr hm.sigs, indices_linked hp hx, placeOf,
    linked_eq_not_unlinked]
  cases unlinkedInvariant catalog with
  | true => simp
  | false => by_cases hi : i < pre.length <;> simp [hi, Nat.add_comm]

/-- **A stem among the unlinked and the merged invariants.** -/
theorem invariantIndex_merged
    (hprops : q.properties.map propertySig = (p.properties.filter unlinkedProperty).map propertySig)
    (hinvs : q.invariants = p.invariants.filter unlinkedInvariant ++ merged)
    (hp : p.invariants = pre ++ post) (hm : Folded p pre merged)
    (hres : resolveCatalogStem p entity stem = .ok (.invariant i))
    (hcatalog : p.invariants[i]? = some catalog) :
    invariantIndex q entity stem = placeOf p pre.length i catalog ∧
      ∀ j, placeOf p pre.length i catalog = some j → ∃ x, q.invariants[j]? = some x ∧
        x.isSingleEntity = true ∧ x.entityName = some entity := by
  obtain ⟨hstem, hnone, hfound⟩ := resolve_invariant_iff.mp hres
  obtain ⟨x, hx⟩ := indices_eq_singleton.mp hfound
  obtain rfl : x = catalog := Option.some.inj (hx.get.symm.trans hcatalog)
  have hnone' : indices (propertyMatches entity (trim stem)) q.properties = [] := by
    rw [propertyIndices_congr hprops, indices_eq_nil]
    exact fun y hy => indices_eq_nil.mp hnone y (List.mem_filter.mp hy).1
  have hplaces : indices (invariantMatches entity (trim stem)) q.invariants =
      (placeOf p pre.length i x).toList := by
    rw [hinvs, indices_merged hp hm hx]
  cases hplace : placeOf p pre.length i x with
  | none =>
    rw [hplace, Option.toList_none] at hplaces
    refine ⟨?_, fun j hj => nomatch hj⟩
    rw [invariantIndex]
    split
    · rename_i j hj
      rw [(resolve_invariant_iff.mp hj).2.2] at hplaces
      exact absurd hplaces (List.cons_ne_nil _ _)
    · rfl
  | some k =>
    rw [hplace, Option.toList_some] at hplaces
    refine ⟨?_, ?_⟩
    · rw [invariantIndex, resolve_invariant_iff.mpr ⟨hstem, hnone', hplaces⟩]
    · rintro j hj
      obtain rfl : k = j := Option.some.inj hj
      obtain ⟨y, hy⟩ := indices_eq_singleton.mp hplaces
      have hmatch := hy.holds
      simp only [invariantMatches, Bool.and_eq_true, beq_iff_eq] at hmatch
      exact ⟨y, hy.get, hmatch.1.1, hmatch.1.2⟩

/-- The link of the invariant at position `n` leads to place `o`, or to none. -/
def LinkPlace (p : Program) (n : Nat) (o : Option Nat) : Prop :=
  ∃ inv i catalog, p.invariants[n]? = some inv ∧ invariantTarget p inv = some i ∧
    p.invariants[i]? = some catalog ∧ placeOf p n i catalog = o

/-- What the check gives for one linked invariant. -/
theorem LinksResolve.invariant (h : LinksResolve p) (hmem : inv ∈ p.invariants)
    (hlink : linkedInvariant inv = true) :
    ∃ stem entity i catalog, inv.instantiates = some stem ∧ inv.entityName = some entity ∧
      inv.isSingleEntity = true ∧ resolveCatalogStem p entity stem = .ok (.invariant i) ∧
      p.invariants[i]? = some catalog ∧ invariantTarget p inv = some i := by
  obtain ⟨stem, hstem⟩ := Option.isSome_iff_exists.mp hlink
  obtain ⟨hsingle, entity, hentity, i, hres⟩ := h.invariants inv hmem stem hstem
  obtain ⟨catalog, hcatalog⟩ := indices_eq_singleton.mp (resolve_invariant_iff.mp hres).2.2
  refine ⟨stem, entity, i, catalog, hstem, hentity, hsingle, hres, hcatalog.get, ?_⟩
  simp [invariantTarget, hstem, hentity, invariantIndex, hres]

/-- **One round of the loop.** -/
theorem attachInvariantLink_step (sup : List Nat) (h : LinksResolve p)
    (hprops : q.properties.map propertySig = (p.properties.filter unlinkedProperty).map propertySig)
    (hinvs : q.invariants = p.invariants.filter unlinkedInvariant ++ merged)
    (hp : p.invariants = pre ++ inv :: post) (hm : Folded p pre merged)
    (hlink : linkedInvariant inv = true) :
    ∃ o, LinkPlace p pre.length o ∧
      match o with
      | none => attachInvariantLink (q, sup) inv = none
      | some k => ∃ m, Folded p (pre ++ [inv]) (merged ++ [m]) ∧
          attachInvariantLink (q, sup) inv =
            some ({ q with invariants := q.invariants ++ [m] }, k :: sup) := by
  have hmem : inv ∈ p.invariants := by simp [hp]
  obtain ⟨stem, entity, i, catalog, hstem, hentity, hsingle, hres, hcatalog, htarget⟩ :=
    h.invariant hmem hlink
  obtain ⟨hindex, hplace⟩ := invariantIndex_merged hprops hinvs hp hm hres hcatalog
  have hget : p.invariants[pre.length]? = some inv := by simp [hp]
  refine ⟨placeOf p pre.length i catalog, ⟨inv, i, catalog, hget, htarget, hcatalog, rfl⟩, ?_⟩
  cases hk : placeOf p pre.length i catalog with
  | none => simp [attachInvariantLink, hstem, hentity, hindex, hk]
  | some k =>
    obtain ⟨x, hx, hxsingle, hxentity⟩ := hplace k hk
    obtain ⟨m, hoverlay, hsig, hemit, hnone⟩ := mergeInvariantOverlay_single hxsingle hsingle
    refine ⟨m, ?_, by simp [attachInvariantLink, hstem, hentity, hindex, hk, hx, hoverlay]⟩
    have hmerged : MergedAs p inv m := by
      refine ⟨?_, hemit, hnone, ?_⟩
      · rw [hsig, hxentity, invariantSig, hsingle, hentity]
      · intro j c hj hc hunlinked
        obtain rfl : i = j := Option.some.inj (htarget.symm.trans hj)
        obtain rfl : catalog = c := Option.some.inj (hcatalog.symm.trans hc)
        -- the target is among the unlinked, which the loop has not touched
        rw [placeOf, if_pos hunlinked] at hk
        obtain rfl := Option.some.inj hk
        have hrank := getElem?_rank hcatalog hunlinked
        rw [hinvs, List.getElem?_append_left (List.getElem?_eq_some_iff.mp hrank).1, hrank] at hx
        rw [Option.some.inj hx]
        exact hoverlay
    have hfilter : (pre ++ [inv]).filter linkedInvariant = pre.filter linkedInvariant ++ [inv] := by
      simp [hlink]
    rw [Folded, hfilter]
    exact List.rel_append hm (.cons hmerged .nil)

/-- The place of a link is determined. -/
theorem LinkPlace.unique {n : Nat} {o o' : Option Nat} (h : LinkPlace p n o)
    (h' : LinkPlace p n o') : o = o' := by
  obtain ⟨inv, i, catalog, hinv, hi, hcatalog, rfl⟩ := h
  obtain ⟨inv', i', catalog', hinv', hi', hcatalog', rfl⟩ := h'
  obtain rfl := Option.some.inj (hinv.symm.trans hinv')
  obtain rfl := Option.some.inj (hi.symm.trans hi')
  obtain rfl := Option.some.inj (hcatalog.symm.trans hcatalog')
  rfl

/-- Only a linked invariant has a place. -/
theorem LinkPlace.linked {n : Nat} {o : Option Nat} (h : LinkPlace p n o)
    (hget : p.invariants[n]? = some inv) : linkedInvariant inv = true := by
  obtain ⟨inv', i, catalog, hinv, hi, -, -⟩ := h
  obtain rfl := Option.some.inj (hget.symm.trans hinv)
  cases hstem : inv.instantiates with
  | none => simp [invariantTarget, hstem] at hi
  | some stem => simp [linkedInvariant, hstem]

/-- Some link from position `n` on leads to place `o`, or to none. -/
def LeadsFrom (p : Program) (n : Nat) (o : Option Nat) : Prop :=
  ∃ m, n ≤ m ∧ LinkPlace p m o

theorem leadsFrom_iff {n : Nat} {o : Option Nat} :
    LeadsFrom p n o ↔ LinkPlace p n o ∨ LeadsFrom p (n + 1) o := by
  constructor
  · rintro ⟨m, hm, hplace⟩
    rcases Nat.lt_or_eq_of_le hm with hlt | rfl
    · exact Or.inr ⟨m, hlt, hplace⟩
    · exact Or.inl hplace
  · rintro (hplace | ⟨m, hm, hplace⟩)
    · exact ⟨n, Nat.le_refl n, hplace⟩
    · exact ⟨m, Nat.le_of_succ_le hm, hplace⟩

theorem not_leadsFrom_end {n : Nat} (hn : p.invariants.length ≤ n) (o : Option Nat) :
    ¬ LeadsFrom p n o := by
  rintro ⟨m, hm, inv, i, catalog, hinv, -⟩
  rw [List.getElem?_eq_none (Nat.le_trans hn hm)] at hinv
  cases hinv

/-- **The whole loop.**  It stops where a link has no place; otherwise every linked
    invariant has been merged and the places found are superseded. -/
theorem foldlM_invariants (h : LinksResolve p)
    (hprops : q.properties.map propertySig = (p.properties.filter unlinkedProperty).map propertySig) :
    ∀ (post pre merged : List InvariantDecl) (sup : List Nat), p.invariants = pre ++ post →
      Folded p pre merged →
      (LeadsFrom p pre.length none ∧
          (post.filter linkedInvariant).foldlM attachInvariantLink
            ({ q with invariants := p.invariants.filter unlinkedInvariant ++ merged }, sup) = none) ∨
      (¬ LeadsFrom p pre.length none ∧
        ∃ merged' sup', Folded p p.invariants merged' ∧
          (∀ k, k ∈ sup' ↔ k ∈ sup ∨ LeadsFrom p pre.length (some k)) ∧
          (post.filter linkedInvariant).foldlM attachInvariantLink
            ({ q with invariants := p.invariants.filter unlinkedInvariant ++ merged }, sup) =
              some ({ q with invariants := p.invariants.filter unlinkedInvariant ++ merged' },
                sup')) := by
  intro post
  induction post with
  | nil =>
    intro pre merged sup hp hm
    rw [List.append_nil] at hp
    have hend := not_leadsFrom_end (p := p) (Nat.le_of_eq (congrArg List.length hp))
    exact Or.inr ⟨hend none, merged, sup, hp ▸ hm, fun k => by simp [hend (some k)], rfl⟩
  | cons inv post ih =>
    intro pre merged sup hp hm
    have hp' : p.invariants = (pre ++ [inv]) ++ post := by simp [hp]
    have hget : p.invariants[pre.length]? = some inv := by simp [hp]
    have hlen : (pre ++ [inv]).length = pre.length + 1 := by simp
    cases hlink : linkedInvariant inv with
    | false =>
      have hskip : ∀ o, LeadsFrom p pre.length o ↔ LeadsFrom p (pre ++ [inv]).length o := by
        intro o
        rw [leadsFrom_iff, hlen]
        refine or_iff_right fun hplace => ?_
        simp [hplace.linked hget] at hlink
      have hm' : Folded p (pre ++ [inv]) merged := by
        simpa [Folded, hlink] using hm
      rw [List.filter_cons_of_neg (by simp [hlink])]
      simp only [hskip]
      exact ih (pre ++ [inv]) merged sup hp' hm'
    | true =>
      rw [List.filter_cons_of_pos hlink, List.foldlM_cons]
      obtain ⟨o, hplace, hstep⟩ := attachInvariantLink_step sup h hprops
        (q := { q with invariants := p.invariants.filter unlinkedInvariant ++ merged }) rfl hp hm
        hlink
      cases o with
      | none =>
        refine Or.inl ⟨leadsFrom_iff.mpr (Or.inl hplace), ?_⟩
        rw [hstep]
        rfl
      | some k =>
        obtain ⟨m, hm', hattach⟩ := hstep
        rw [hattach]
        simp only [Option.bind_eq_bind, Option.bind_some, List.append_assoc]
        have hhere : ∀ j, LinkPlace p pre.length (some j) ↔ j = k := by
          intro j
          constructor
          · intro hj
            exact Option.some.inj (hj.unique hplace)
          · rintro rfl
            exact hplace
        have hfound : ¬ LinkPlace p pre.length none := fun hnone => nomatch hnone.unique hplace
        have hrest := ih (pre ++ [inv]) (merged ++ [m]) (k :: sup) hp' hm'
        rw [hlen] at hrest
        simp only [leadsFrom_iff (n := pre.length), hhere, hfound, false_or]
        simpa only [List.mem_cons, or_assoc, or_left_comm] using hrest

/-! ### The three loops together -/

/-- The tests without a link. -/
def keptTests (p : Program) : List TestDecl := p.tests.filter fun t => t.instantiates.isNone

/-- The place of an instance that comes from a linked test. -/
def testPlace (p : Program) (t : TestDecl) : Option (Nat × PropertyInstance) :=
  (testTarget p t).map fun i => (i, testInstance t)

/-- The place among the survivors of an instance that comes from a linked property. -/
def propertyPlace (p : Program) (r : PropertyDecl) : Option (Nat × PropertyInstance) := do
  let i ← propertyTarget p r
  let catalog ← p.properties[i]?
  if unlinkedProperty catalog then
    some (rank unlinkedProperty p.properties i, propertyInstance r)
  else none

/-- The program between the loops over tests and properties. -/
def afterTests (p : Program) (adds : List (Nat × PropertyInstance)) : Program :=
  { p with tests := keptTests p, properties := (survivors p).map (withAdditions adds) }

theorem survivors_sigs (p : Program) (adds : List (Nat × PropertyInstance)) :
    ((survivors p).map (withAdditions adds)).map propertySig =
      (p.properties.filter unlinkedProperty).map propertySig := by
  have hsig : propertySig ∘ withAdditions adds = propertySig ∘ Prod.fst := rfl
  rw [List.map_map, hsig, ← List.map_map, survivors, filter_zipIdx_fst]

/-- The links of properties, resolved between the two loops. -/
theorem propertyTarget_afterTests (h : LinksResolve p) (adds : List (Nat × PropertyInstance))
    {r : PropertyDecl} (hr : r ∈ p.properties) :
    ((propertyTarget (afterTests p adds) r).map fun i => (i, propertyInstance r)) =
      propertyPlace p r := by
  cases hstem : r.instantiates with
  | none => simp [propertyTarget, propertyPlace, hstem]
  | some stem =>
    obtain ⟨i, hres⟩ := h.properties r hr stem hstem
    obtain ⟨catalog, hcatalog⟩ := indices_eq_singleton.mp (resolve_property_iff.mp hres).2.1
    have hindex : propertyIndex (afterTests p adds) r.entityName stem = _ :=
      propertyIndex_survivors (survivors_sigs p adds) rfl hres hcatalog.get
    have htarget : propertyTarget p r = some i := by
      simp [propertyTarget, hstem, propertyIndex, hres]
    simp only [propertyTarget, hstem, Option.bind_some, hindex, propertyPlace] at htarget ⊢
    simp only [htarget, Option.bind_eq_bind, Option.bind_some, hcatalog.get]
    split <;> rfl

/-- **The merge as three passes over the program as written.** -/
theorem foldLinks_eq (h : LinksResolve p) :
    foldLinks p =
      ((p.tests.filter fun t => t.instantiates.isSome).mapM (testPlace p)).bind fun adds =>
        ((p.properties.filter linkedProperty).mapM (propertyPlace p)).bind fun adds' =>
          ((p.invariants.filter linkedInvariant).foldlM attachInvariantLink
            ({ p with
                tests := keptTests p
                properties := grow ((survivors p).map (withAdditions adds)) adds'
                invariants := p.invariants.filter unlinkedInvariant }, [])).map supersedeAll := by
  have htests := foldlM_tests p (p.tests.filter fun t => t.instantiates.isSome) (keptTests p)
  rw [foldLinks]
  change (List.foldlM attachTestLink { p with tests := keptTests p } _ >>= _) = _
  rw [htests]
  change ((List.mapM (testPlace p) _).map _ >>= _) = _
  cases hadds : (p.tests.filter fun t => t.instantiates.isSome).mapM (testPlace p) with
  | none => rfl
  | some adds =>
    have hkept : (grow p.properties adds).filter unlinkedProperty =
        (survivors p).map (withAdditions adds) :=
      filter_grow unlinkedProperty p.properties adds fun _ => rfl
    have hplaces : ((grow p.properties adds).filter linkedProperty).mapM
        (fun r => (propertyTarget (afterTests p adds) r).map fun i => (i, propertyInstance r)) =
          (p.properties.filter linkedProperty).mapM (propertyPlace p) := by
      rw [filter_grow linkedProperty p.properties adds fun _ => rfl, List.mapM_map,
        ← filter_zipIdx_fst linkedProperty p.properties, List.mapM_map]
      refine mapM_congr fun x hx => ?_
      have hmem : x.1 ∈ p.properties := by
        have hfst := List.mem_map_of_mem (f := Prod.fst) (List.mem_filter.mp hx).1
        rwa [List.zipIdx_map_fst] at hfst
      -- what is read of a property leaves its instances aside
      change ((propertyTarget (afterTests p adds) x.1).map fun i => (i, propertyInstance x.1)) = _
      exact propertyTarget_afterTests h adds hmem
    simp only [Option.map_some, Option.bind_eq_bind, Option.bind_some]
    change (List.foldlM attachPropertyLink { p with
      tests := keptTests p, properties := (grow p.properties adds).filter unlinkedProperty }
        ((grow p.properties adds).filter linkedProperty)).bind _ = _
    rw [hkept]
    change (List.foldlM attachPropertyLink (afterTests p adds) _).bind _ = _
    rw [foldlM_properties, hplaces]
    cases (p.properties.filter linkedProperty).mapM (propertyPlace p) with
    | none => rfl
    | some adds' =>
      exact Option.map_eq_bind.symm

/-! ### When the merge returns -/

/-- Every linked property names one that is not linked, and every linked invariant one that
    is not linked or stands before it. -/
def TargetsAvailable (p : Program) : Prop :=
  (∀ r ∈ p.properties, ∀ i catalog, propertyTarget p r = some i → p.properties[i]? = some catalog →
    catalog.instantiates = none) ∧
  ∀ n inv i catalog, p.invariants[n]? = some inv → invariantTarget p inv = some i →
    p.invariants[i]? = some catalog → catalog.instantiates = none ∨ i < n

theorem unlinkedProperty_iff {prop : PropertyDecl} :
    unlinkedProperty prop = true ↔ prop.instantiates = none := by
  simp [unlinkedProperty]

theorem unlinkedInvariant_iff : unlinkedInvariant inv = true ↔ inv.instantiates = none := by
  simp [unlinkedInvariant]

/-- What the check gives for one linked property. -/
theorem LinksResolve.property (h : LinksResolve p) {r : PropertyDecl} (hr : r ∈ p.properties)
    (hlink : linkedProperty r = true) :
    ∃ i catalog, propertyTarget p r = some i ∧ p.properties[i]? = some catalog := by
  obtain ⟨stem, hstem⟩ := Option.isSome_iff_exists.mp hlink
  obtain ⟨i, hres⟩ := h.properties r hr stem hstem
  obtain ⟨catalog, hcatalog⟩ := indices_eq_singleton.mp (resolve_property_iff.mp hres).2.1
  exact ⟨i, catalog, by simp [propertyTarget, hstem, propertyIndex, hres], hcatalog.get⟩

/-- What the check gives for one linked test. -/
theorem LinksResolve.test (h : LinksResolve p) {t : TestDecl} (ht : t ∈ p.tests)
    (hlink : t.instantiates.isSome = true) :
    ∃ i catalog, testTarget p t = some i ∧ p.properties[i]? = some catalog := by
  obtain ⟨stem, hstem⟩ := Option.isSome_iff_exists.mp hlink
  obtain ⟨i, hres⟩ := h.tests t ht stem hstem
  obtain ⟨catalog, hcatalog⟩ := indices_eq_singleton.mp (resolve_property_iff.mp hres).2.1
  exact ⟨i, catalog, by simp [testTarget, hstem, propertyIndex, hres], hcatalog.get⟩

/-- The loop over tests always ends. -/
theorem testPlaces (h : LinksResolve p) :
    ∃ adds, (p.tests.filter fun t => t.instantiates.isSome).mapM (testPlace p) = some adds := by
  refine mapM_returns.mpr fun t ht => ?_
  obtain ⟨hmem, hlink⟩ := List.mem_filter.mp ht
  obtain ⟨i, -, htarget, -⟩ := h.test hmem hlink
  exact ⟨_, by rw [testPlace, htarget]; rfl⟩

/-- The loop over properties ends when no target is linked. -/
theorem propertyPlaces_iff (h : LinksResolve p) :
    (∃ adds, (p.properties.filter linkedProperty).mapM (propertyPlace p) = some adds) ↔
      ∀ r ∈ p.properties, ∀ i catalog, propertyTarget p r = some i →
        p.properties[i]? = some catalog → catalog.instantiates = none := by
  rw [mapM_returns]
  constructor
  · intro hall r hr i catalog htarget hcatalog
    have hlink : linkedProperty r = true := by
      cases hstem : r.instantiates with
      | none => simp [propertyTarget, hstem] at htarget
      | some stem => simp [linkedProperty, hstem]
    obtain ⟨place, hplace⟩ := hall r (List.mem_filter.mpr ⟨hr, hlink⟩)
    simp only [propertyPlace, htarget, hcatalog, Option.bind_eq_bind, Option.bind_some] at hplace
    split at hplace
    · rename_i hunlinked
      exact unlinkedProperty_iff.mp hunlinked
    · cases hplace
  · intro hall r hr
    obtain ⟨hmem, hlink⟩ := List.mem_filter.mp hr
    obtain ⟨i, catalog, htarget, hcatalog⟩ := h.property hmem hlink
    have hunlinked := unlinkedProperty_iff.mpr (hall r hmem i catalog htarget hcatalog)
    simp [propertyPlace, htarget, hcatalog, hunlinked]

theorem linkPlaces_iff :
    (∀ n, ¬ LinkPlace p n none) ↔
      ∀ n inv i catalog, p.invariants[n]? = some inv → invariantTarget p inv = some i →
        p.invariants[i]? = some catalog → catalog.instantiates = none ∨ i < n := by
  have hplace : ∀ n i catalog, placeOf p n i catalog ≠ none ↔
      catalog.instantiates = none ∨ i < n := by
    intro n i catalog
    rw [placeOf, ← unlinkedInvariant_iff]
    split
    · simp_all
    · split <;> simp_all
  constructor
  · intro hall n inv i catalog hinv htarget hcatalog
    refine (hplace n i catalog).mp fun hnone => ?_
    exact hall n ⟨inv, i, catalog, hinv, htarget, hcatalog, hnone⟩
  · rintro hall n ⟨inv, i, catalog, hinv, htarget, hcatalog, hnone⟩
    exact (hplace n i catalog).mpr (hall n inv i catalog hinv htarget hcatalog) hnone

/-- The lists that the three loops of a merge from `p` to `q` go through. -/
structure MergeRun (p q : Program) (adds adds' : List (Nat × PropertyInstance))
    (merged : List InvariantDecl) (sup : List Nat) : Prop where
  links : LinksResolve p
  available : TargetsAvailable p
  tests : (p.tests.filter fun t => t.instantiates.isSome).mapM (testPlace p) = some adds
  properties : (p.properties.filter linkedProperty).mapM (propertyPlace p) = some adds'
  folded : Folded p p.invariants merged
  superseded : ∀ k, k ∈ sup ↔ ∃ n, LinkPlace p n (some k)
  result : q = supersedeAll ({ p with
    tests := keptTests p
    properties := grow ((survivors p).map (withAdditions adds)) adds'
    invariants := p.invariants.filter unlinkedInvariant ++ merged }, sup)

/-- A merge goes through its loops, or a target is missing. -/
theorem merge_cases (h : LinksResolve p) :
    (mergeCatalogInstantiations p = none ∧ ¬ TargetsAvailable p) ∨
      ∃ q, mergeCatalogInstantiations p = some q ∧
        ∃ adds adds' merged sup, MergeRun p q adds adds' merged sup := by
  obtain ⟨adds, hadds⟩ := testPlaces h
  rw [mergeCatalog_eq_foldLinks, foldLinks_eq h, hadds, Option.bind_some]
  cases hadds' : (p.properties.filter linkedProperty).mapM (propertyPlace p) with
  | none =>
    refine Or.inl ⟨rfl, fun havailable => ?_⟩
    obtain ⟨adds', hsome⟩ := (propertyPlaces_iff h).mpr havailable.1
    rw [hadds'] at hsome
    cases hsome
  | some adds' =>
    have hprops : (grow ((survivors p).map (withAdditions adds)) adds').map propertySig =
        (p.properties.filter unlinkedProperty).map propertySig := by
      rw [map_sig_grow, survivors_sigs]
    have hrun := foldlM_invariants (q := { p with
      tests := keptTests p, properties := grow ((survivors p).map (withAdditions adds)) adds' })
      h hprops p.invariants [] [] [] rfl .nil
    simp only [List.append_nil, List.length_nil, LeadsFrom, Nat.zero_le, true_and,
      List.not_mem_nil, false_or] at hrun
    rw [Option.bind_some]
    rcases hrun with ⟨⟨n, hnone⟩, hfold⟩ | ⟨hall, merged, sup, hfolded, hsup, hfold⟩
    · rw [hfold]
      exact Or.inl ⟨rfl, fun havailable => linkPlaces_iff.mpr havailable.2 n hnone⟩
    · rw [hfold]
      have havailable : TargetsAvailable p :=
        ⟨(propertyPlaces_iff h).mp ⟨adds', hadds'⟩, linkPlaces_iff.mp (not_exists.mp hall)⟩
      exact Or.inr ⟨_, rfl, adds, adds', merged, sup, h, havailable, hadds, hadds', hfolded, hsup,
        rfl⟩

/-- **When the merge returns.**  A program that passes the check is merged without a panic
    exactly when the targets of its links are still there when they are looked up. -/
theorem merge_returns_iff (h : NoErrors (catalogPreMergeCheck p)) :
    (∃ q, mergeCatalogInstantiations p = some q) ↔ TargetsAvailable p := by
  rcases merge_cases (linksResolve_of_check h) with ⟨hnone, hmissing⟩ |
    ⟨q, hq, adds, adds', merged, sup, hrun⟩
  · rw [hnone]
    simp [hmissing]
  · exact ⟨fun _ => hrun.available, fun _ => ⟨q, hq⟩⟩

/-- A property of the entity `Vault` without parameters or body. -/
def vaultProperty (name : String) (instantiates : Option String) : PropertyDecl :=
  { name, entityName := "Vault", params := [], initState := [], forallState := .default
    context := ⟨[]⟩, body := [], instances := [], tag := none, instantiates }

/-- A catalog property with a supplemental one linked to it. -/
def feeWithLink : Program :=
  { Program.empty with
    properties := [vaultProperty "fee" none, vaultProperty "low_fee" (some "fee")] }

/-- A property that is linked to itself. -/
def feeLoop : Program :=
  { Program.empty with properties := [vaultProperty "fee" (some "fee")] }

theorem merge_returns_feeWithLink :
    (∃ q, mergeCatalogInstantiations feeWithLink = some q) ↔ TargetsAvailable feeWithLink :=
  merge_returns_iff (by decide)

/-- The check finds `fee` in the list that the merge is about to take it out of. -/
theorem feeLoop_merge_panics :
    ¬ ∀ p, NoErrors (catalogPreMergeCheck p) → ∃ q, mergeCatalogInstantiations p = some q := by
  intro hall
  obtain ⟨q, hq⟩ := hall feeLoop (by decide)
  have hnone : mergeCatalogInstantiations feeLoop = none := rfl
  rw [hnone] at hq
  cases hq

end CambrianLang.Authored
