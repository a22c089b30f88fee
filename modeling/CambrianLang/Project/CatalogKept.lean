/-
  **What the catalog merge keeps** of the tests, properties and invariants of a program
  (`merge_catalog.rs`).
-/
import CambrianLang.Project.CatalogMerge

namespace CambrianLang.Authored

open UniqueMatch MapM
open Validate (NoErrors)

variable {p q : Program} {i k : Nat}

/-! ### Nothing lost -/

/-- An instance with everything that a linked test says. -/
structure KeepsTest (test : TestDecl) (inst : PropertyInstance) : Prop where
  kind : inst.kind = .test
  name : inst.name = some test.name
  initState : inst.initState = test.initState
  tag : inst.tag = test.tag
  skipFrom : inst.skipFrom = test.skipFrom
  body : inst.bodyDelta = test.body

/-- An instance with everything that a linked property says of its own. -/
structure KeepsProperty (prop : PropertyDecl) (inst : PropertyInstance) : Prop where
  name : inst.name = some prop.name
  initState : inst.initState = prop.initState
  forallState : inst.forallState = prop.forallState
  context : inst.context = prop.context
  tag : inst.tag = prop.tag
  body : inst.bodyDelta = prop.body

def testsLinkedTo (p : Program) (i : Nat) : List TestDecl :=
  p.tests.filter fun t => testTarget p t == some i

def propertiesLinkedTo (p : Program) (i : Nat) : List PropertyDecl :=
  p.properties.filter fun r => propertyTarget p r == some i

/-- One instance for each test and each property linked to position `i`, and the instances
    that those properties have themselves. -/
def CollectsLinked (p : Program) (i : Nat) (added : List PropertyInstance) : Prop :=
  ∃ fromTests fromProps, List.Forall₂ KeepsTest (testsLinkedTo p i) fromTests ∧
    List.Forall₂ KeepsProperty (propertiesLinkedTo p i) fromProps ∧
    added.Perm (fromTests ++ fromProps ++ (propertiesLinkedTo p i).flatMap (·.instances))

/-- The merged form of a property without a link, given with its position. -/
def Extends (p : Program) (s : PropertyDecl × Nat) (prop : PropertyDecl) : Prop :=
  ∃ added, prop = { s.1 with instances := s.1.instances ++ added } ∧ CollectsLinked p s.2 added

/-- The property of `q` that the one at position `i` of `p` has become. -/
def Counterpart (p q : Program) (i : Nat) (prop : PropertyDecl) : Prop :=
  ∃ (k : Nat) (s : PropertyDecl), (survivors p)[k]? = some (s, i) ∧ q.properties[k]? = some prop

/-- An invariant without a link, superseded if a link names it. -/
def markSuperseded (p : Program) (x : InvariantDecl × Nat) : InvariantDecl :=
  if p.invariants.any fun inv => invariantTarget p inv == some x.2 then supersede x.1 else x.1

/-- The invariants without a link, with their positions. -/
def unlinkedInvariants (p : Program) : List (InvariantDecl × Nat) :=
  p.invariants.zipIdx.filter fun x => unlinkedInvariant x.1

/-- What a linked invariant yields: the overlay of its catalog invariant, to be emitted. -/
structure Emitted (p : Program) (inv m : InvariantDecl) : Prop where
  sig : invariantSig m = invariantSig inv
  policy : m.emitPolicy = .emit
  overlay : ∃ i catalog, invariantTarget p inv = some i ∧ p.invariants[i]? = some catalog ∧
    mergeInvariantOverlay catalog inv = some m

/-- Everything that `p` says about verification is still there in `q`. -/
structure NothingLost (p q : Program) : Prop where
  tests : q.tests = keptTests p
  properties : List.Forall₂ (Extends p) (survivors p) q.properties
  testLinks : ∀ t ∈ p.tests, ∀ i, testTarget p t = some i →
    ∃ prop, Counterpart p q i prop ∧ ∃ inst ∈ prop.instances, KeepsTest t inst
  propertyLinks : ∀ r ∈ p.properties, ∀ i, propertyTarget p r = some i →
    ∃ prop, Counterpart p q i prop ∧ (∃ inst ∈ prop.instances, KeepsProperty r inst) ∧
      r.instances ⊆ prop.instances
  invariants : ∃ merged, q.invariants = (unlinkedInvariants p).map (markSuperseded p) ++ merged ∧
    List.Forall₂ (Emitted p) (p.invariants.filter linkedInvariant) merged

/-- No linked property has instances of its own, and no link of a test or an invariant
    names a declaration that is linked itself. -/
structure LinksPlain (p : Program) : Prop where
  properties : ∀ r ∈ p.properties, linkedProperty r = true → r.instances = []
  tests : ∀ t ∈ p.tests, ∀ i catalog, testTarget p t = some i →
    p.properties[i]? = some catalog → catalog.instantiates = none
  invariants : ∀ inv ∈ p.invariants, ∀ i catalog, invariantTarget p inv = some i →
    p.invariants[i]? = some catalog → catalog.instantiates = none

theorem keepsTest_testInstance (t : TestDecl) : KeepsTest t (testInstance t) :=
  ⟨rfl, rfl, rfl, rfl, rfl, rfl⟩

theorem keepsProperty_propertyInstance (r : PropertyDecl) :
    KeepsProperty r (propertyInstance r) :=
  ⟨rfl, rfl, rfl, rfl, rfl, rfl⟩

/-! ### What a merge has done -/

theorem mergeRun_of_merge (h : NoErrors (catalogPreMergeCheck p))
    (hq : mergeCatalogInstantiations p = some q) :
    ∃ adds adds' merged sup, MergeRun p q adds adds' merged sup := by
  rcases merge_cases (linksResolve_of_check h) with ⟨hnone, -⟩ | ⟨q', hq', hrun⟩
  · rw [hnone] at hq
    cases hq
  · obtain rfl : q' = q := Option.some.inj (hq'.symm.trans hq)
    exact hrun

/-! ### The properties -/

/-- The additions to one place, when the elements are placed by their targets. -/
theorem additionsAt_places {β : Type} {place : β → Option (Nat × PropertyInstance)}
    (target : β → Option Nat) (inst : β → PropertyInstance) {xs : List β}
    {adds : List (Nat × PropertyInstance)} (hadds : xs.mapM place = some adds)
    (hplace : ∀ x ∈ xs, ∀ a, place x = some a → a.2 = inst x ∧ (a.1 = k ↔ target x = some i)) :
    additionsAt adds k = (xs.filter fun x => target x == some i).map inst := by
  have hall := mapM_eq_some.mp hadds
  clear hadds
  induction hall with
  | nil => rfl
  | @cons x a xs adds hx _ ih =>
    have htail := ih fun y hy => hplace y (List.mem_cons_of_mem _ hy)
    obtain ⟨hinst, hat⟩ := hplace x List.mem_cons_self a hx
    rw [additionsAt] at htail ⊢
    rw [List.filter_cons, List.filter_cons]
    by_cases hk : a.1 = k
    · rw [if_pos (by simpa using hk), if_pos (by simpa using hat.mp hk), List.map_cons,
        List.map_cons, htail, hinst]
    · rw [if_neg (by simpa using hk), if_neg (by simpa using fun h => hk (hat.mpr h)), htail]

theorem filter_linked {β : Type} {target : β → Option Nat} {linked : β → Bool} {xs : List β}
    (h : ∀ x, target x = some i → linked x = true) :
    (xs.filter linked).filter (fun x => target x == some i) =
      xs.filter fun x => target x == some i := by
  rw [List.filter_filter]
  refine List.filter_congr fun x _ => ?_
  cases hx : target x == some i with
  | false => rfl
  | true => simp [h x (by simpa using hx)]

theorem linked_of_testTarget {t : TestDecl} (h : testTarget p t = some i) :
    t.instantiates.isSome = true := by
  cases hstem : t.instantiates with
  | none => simp [testTarget, hstem] at h
  | some stem => rfl

theorem linked_of_propertyTarget {r : PropertyDecl} (h : propertyTarget p r = some i) :
    linkedProperty r = true := by
  cases hstem : r.instantiates with
  | none => simp [propertyTarget, hstem] at h
  | some stem => simp [linkedProperty, hstem]

variable {adds adds' : List (Nat × PropertyInstance)} {merged : List InvariantDecl} {sup : List Nat}

theorem MergeRun.testAdditions (run : MergeRun p q adds adds' merged sup) (i : Nat) :
    additionsAt adds i = (testsLinkedTo p i).map testInstance := by
  have hplaced : ∀ t ∈ p.tests.filter fun t => t.instantiates.isSome, ∀ a, testPlace p t = some a →
      a.2 = testInstance t ∧ (a.1 = i ↔ testTarget p t = some i) := by
    intro t _ a ha
    obtain ⟨j, hj, rfl⟩ := Option.map_eq_some_iff.mp ha
    simp [hj]
  rw [additionsAt_places (testTarget p) testInstance run.tests hplaced,
    filter_linked fun t ht => linked_of_testTarget ht]
  rfl

theorem MergeRun.propertyAdditions (run : MergeRun p q adds adds' merged sup) {s : PropertyDecl}
    (hs : (survivors p)[k]? = some (s, i)) :
    additionsAt adds' k = (propertiesLinkedTo p i).map propertyInstance := by
  obtain ⟨hi, hunlinked, hrank⟩ := rank_of_getElem? hs
  have hplaced : ∀ r ∈ p.properties.filter linkedProperty, ∀ a, propertyPlace p r = some a →
      a.2 = propertyInstance r ∧ (a.1 = k ↔ propertyTarget p r = some i) := by
    intro r _ a ha
    simp only [propertyPlace, Option.bind_eq_bind, Option.bind_eq_some_iff] at ha
    obtain ⟨j, hj, catalog, hcatalog, ha⟩ := ha
    split at ha
    · rename_i hplain
      cases ha
      refine ⟨rfl, ?_⟩
      rw [hj, ← hrank]
      constructor
      · intro hsame
        rw [rank_inj hcatalog hplain hi hunlinked hsame]
      · intro hsame
        rw [Option.some.inj hsame]
    · cases ha
  rw [additionsAt_places (propertyTarget p) propertyInstance run.properties hplaced,
    filter_linked fun r hr => linked_of_propertyTarget hr]
  rfl

/-- The instances that the loops over tests and properties add at position `i`. -/
def added (p : Program) (i : Nat) : List PropertyInstance :=
  (testsLinkedTo p i).map testInstance ++ (propertiesLinkedTo p i).map propertyInstance

/-- A property with what is added at its position. -/
def extended (p : Program) (s : PropertyDecl × Nat) : PropertyDecl :=
  { s.1 with instances := s.1.instances ++ added p s.2 }

/-- **The properties after the merge.** -/
theorem MergeRun.properties_eq (run : MergeRun p q adds adds' merged sup) :
    q.properties = (survivors p).map (extended p) := by
  have hq : q.properties = grow ((survivors p).map (withAdditions adds)) adds' := by
    rw [run.result]
    rfl
  rw [hq]
  apply List.ext_getElem?
  intro k
  rw [getElem?_grow, List.getElem?_map, List.getElem?_map, Option.map_map]
  cases hs : (survivors p)[k]? with
  | none => rfl
  | some s =>
    simp only [Option.map_some, Function.comp_apply, withAdditions, extended, added,
      List.append_assoc]
    rw [run.testAdditions, run.propertyAdditions hs]

theorem collects_added_iff :
    CollectsLinked p i (added p i) ↔ ∀ r ∈ propertiesLinkedTo p i, r.instances = [] := by
  constructor
  · rintro ⟨fromTests, fromProps, htests, hprops, hperm⟩
    have hlen := hperm.length_eq
    simp only [added, List.length_append, List.length_map, htests.length_eq, hprops.length_eq] at hlen
    have hnil : (propertiesLinkedTo p i).flatMap (·.instances) = [] := by
      apply List.eq_nil_of_length_eq_zero
      omega
    exact List.flatMap_eq_nil_iff.mp hnil
  · intro hnone
    have hnil := List.flatMap_eq_nil_iff.mpr hnone
    refine ⟨(testsLinkedTo p i).map testInstance, (propertiesLinkedTo p i).map propertyInstance,
      ?_, ?_, ?_⟩
    · rw [List.forall₂_map_right_iff, List.forall₂_same]
      exact fun t _ => keepsTest_testInstance t
    · rw [List.forall₂_map_right_iff, List.forall₂_same]
      exact fun r _ => keepsProperty_propertyInstance r
    · rw [hnil, List.append_nil]
      exact List.Perm.refl _

theorem extends_extended_iff {s : PropertyDecl × Nat} :
    Extends p s (extended p s) ↔ CollectsLinked p s.2 (added p s.2) := by
  constructor
  · rintro ⟨more, hmore, hcollects⟩
    have hinstances := congrArg PropertyDecl.instances hmore
    rwa [List.append_cancel_left hinstances]
  · exact fun hcollects => ⟨_, rfl, hcollects⟩

/-- The property that one without a link has become. -/
theorem MergeRun.counterpart_of_unlinked (run : MergeRun p q adds adds' merged sup)
    {catalog : PropertyDecl} (hcatalog : p.properties[i]? = some catalog)
    (hunlinked : catalog.instantiates = none) :
    Counterpart p q i (extended p (catalog, i)) := by
  have hs : (survivors p)[rank unlinkedProperty p.properties i]? = some (catalog, i) :=
    getElem?_rank_zipIdx hcatalog (unlinkedProperty_iff.mpr hunlinked)
  refine ⟨_, catalog, hs, ?_⟩
  rw [run.properties_eq, List.getElem?_map, hs]
  rfl

theorem unlinked_of_counterpart {prop catalog : PropertyDecl} (h : Counterpart p q i prop)
    (hcatalog : p.properties[i]? = some catalog) : catalog.instantiates = none := by
  obtain ⟨k, s, hs, -⟩ := h
  obtain ⟨hi, hunlinked, -⟩ := rank_of_getElem? hs
  rw [hi] at hcatalog
  obtain rfl := Option.some.inj hcatalog
  exact unlinkedProperty_iff.mp hunlinked

/-- The targets of linked properties are not linked, so the properties keep everything when
    none of the linked ones has instances. -/
theorem MergeRun.properties_iff (run : MergeRun p q adds adds' merged sup) :
    List.Forall₂ (Extends p) (survivors p) q.properties ↔
      ∀ r ∈ p.properties, linkedProperty r = true → r.instances = [] := by
  rw [run.properties_eq, List.forall₂_map_right_iff, List.forall₂_same]
  simp only [extends_extended_iff, collects_added_iff]
  constructor
  · intro hall r hr hlink
    obtain ⟨i, catalog, htarget, hcatalog⟩ := run.links.property hr hlink
    have hunlinked := run.available.1 r hr i catalog htarget hcatalog
    have hs : (survivors p)[rank unlinkedProperty p.properties i]? = some (catalog, i) :=
      getElem?_rank_zipIdx hcatalog (unlinkedProperty_iff.mpr hunlinked)
    apply hall (catalog, i) (List.mem_of_getElem? hs)
    exact List.mem_filter.mpr ⟨hr, by simpa using htarget⟩
  · intro hall s _ r hr
    obtain ⟨hmem, htarget⟩ := List.mem_filter.mp hr
    exact hall r hmem (linked_of_propertyTarget (by simpa using htarget))

/-- The links of tests find their properties when these are not linked. -/
theorem MergeRun.testLinks_iff (run : MergeRun p q adds adds' merged sup) :
    (∀ t ∈ p.tests, ∀ i, testTarget p t = some i →
      ∃ prop, Counterpart p q i prop ∧ ∃ inst ∈ prop.instances, KeepsTest t inst) ↔
      ∀ t ∈ p.tests, ∀ i catalog, testTarget p t = some i →
        p.properties[i]? = some catalog → catalog.instantiates = none := by
  constructor
  · intro hall t ht i catalog htarget hcatalog
    obtain ⟨prop, hprop, -⟩ := hall t ht i htarget
    exact unlinked_of_counterpart hprop hcatalog
  · intro hall t ht i htarget
    obtain ⟨j, catalog, hj, hcatalog⟩ := run.links.test ht (linked_of_testTarget htarget)
    obtain rfl := Option.some.inj (hj.symm.trans htarget)
    refine ⟨_, run.counterpart_of_unlinked hcatalog (hall t ht _ catalog htarget hcatalog),
      testInstance t, ?_, keepsTest_testInstance t⟩
    have hmem : t ∈ testsLinkedTo p j := List.mem_filter.mpr ⟨ht, by simpa using htarget⟩
    apply List.mem_append_right
    exact List.mem_append_left _ (List.mem_map_of_mem hmem)

theorem MergeRun.propertyLinks (run : MergeRun p q adds adds' merged sup)
    (hnone : ∀ r ∈ p.properties, linkedProperty r = true → r.instances = []) :
    ∀ r ∈ p.properties, ∀ i, propertyTarget p r = some i →
      ∃ prop, Counterpart p q i prop ∧ (∃ inst ∈ prop.instances, KeepsProperty r inst) ∧
        r.instances ⊆ prop.instances := by
  intro r hr i htarget
  have hlink := linked_of_propertyTarget htarget
  obtain ⟨j, catalog, hj, hcatalog⟩ := run.links.property hr hlink
  obtain rfl := Option.some.inj (hj.symm.trans htarget)
  have hunlinked := run.available.1 r hr _ catalog htarget hcatalog
  refine ⟨_, run.counterpart_of_unlinked hcatalog hunlinked,
    ⟨propertyInstance r, ?_, keepsProperty_propertyInstance r⟩, ?_⟩
  · have hmem : r ∈ propertiesLinkedTo p j := List.mem_filter.mpr ⟨hr, by simpa using htarget⟩
    apply List.mem_append_right
    exact List.mem_append_right _ (List.mem_map_of_mem hmem)
  · rw [hnone r hr hlink]
    exact List.nil_subset _

/-! ### The invariants -/

/-- Superseding twice is superseding once. -/
theorem getElem?_supersedeAll (sup : List Nat) (invs : List InvariantDecl) (k : Nat) :
    (sup.foldl (fun invs i => invs.modify i supersede) invs)[k]? =
      invs[k]?.map fun inv => if k ∈ sup then supersede inv else inv := by
  induction sup generalizing invs with
  | nil => simp
  | cons i sup ih =>
    rw [List.foldl_cons, ih, List.getElem?_modify]
    cases invs[k]? with
    | none => rfl
    | some inv =>
      by_cases hk : i = k
      · subst hk
        by_cases hmem : i ∈ sup
        · simp [hmem, supersede]
        · simp [hmem]
      · have hk' : k ≠ i := fun h => hk h.symm
        simp [hk, hk']

theorem MergeRun.invariant_at (run : MergeRun p q adds adds' merged sup) (k : Nat) :
    q.invariants[k]? = (p.invariants.filter unlinkedInvariant ++ merged)[k]?.map fun inv =>
      if k ∈ sup then supersede inv else inv := by
  rw [run.result]
  exact getElem?_supersedeAll sup _ k

theorem length_unlinkedInvariants (p : Program) :
    (unlinkedInvariants p).length = (p.invariants.filter unlinkedInvariant).length := by
  rw [← filter_zipIdx_fst unlinkedInvariant p.invariants, List.length_map]
  rfl

/-- When every target is unlinked, the places of the links are the ranks of the targets. -/
theorem MergeRun.superseded_iff (run : MergeRun p q adds adds' merged sup)
    (hplain : ∀ inv ∈ p.invariants, ∀ i catalog, invariantTarget p inv = some i →
      p.invariants[i]? = some catalog → catalog.instantiates = none) :
    k ∈ sup ↔ ∃ inv ∈ p.invariants, ∃ i catalog, invariantTarget p inv = some i ∧
      p.invariants[i]? = some catalog ∧ unlinkedInvariant catalog = true ∧
      rank unlinkedInvariant p.invariants i = k := by
  rw [run.superseded]
  constructor
  · rintro ⟨n, inv, i, catalog, hinv, htarget, hcatalog, hplace⟩
    have hmem := List.mem_of_getElem? hinv
    have hunlinked := unlinkedInvariant_iff.mpr (hplain inv hmem i catalog htarget hcatalog)
    rw [placeOf, if_pos hunlinked] at hplace
    exact ⟨inv, hmem, i, catalog, htarget, hcatalog, hunlinked, Option.some.inj hplace⟩
  · rintro ⟨inv, hmem, i, catalog, htarget, hcatalog, hunlinked, rfl⟩
    obtain ⟨n, hinv⟩ := List.getElem?_of_mem hmem
    exact ⟨n, inv, i, catalog, hinv, htarget, hcatalog, by rw [placeOf, if_pos hunlinked]⟩

/-- **The invariants after the merge**, when no link names a linked one. -/
theorem MergeRun.invariants_eq (run : MergeRun p q adds adds' merged sup)
    (hplain : ∀ inv ∈ p.invariants, ∀ i catalog, invariantTarget p inv = some i →
      p.invariants[i]? = some catalog → catalog.instantiates = none) :
    q.invariants = (unlinkedInvariants p).map (markSuperseded p) ++ merged := by
  apply List.ext_getElem?
  intro k
  rw [run.invariant_at]
  by_cases hk : k < (unlinkedInvariants p).length
  · obtain ⟨⟨catalog, i⟩, hs⟩ : ∃ s, (unlinkedInvariants p)[k]? = some s :=
      ⟨_, List.getElem?_eq_getElem hk⟩
    obtain ⟨hi, hunlinked, hrank⟩ := rank_of_getElem? hs
    have hmark : k ∈ sup ↔ (p.invariants.any fun inv => invariantTarget p inv == some i) = true := by
      rw [run.superseded_iff hplain, List.any_eq_true]
      constructor
      · rintro ⟨inv, hmem, j, target, htarget, hj, hj', hsame⟩
        obtain rfl := rank_inj hj hj' hi hunlinked (hsame.trans hrank.symm)
        exact ⟨inv, hmem, by simpa using htarget⟩
      · rintro ⟨inv, hmem, htarget⟩
        exact ⟨inv, hmem, i, catalog, by simpa using htarget, hi, hunlinked, hrank⟩
    have hfilter := getElem?_rank hi hunlinked
    rw [hrank] at hfilter
    rw [List.getElem?_append_left (by rwa [← length_unlinkedInvariants]),
      List.getElem?_append_left (by rwa [List.length_map]), List.getElem?_map, hs, hfilter]
    simp only [Option.map_some, markSuperseded, hmark]
  · have hk' := Nat.le_of_not_lt hk
    have hnot : k ∉ sup := by
      rw [run.superseded_iff hplain]
      rintro ⟨inv, -, i, catalog, -, hcatalog, hc, rfl⟩
      have hget := getElem?_rank hcatalog hc
      rw [List.getElem?_eq_none (by rwa [← length_unlinkedInvariants])] at hget
      cases hget
    rw [List.getElem?_append_right (by rwa [← length_unlinkedInvariants]),
      List.getElem?_append_right (by rwa [List.length_map]), List.length_map,
      length_unlinkedInvariants]
    simp [hnot]

theorem emitted_of_mem {xs ys : List InvariantDecl} (h : List.Forall₂ (Emitted p) xs ys) :
    ∀ m ∈ ys, m.emitPolicy = .emit := by
  induction h with
  | nil => simp
  | cons hm _ ih => exact List.forall_mem_cons.mpr ⟨hm.policy, ih⟩

/-- A merged invariant that a later link names is superseded with it. -/
theorem MergeRun.superseded_of_linked (run : MergeRun p q adds adds' merged sup)
    {inv catalog : InvariantDecl} (hmem : inv ∈ p.invariants)
    (htarget : invariantTarget p inv = some i) (hcatalog : p.invariants[i]? = some catalog)
    (hlinked : linkedInvariant catalog = true) :
    ∃ m, q.invariants[(p.invariants.filter unlinkedInvariant).length +
      rank linkedInvariant p.invariants i]? = some (supersede m) := by
  have hunlinked : ¬ catalog.instantiates = none := by
    intro hnone
    simp [linkedInvariant, hnone] at hlinked
  obtain ⟨n, hinv⟩ := List.getElem?_of_mem hmem
  have hbefore : i < n :=
    (run.available.2 n inv i catalog hinv htarget hcatalog).resolve_left hunlinked
  have hsup : (p.invariants.filter unlinkedInvariant).length +
      rank linkedInvariant p.invariants i ∈ sup := by
    rw [run.superseded]
    refine ⟨n, inv, i, catalog, hinv, htarget, hcatalog, ?_⟩
    rw [placeOf, if_neg fun h => hunlinked (unlinkedInvariant_iff.mp h), if_pos hbefore]
  obtain ⟨hlt, -⟩ := List.getElem?_eq_some_iff.mp (getElem?_rank hcatalog hlinked)
  rw [run.folded.length_eq] at hlt
  obtain ⟨m, hm⟩ : ∃ m, merged[rank linkedInvariant p.invariants i]? = some m :=
    ⟨_, List.getElem?_eq_getElem hlt⟩
  refine ⟨m, ?_⟩
  rw [run.invariant_at, List.getElem?_append_right (Nat.le_add_right _ _), Nat.add_sub_cancel_left,
    hm, Option.map_some, if_pos hsup]

/-- The invariants keep everything exactly when no link names a linked one. -/
theorem MergeRun.invariants_iff (run : MergeRun p q adds adds' merged sup) :
    (∃ merged, q.invariants = (unlinkedInvariants p).map (markSuperseded p) ++ merged ∧
      List.Forall₂ (Emitted p) (p.invariants.filter linkedInvariant) merged) ↔
      ∀ inv ∈ p.invariants, ∀ i catalog, invariantTarget p inv = some i →
        p.invariants[i]? = some catalog → catalog.instantiates = none := by
  constructor
  · rintro ⟨emitted, hq, hall⟩ inv hmem i catalog htarget hcatalog
    cases hstem : catalog.instantiates with
    | none => rfl
    | some stem =>
      have hlinked : linkedInvariant catalog = true := by simp [linkedInvariant, hstem]
      obtain ⟨m, hm⟩ := run.superseded_of_linked hmem htarget hcatalog hlinked
      rw [hq, ← length_unlinkedInvariants, List.getElem?_append_right (by simp), List.length_map,
        Nat.add_sub_cancel_left] at hm
      have hpolicy := emitted_of_mem hall _ (List.mem_of_getElem? hm)
      cases hpolicy
  · intro hplain
    refine ⟨merged, run.invariants_eq hplain, ?_⟩
    have htargets : ∀ inv ∈ p.invariants.filter linkedInvariant, ∃ i catalog,
        invariantTarget p inv = some i ∧ p.invariants[i]? = some catalog ∧
        unlinkedInvariant catalog = true := by
      intro inv hinv
      obtain ⟨hmem, hlink⟩ := List.mem_filter.mp hinv
      obtain ⟨_, _, i, catalog, -, -, -, -, hcatalog, htarget⟩ := run.links.invariant hmem hlink
      exact ⟨i, catalog, htarget, hcatalog,
        unlinkedInvariant_iff.mpr (hplain inv hmem i catalog htarget hcatalog)⟩
    refine ((List.forall₂_and_left _ _).mpr ⟨htargets, run.folded⟩).imp ?_
    rintro inv m ⟨⟨i, catalog, htarget, hcatalog, hunlinked⟩, hm⟩
    exact ⟨hm.sig, hm.emitted, i, catalog, htarget, hcatalog,
      hm.overlaid i catalog htarget hcatalog hunlinked⟩

/-- **When nothing is lost.**  A merge that returns keeps every test, property and invariant
    exactly when the linked declarations are plain: what a linked property or invariant
    carries for others is dropped or superseded with it. -/
theorem merge_keeps_iff (h : NoErrors (catalogPreMergeCheck p))
    (hq : mergeCatalogInstantiations p = some q) : NothingLost p q ↔ LinksPlain p := by
  obtain ⟨adds, adds', merged, sup, run⟩ := mergeRun_of_merge h hq
  constructor
  · intro hkept
    constructor
    · exact run.properties_iff.mp hkept.properties
    · exact run.testLinks_iff.mp hkept.testLinks
    · exact run.invariants_iff.mp hkept.invariants
  · intro hplain
    constructor
    · rw [run.result]
      rfl
    · exact run.properties_iff.mpr hplain.properties
    · exact run.testLinks_iff.mpr hplain.tests
    · exact run.propertyLinks hplain.properties
    · exact run.invariants_iff.mpr hplain.invariants

/-- `feeWithLink` after the merge. -/
def feeMerged : Program :=
  { Program.empty with
    properties := [addInstance (propertyInstance (vaultProperty "low_fee" (some "fee")))
      (vaultProperty "fee" none)] }

/-- `feeWithLink`, with a test nested in the linked property. -/
def feeNested : Program :=
  { Program.empty with
    properties := [vaultProperty "fee" none,
      addInstance (testInstance ⟨"at_zero", "Vault", [], false, [], none, none⟩)
        (vaultProperty "low_fee" (some "fee"))] }

theorem merge_keeps_feeWithLink : NothingLost feeWithLink feeMerged ↔ LinksPlain feeWithLink :=
  merge_keeps_iff (by decide) rfl

/-- The nested test is in no instance of the merged program. -/
theorem feeNested_test_lost :
    ¬ ∀ p q, NoErrors (catalogPreMergeCheck p) → mergeCatalogInstantiations p = some q →
      NothingLost p q := by
  intro hall
  have hcheck : NoErrors (catalogPreMergeCheck feeNested) := by decide
  have hmerge : mergeCatalogInstantiations feeNested = some feeMerged := rfl
  obtain ⟨adds, adds', merged, sup, run⟩ := mergeRun_of_merge hcheck hmerge
  have hnone := run.properties_iff.mp (hall _ _ hcheck hmerge).properties
  have hinstances := hnone _ (List.mem_cons_of_mem _ List.mem_cons_self) rfl
  cases hinstances

end CambrianLang.Authored
