/-
  **When the expanded types are the ones that were written**
  (`codegen/solidity/core/alias.rs`).

  An alias is resolved in the scope its name is written in.  The pass resolves it in the
  scope of the declaration that is being expanded, goes through a fixed number of levels
  and leaves the types inside expressions alone; the main result says that nothing else
  can go wrong.
-/
import CambrianLang.Solidity.AliasExpansion
import CambrianLang.Validate.RecursiveTypes

namespace CambrianLang.Solidity

open Ast NameScopes Validate

/-! ### Types as terms -/

inductive TyHead where
  | generic (name : String)
  | tuple
  | address (entity : String)
deriving DecidableEq

mutual
/-- A type as a term whose names can be aliases. -/
def tyTerm : Ty → Term String TyHead
  | .simple name => .name name
  | .generic name ps => .node (.generic name) (tyTerms ps)
  | .tuple es => .node .tuple (tyTerms es)
  | .typedAddress e => .node (.address e) []
def tyTerms : List Ty → List (Term String TyHead)
  | [] => []
  | ty :: tys => tyTerm ty :: tyTerms tys
end

theorem tyTerms_eq (tys : List Ty) : tyTerms tys = tys.map tyTerm := by
  induction tys with
  | nil => rfl
  | cons ty tys ih => rw [tyTerms, ih, List.map_cons]

/-- The definitions of a map. -/
def defsOf (m : AliasMap) (x : String) : Option (Term String TyHead) := (m.lookup x).map tyTerm

theorem tyTerm_expandWithin (m : AliasMap) (n : Nat) (ty : Ty) :
    tyTerm (expandWithin m n ty) = cut (flat (defsOf m)) n () (tyTerm ty) := by
  induction n generalizing ty with
  | zero => rfl
  | succ n ih =>
    cases ty with
    | simple name =>
      cases h : m.lookup name with
      | none => simp [expandWithin, tyTerm, cut, flat, defsOf, h]
      | some target => simp [expandWithin, tyTerm, cut, flat, defsOf, h, ih]
    | generic name ps => simp [expandWithin, tyTerm, tyTerms_eq, cut, ih, Function.comp_def]
    | tuple es => simp [expandWithin, tyTerm, tyTerms_eq, cut, ih, Function.comp_def]
    | typedAddress e => simp [expandWithin, tyTerm, cut]

/-! ### What expansion should do -/

/-- The aliases of an entity or library, without those around it. -/
def ownAliases (aliases : List TypeAlias) : AliasMap := aliasMapOver [] aliases

section Scope

variable (own outer : AliasMap)

/-- The type mentions no alias that can be seen in the scope. -/
def NoAlias (ty : Ty) : Prop :=
  ∀ x ∈ (tyTerm ty).names, own.lookup x = none ∧ outer.lookup x = none

/-- The second type is the first with every alias replaced by what it means where its name
    is written. -/
def Expanded (ty ty' : Ty) : Prop :=
  Means (lexical (defsOf own) (defsOf outer)) .inner (tyTerm ty) (tyTerm ty') ∧ NoAlias own outer ty'

/-- `u` is what is left of `ty` after that many levels. -/
def LeftAfter (n : Nat) (ty : Ty) (u : Term String TyHead) : Prop :=
  After (flat (defsOf (own ++ outer))) n ((), tyTerm ty) ((), u)

/-- What the declared types and the types inside expressions of a scope have to be like. -/
structure ScopeExpands (declared carried : List Ty) : Prop where
  /-- no expression carries an alias -/
  carried_plain : ∀ ty ∈ carried, NoAlias own outer ty
  /-- below the last level there is no alias -/
  shallow : ∀ ty ∈ declared, ∀ u, LeftAfter own outer expandLevels ty u →
    ∀ x ∈ u.names, (own ++ outer).lookup x = none
  /-- a name in an alias from outside means in the scope what it means outside -/
  same : ∀ ty ∈ declared, ∀ x, Captured (defsOf own) (defsOf outer) (tyTerm ty) x →
    SameMeaning (defsOf own) (defsOf outer) x

end Scope

/-- Every type of the second program is the expansion of the one in the first. -/
structure AliasesExpanded (p q : Source) : Prop where
  program : List.Forall₂ (Expanded [] (progMap p))
    (programTypes p ++ (programExprs p).flatMap carriedTypes)
    (programTypes q ++ (programExprs q).flatMap carriedTypes)
  libraries : List.Forall₂ (fun lib lib' => List.Forall₂ (Expanded (ownAliases lib.typeAliases) (progMap p))
    (libraryTypes lib ++ (libraryExprs lib).flatMap carriedTypes)
    (libraryTypes lib' ++ (libraryExprs lib').flatMap carriedTypes)) p.libraries q.libraries
  entities : List.Forall₂ (fun c c' => List.Forall₂ (Expanded (ownAliases c.typeAliases) (progMap p))
    (entityTypes c ++ (entityExprs c).flatMap carriedTypes)
    (entityTypes c' ++ (entityExprs c').flatMap carriedTypes)) p.entities q.entities

/-- All scopes of the program are as they have to be. -/
structure SourceExpands (p : Source) : Prop where
  program : ScopeExpands [] (progMap p) (programTypes p) ((programExprs p).flatMap carriedTypes)
  libraries : ∀ lib ∈ p.libraries, ScopeExpands (ownAliases lib.typeAliases) (progMap p)
    (libraryTypes lib) ((libraryExprs lib).flatMap carriedTypes)
  entities : ∀ c ∈ p.entities, ScopeExpands (ownAliases c.typeAliases) (progMap p)
    (entityTypes c) ((entityExprs c).flatMap carriedTypes)

/-! ### One scope -/

section Scope

variable {own outer : AliasMap}

theorem lookup_append_none {x : String} :
    (own ++ outer).lookup x = none ↔ own.lookup x = none ∧ outer.lookup x = none := by
  rw [List.lookup_append, Option.or_eq_none_iff]

theorem hide_defsOf : hide (defsOf own) (defsOf outer) = defsOf (own ++ outer) := by
  funext x
  rw [hide, defsOf, defsOf, defsOf, List.lookup_append]
  cases own.lookup x <;> rfl

theorem flat_defsOf_none {m : AliasMap} {x : String} :
    flat (defsOf m) () x = none ↔ m.lookup x = none := by
  rw [flat, Option.map_eq_none_iff, defsOf, Option.map_eq_none_iff]

theorem noAlias_iff {ty : Ty} :
    NoAlias own outer ty ↔ Bare (flat (hide (defsOf own) (defsOf outer))) () (tyTerm ty) := by
  rw [hide_defsOf]
  refine forall₂_congr fun x _ => ?_
  rw [flat_defsOf_none, lookup_append_none]

/-- A type without aliases is its own expansion. -/
theorem expanded_self_iff {ty : Ty} : Expanded own outer ty ty ↔ NoAlias own outer ty :=
  ⟨And.right, fun h => ⟨means_of_bare_flat (noAlias_iff.mp h), h⟩⟩

/-- The terms of the declared types. -/
def DeclaredTerm (declared : List Ty) (t : Term String TyHead) : Prop := ∃ ty ∈ declared, tyTerm ty = t

theorem roots_declared {declared : List Ty} (hown : ∀ x b, own.lookup x = some b → b ∈ declared) :
    Roots (defsOf own) (DeclaredTerm declared) := by
  constructor
  intro x t hx
  obtain ⟨b, hb, rfl⟩ := Option.map_eq_some_iff.mp hx
  exact ⟨b, hown x b hb, rfl⟩

/-- The declared types of a scope, when its own aliases are among them. -/
theorem declared_expanded_iff {declared : List Ty}
    (hown : ∀ x b, own.lookup x = some b → b ∈ declared) :
    (∀ ty ∈ declared, Expanded own outer ty (expand (own ++ outer) ty)) ↔
      (∀ ty ∈ declared, ∀ u, LeftAfter own outer expandLevels ty u →
        ∀ x ∈ u.names, (own ++ outer).lookup x = none) ∧
      ∀ ty ∈ declared, ∀ x, Captured (defsOf own) (defsOf outer) (tyTerm ty) x →
        SameMeaning (defsOf own) (defsOf outer) x := by
  have hterm : ∀ ty, tyTerm (expand (own ++ outer) ty) =
      cut (flat (hide (defsOf own) (defsOf outer))) expandLevels () (tyTerm ty) := by
    intro ty
    rw [hide_defsOf]
    exact tyTerm_expandWithin _ _ _
  -- with nothing left below the last level the pass computes the flat reading
  have hflat : (∀ ty ∈ declared, ∀ u, LeftAfter own outer expandLevels ty u →
      ∀ x ∈ u.names, (own ++ outer).lookup x = none) → ∀ ty ∈ declared,
      Means (flat (hide (defsOf own) (defsOf outer))) () (tyTerm ty)
        (tyTerm (expand (own ++ outer) ty)) := by
    intro hshallow ty hty
    rw [hterm]
    refine means_cut fun _ u hafter x hx => ?_
    rw [hide_defsOf] at hafter ⊢
    exact flat_defsOf_none.mpr (hshallow ty hty u hafter x hx)
  have hagree := fun hshallow => agree_iff (roots_declared hown) (by
    rintro t ⟨ty, hty, rfl⟩
    exact ⟨_, hflat hshallow ty hty⟩)
  constructor
  · intro hexpanded
    have hshallow : ∀ ty ∈ declared, ∀ u, LeftAfter own outer expandLevels ty u →
        ∀ x ∈ u.names, (own ++ outer).lookup x = none := by
      intro ty hty u hafter x hx
      have hbare := noAlias_iff.mp (hexpanded ty hty).2
      rw [hterm, hide_defsOf] at hbare
      exact flat_defsOf_none.mp (bare_of_cut hbare hafter x hx)
    refine ⟨hshallow, fun ty hty => (hagree hshallow).mp ?_ _ ⟨ty, hty, rfl⟩⟩
    rintro t ⟨ty', hty', rfl⟩
    exact ⟨_, hflat hshallow ty' hty', (hexpanded ty' hty').1⟩
  · rintro ⟨hshallow, hsame⟩ ty hty
    have hall := (hagree hshallow).mpr fun t ht x hx => by
      obtain ⟨ty', hty', rfl⟩ := ht
      exact hsame ty' hty' x hx
    obtain ⟨u, hu, hlex⟩ := hall (tyTerm ty) ⟨ty, hty, rfl⟩
    have hmeans := hflat hshallow ty hty
    refine ⟨?_, noAlias_iff.mpr hmeans.bare⟩
    rwa [hmeans.unique hu]

/-- **One scope.** -/
theorem scope_expanded_iff {declared carried : List Ty}
    (hown : ∀ x b, own.lookup x = some b → b ∈ declared) :
    List.Forall₂ (Expanded own outer) (declared ++ carried)
        (declared.map (expand (own ++ outer)) ++ carried) ↔
      ScopeExpands own outer declared carried := by
  have hsplit : List.Forall₂ (Expanded own outer) (declared ++ carried)
      (declared.map (expand (own ++ outer)) ++ carried) ↔
      (∀ ty ∈ declared, Expanded own outer ty (expand (own ++ outer) ty)) ∧
        ∀ ty ∈ carried, NoAlias own outer ty := by
    clear hown
    induction declared with
    | nil =>
      rw [List.map_nil, List.nil_append, List.forall₂_same]
      simp only [List.not_mem_nil, false_imp_iff, implies_true, true_and, expanded_self_iff]
    | cons ty declared ih =>
      rw [List.map_cons, List.cons_append, List.cons_append, List.forall₂_cons, ih,
        List.forall_mem_cons, and_assoc]
  rw [hsplit, declared_expanded_iff hown]
  exact ⟨fun ⟨⟨hshallow, hsame⟩, hplain⟩ => ⟨hplain, hshallow, hsame⟩,
    fun h => ⟨⟨h.shallow, h.same⟩, h.carried_plain⟩⟩

end Scope

/-! ### The whole program -/

theorem aliasMapOver_eq (outer : AliasMap) (aliases : List TypeAlias) :
    aliasMapOver outer aliases = ownAliases aliases ++ outer := by
  rw [ownAliases, aliasMapOver, aliasMapOver, List.append_nil]

theorem mem_types_of_lookup {aliases : List TypeAlias} {x : String} {b : Ty}
    (h : (ownAliases aliases).lookup x = some b) : b ∈ aliases.map (·.ty) := by
  have hmem := mem_of_lookup h
  rw [ownAliases, aliasMapOver, List.append_nil, List.mem_reverse] at hmem
  obtain ⟨ta, hta, heq⟩ := List.mem_map.mp hmem
  cases heq
  exact List.mem_map_of_mem hta

theorem expandWithin_nil (n : Nat) (ty : Ty) : expandWithin [] n ty = ty := by
  induction n generalizing ty with
  | zero => rfl
  | succ n ih =>
    have hid : expandWithin [] n = id := funext ih
    cases ty <;> simp [expandWithin, hid]

theorem expand_nil : expand [] = id := funext fun ty => expandWithin_nil expandLevels ty

/-- Without an alias anywhere all maps are empty. -/
theorem maps_of_noAliases {p : Source} (h : hasAliases p = false) :
    progMap p = [] ∧ (∀ lib ∈ p.libraries, lib.typeAliases = []) ∧
      ∀ c ∈ p.entities, c.typeAliases = [] := by
  simp only [hasAliases, Bool.or_eq_false_iff, Bool.not_eq_false', List.any_eq_false,
    List.isEmpty_iff, Bool.not_eq_true'] at h
  obtain ⟨⟨hprogram, hentities⟩, hlibraries⟩ := h
  refine ⟨by rw [progMap, hprogram]; rfl, fun lib hlib => ?_, fun c hc => ?_⟩
  · simpa using hlibraries lib hlib
  · simpa using hentities c hc

theorem exprs_expandStep (m : AliasMap) (s : TestStep) : (expandStep m s).exprs = s.exprs := by
  cases s <;> rfl

theorem invariantExprs_expand (m : AliasMap) (inv : InvariantDecl) :
    invariantExprs (expandInvariant m inv) = invariantExprs inv := by
  simp only [invariantExprs, expandInvariant, List.flatMap_map, expandAction, expandQuery,
    exprs_expandStep]

theorem programExprs_expand (p : Source) : programExprs (expandTypeAliases p) = programExprs p := by
  unfold expandTypeAliases
  split
  · simp only [programExprs, List.map_map, List.flatMap_map, expandTest, expandProperty, expandFuzz,
      exprs_expandStep, invariantExprs_expand]
    rfl
  · rfl

theorem programTypes_expand (p : Source) :
    programTypes (expandTypeAliases p) = (programTypes p).map (expand (progMap p)) := by
  unfold expandTypeAliases
  split
  · simp only [programTypes, List.map_append, List.map_map, List.map_flatMap, List.flatMap_map,
      pureFnTypes_expand, recordTypes_expand, enumTypes_expand, externTypes_expand,
      eventTypes_expand, expandError, paramTypes_expandParams, expandTest, expandProperty,
      expandFuzz, stepTypes_expand, invariantTypes_expand]
    rfl
  · next h =>
    rw [(maps_of_noAliases (Bool.not_eq_true _ ▸ h)).1, expand_nil, List.map_id]

/-- What becomes of the libraries. -/
theorem libraries_expand (p : Source) : ∃ f : LibraryDecl → LibraryDecl,
    (expandTypeAliases p).libraries = p.libraries.map f ∧ ∀ lib ∈ p.libraries,
      libraryTypes (f lib) =
        (libraryTypes lib).map (expand (ownAliases lib.typeAliases ++ progMap p)) ∧
      libraryExprs (f lib) = libraryExprs lib := by
  unfold expandTypeAliases
  split
  · refine ⟨expandLibrary (progMap p), rfl, fun lib _ => ?_⟩
    rw [← aliasMapOver_eq]
    exact ⟨libraryTypes_expand _ lib, libraryExprs_expand _ lib⟩
  · next h =>
    obtain ⟨hprogram, hlibraries, -⟩ := maps_of_noAliases (Bool.not_eq_true _ ▸ h)
    refine ⟨id, (List.map_id _).symm, fun lib hlib => ⟨?_, rfl⟩⟩
    have hmap : ownAliases lib.typeAliases ++ progMap p = [] := by
      rw [hprogram, hlibraries lib hlib]
      rfl
    rw [hmap, expand_nil, List.map_id]
    rfl

/-- What becomes of the entities. -/
theorem entities_expand (p : Source) : ∃ f : Contract → Contract,
    (expandTypeAliases p).entities = p.entities.map f ∧ ∀ c ∈ p.entities,
      entityTypes (f c) = (entityTypes c).map (expand (ownAliases c.typeAliases ++ progMap p)) ∧
      entityExprs (f c) = entityExprs c := by
  unfold expandTypeAliases
  split
  · refine ⟨expandEntity (progMap p), rfl, fun c _ => ?_⟩
    rw [← aliasMapOver_eq]
    exact ⟨entityTypes_expand _ c, entityExprs_expand _ c⟩
  · next h =>
    obtain ⟨hprogram, -, hentities⟩ := maps_of_noAliases (Bool.not_eq_true _ ▸ h)
    refine ⟨id, (List.map_id _).symm, fun c hc => ⟨?_, rfl⟩⟩
    have hmap : ownAliases c.typeAliases ++ progMap p = [] := by
      rw [hprogram, hentities c hc]
      rfl
    rw [hmap, expand_nil, List.map_id]
    rfl

/-- A relation to the image of every member. -/
theorem forall₂_map_self {α β : Type} {r : α → β → Prop} {f : α → β} {xs : List α} :
    List.Forall₂ r xs (xs.map f) ↔ ∀ x ∈ xs, r x (f x) := by
  rw [List.forall₂_map_right_iff, List.forall₂_same]

/-- **Alias expansion.**  The pass gives every type of a program its meaning exactly when in
    each scope no expression carries an alias, no alias is left below the last level, and no
    alias from outside mentions a name that means something else inside. -/
theorem aliasesExpanded_iff (p : Source) :
    AliasesExpanded p (expandTypeAliases p) ↔ SourceExpands p := by
  obtain ⟨f, hlibraries, hlib⟩ := libraries_expand p
  obtain ⟨g, hentities, hent⟩ := entities_expand p
  have hprogram : List.Forall₂ (Expanded [] (progMap p))
      (programTypes p ++ (programExprs p).flatMap carriedTypes)
      (programTypes (expandTypeAliases p) ++
        (programExprs (expandTypeAliases p)).flatMap carriedTypes) ↔
      ScopeExpands [] (progMap p) (programTypes p) ((programExprs p).flatMap carriedTypes) := by
    rw [programTypes_expand, programExprs_expand]
    exact scope_expanded_iff fun x b h => absurd h (by simp)
  have hlibraryScope : ∀ lib ∈ p.libraries,
      List.Forall₂ (Expanded (ownAliases lib.typeAliases) (progMap p))
        (libraryTypes lib ++ (libraryExprs lib).flatMap carriedTypes)
        (libraryTypes (f lib) ++ (libraryExprs (f lib)).flatMap carriedTypes) ↔
      ScopeExpands (ownAliases lib.typeAliases) (progMap p) (libraryTypes lib)
        ((libraryExprs lib).flatMap carriedTypes) := by
    intro lib hmem
    rw [(hlib lib hmem).1, (hlib lib hmem).2]
    refine scope_expanded_iff fun x b h => ?_
    simp only [libraryTypes, List.mem_append]
    exact Or.inl (Or.inl (mem_types_of_lookup h))
  have hentityScope : ∀ c ∈ p.entities,
      List.Forall₂ (Expanded (ownAliases c.typeAliases) (progMap p))
        (entityTypes c ++ (entityExprs c).flatMap carriedTypes)
        (entityTypes (g c) ++ (entityExprs (g c)).flatMap carriedTypes) ↔
      ScopeExpands (ownAliases c.typeAliases) (progMap p) (entityTypes c)
        ((entityExprs c).flatMap carriedTypes) := by
    intro c hmem
    rw [(hent c hmem).1, (hent c hmem).2]
    refine scope_expanded_iff fun x b h => ?_
    simp only [entityTypes, List.append_assoc]
    exact List.mem_append_left _ (mem_types_of_lookup h)
  constructor
  · intro h
    refine ⟨hprogram.mp h.program, fun lib hmem => ?_, fun c hmem => ?_⟩
    · have hall := h.libraries
      rw [hlibraries, forall₂_map_self] at hall
      exact (hlibraryScope lib hmem).mp (hall lib hmem)
    · have hall := h.entities
      rw [hentities, forall₂_map_self] at hall
      exact (hentityScope c hmem).mp (hall c hmem)
  · intro h
    refine ⟨hprogram.mpr h.program, ?_, ?_⟩
    · rw [hlibraries, forall₂_map_self]
      exact fun lib hmem => (hlibraryScope lib hmem).mpr (h.libraries lib hmem)
    · rw [hentities, forall₂_map_self]
      exact fun c hmem => (hentityScope c hmem).mpr (h.entities c hmem)

/-! ### A captured name -/

/-- `type Word = u128` in an entity, and a member of the type `Amount` from outside. -/
def vaultContract : Contract where
  name := "Vault"
  records := []
  enums := []
  typeAliases := [⟨"Word", .simple "u128"⟩]
  constants := []
  macros := []
  routes := []
  members := [⟨"m_total", .simple "Amount", false, none, []⟩]
  events := []
  errors := []

/-- `type Word = u64` and `type Amount = Word` around it. -/
def vaultSource : Source where
  pureFns := []
  typeAliases := [⟨"Word", .simple "u64"⟩, ⟨"Amount", .simple "Word"⟩]
  records := []
  enums := []
  entities := [vaultContract]
  externEntities := []
  tests := []
  properties := []
  fuzzTests := []
  invariants := []
  events := []
  errors := []
  libraries := []
  usingDecls := []

/-- The member gets the type of the entity's `Word`. -/
theorem amount_captured :
    checkCyclicAliases vaultSource.typeAliases "program" = [] ∧
      checkCyclicAliases (mergeAliases vaultSource.typeAliases vaultContract.typeAliases)
        "entity 'Vault'" = [] ∧
      ¬ AliasesExpanded vaultSource (expandTypeAliases vaultSource) := by
  refine ⟨by decide +kernel, by decide +kernel, fun h => ?_⟩
  have hentity : List.Forall₂ (Expanded (ownAliases vaultContract.typeAliases) (progMap vaultSource))
      [.simple "u128", .simple "Amount"] [.simple "u128", .simple "u128"] := by
    cases h.entities with
    | cons h _ => exact h
  have hmember : Expanded (ownAliases vaultContract.typeAliases) (progMap vaultSource)
      (.simple "Amount") (.simple "u128") := by
    cases hentity with
    | cons _ hrest =>
      cases hrest with
      | cons h _ => exact h
  have hmeans : Means (lexical (defsOf (ownAliases vaultContract.typeAliases))
      (defsOf (progMap vaultSource))) .inner (.name "Amount") (.name "u64") :=
    .bound rfl (.bound rfl (.free rfl))
  exact absurd (hmember.1.unique hmeans) (by simp [tyTerm])

end CambrianLang.Solidity
