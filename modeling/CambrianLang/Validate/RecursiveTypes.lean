/-
  **Recursive types** (V52, `validate/entity.rs`): the cycles among aliases and among
  records that the check reports, against the recursions that unfold types later,
  alias resolution (`resolve_alias_for_validate`) and storage packing.

  The check sees a field of a record type through the alias map and stops at enums;
  packing goes through payload enums and knows no aliases.  Both sides agree on all
  names but the ones of `Missed`.
-/
import CambrianLang.Layout.Packing
import CambrianLang.Lib.MapM
import CambrianLang.Lib.Tarjan
import CambrianLang.Validate.EvmTypes

namespace CambrianLang.Validate

open Ast Layout MapM Tarjan
open Unfolding Relation

/-! ### Merging declarations by name -/

section Merge

variable {α : Type} (nameOf : α → String)

/-- Replace the first entry of that name, or append. -/
def overrideByName (x : α) : List α → List α
  | [] => [x]
  | y :: ys => if nameOf y == nameOf x then x :: ys else y :: overrideByName x ys

/-- `merge_aliases`, and the `universe` of `check_recursive_records`. -/
def mergeByName (base own : List α) : List α :=
  own.foldl (fun acc x => overrideByName nameOf x acc) base

def DeclaredTwice (n : String) (xs : List α) : Prop := 1 < xs.countP (nameOf · == n)

end Merge

def mergeAliases (program entity : List TypeAlias) : List TypeAlias :=
  mergeByName TypeAlias.name program entity

/-- Into a `HashSet`, out of it and sorted. -/
def sortedSet (xs : List String) : List String := xs.dedup.insertionSort (· ≤ ·)

/-! ### Cycles of a dependency map -/

/-- A component that is more than one node, or one node with an edge to itself. -/
def cyclicScc (deps : Deps String) (scc : List String) : Bool :=
  decide (1 < scc.length) ||
    match scc with
    | name :: _ => ((deps.lookup name).getD []).contains name
    | [] => false

def reportCycles (names : List String) (deps : Deps String) (message : String → String) :
    List Diagnostic :=
  ((tarjanSccs names deps).filter (cyclicScc deps)).map fun scc =>
    .error "V52" (message (String.intercalate " → " scc))

/-! ### Aliases -/

mutual
def collectAliasRefs (aliasNames : List String) : Ty → List String
  | .simple n => if aliasNames.contains n then [n] else []
  | .generic _ params => collectAliasRefsList aliasNames params
  | .tuple parts => collectAliasRefsList aliasNames parts
  | .typedAddress _ => []
def collectAliasRefsList (aliasNames : List String) : List Ty → List String
  | [] => []
  | ty :: tys => collectAliasRefs aliasNames ty ++ collectAliasRefsList aliasNames tys
end

/-- The map `deps` of `check_cyclic_aliases`; the last insertion comes first. -/
def aliasDeps (aliases : List TypeAlias) : Deps String :=
  (aliases.map fun a => (a.name, sortedSet (collectAliasRefs (aliases.map (·.name)) a.ty))).reverse

def checkCyclicAliases (aliases : List TypeAlias) (scope : String) : List Diagnostic :=
  reportCycles (aliases.map (·.name)) (aliasDeps aliases) fun cycle =>
    "Cyclic type alias in " ++ scope ++ ": " ++ cycle ++
      " — an alias cycle (including through Option/Vec/HashMap) unfolds forever."

/-- `alias_map`; the last insertion comes first. -/
def aliasMap (aliases : List TypeAlias) : List (String × Ty) :=
  (aliases.map fun ta => (ta.name, ta.ty)).reverse

/-! ### Records -/

/-- The loop of `unfold_aliases`, with the rounds left. -/
def unfoldLoop (aliases : List (String × Ty)) (unfold : Ty → Option Ty) : Nat → Ty → Option Ty
  | 0, cur => some cur
  | rounds + 1, .simple n =>
      match aliases.lookup n with
      | some ty => unfoldLoop aliases unfold rounds ty
      | none => some (.simple n)
  | _ + 1, .generic n params => (params.mapM unfold).map (.generic n)
  | _ + 1, .tuple parts => (parts.mapM unfold).map .tuple
  | _ + 1, .typedAddress e => some (.typedAddress e)

/-- `aliases.len()`. -/
def mapLen (aliases : List (String × Ty)) : Nat := (aliases.map Prod.fst).dedup.length

def unfoldAliases (aliases : List (String × Ty)) : Nat → Ty → Option Ty
  | 0, _ => none
  | fuel + 1, ty => unfoldLoop aliases (unfoldAliases aliases fuel) (mapLen aliases + 1) ty

def collectStrictRecordRefs (aliases : List (String × Ty)) : Nat → Ty → Option (List String)
  | 0, _ => none
  | fuel + 1, ty =>
      match unfoldAliases aliases (fuel + 1) ty with
      | none => none
      | some (.simple n) => some [n]
      | some (.generic n params) =>
          if n == "Option" || n == "Vec" || n == "HashMap" then some []
          else (params.mapM (collectStrictRecordRefs aliases fuel)).map List.flatten
      | some (.tuple parts) => (parts.mapM (collectStrictRecordRefs aliases fuel)).map List.flatten
      | some (.typedAddress _) => some []

/-- The entry of a record in the map `deps` of `check_recursive_records_in`. -/
def recordEntry (fuel : Nat) (aliases : List (String × Ty)) (names : List String) (r : Record) :
    Option (String × List String) :=
  (r.fields.mapM fun f => collectStrictRecordRefs aliases fuel f.ty).map fun refs =>
    (r.name, sortedSet (refs.flatten.filter names.contains))

def checkRecursiveRecordsIn (fuel : Nat) (records : List Record) (aliases : List (String × Ty))
    (scope : String) : Option (List Diagnostic) :=
  (records.mapM (recordEntry fuel aliases (records.map (·.name)))).map fun entries =>
    reportCycles (records.map (·.name)) entries.reverse fun cycle =>
      "Recursive record type without Option/Vec/HashMap indirection in " ++ scope ++ ": " ++ cycle ++
        " — wrap the back-reference in Option (or Vec/HashMap), or the Lean/EVM " ++
        "backends cannot build a finite default."

/-! ### The whole check -/

/-- The records of an entity are checked with those of the program. -/
def recordUniverse (program : Program) (ent : Entity) : List Record :=
  mergeByName Record.name program.records ent.records

/-- The aliases through which the record fields of an entity are seen. -/
def fieldAliases (program : Program) (ent : Entity) : List TypeAlias :=
  if ent.records.isEmpty then program.typeAliases else mergeAliases program.typeAliases ent.typeAliases

def checkEntityAliases (program : Program) (ent : Entity) : List Diagnostic :=
  if ent.typeAliases.isEmpty then []
  else checkCyclicAliases (mergeAliases program.typeAliases ent.typeAliases)
    ("entity '" ++ ent.name ++ "'")

def checkEntityRecords (fuel : Nat) (program : Program) (ent : Entity) : Option (List Diagnostic) :=
  if ent.records.isEmpty then some []
  else checkRecursiveRecordsIn fuel (recordUniverse program ent) (aliasMap (fieldAliases program ent))
    ("entity '" ++ ent.name ++ "'")

/-- `check_recursive_records`. -/
def checkRecursiveRecords (fuel : Nat) (program : Program) : Option (List Diagnostic) := do
  let own ← checkRecursiveRecordsIn fuel program.records (aliasMap program.typeAliases) "program"
  let nested ← program.entities.mapM fun ent =>
    (checkEntityRecords fuel program ent).map fun diags => checkEntityAliases program ent ++ diags
  return checkCyclicAliases program.typeAliases "program" ++ own ++ nested.flatten

/-- The check ends and reports nothing. -/
def V52Clean (program : Program) : Prop :=
  ∃ fuel diags, checkRecursiveRecords fuel program = some diags ∧ NoErrors diags

/-! ### The later recursion over aliases -/

/-- The alias `resolve_alias_for_validate` follows. -/
def lookupAlias (program : Program) (entity : Option Entity) : Ty → Option TypeAlias
  | .simple name =>
      (((entity.map (·.typeAliases)).getD []).find? (·.name == name)).or
        (program.typeAliases.find? (·.name == name))
  | _ => none

/-- `resolve_alias_for_validate`, without a result when the fuel runs out. -/
def resolveAlias (program : Program) (entity : Option Entity) : Nat → Ty → Option Ty
  | 0, _ => none
  | fuel + 1, ty =>
      match lookupAlias program entity ty with
      | some a => resolveAlias program entity fuel a.ty
      | none => some ty

/-- Resolving the first alias goes on with the second. -/
def AliasStep (program : Program) (entity : Option Entity) (a b : String) : Prop :=
  (∃ x, lookupAlias program entity (.simple a) = some x ∧ x.ty = .simple b) ∧
    (lookupAlias program entity (.simple b)).isSome = true

/-- The scopes types are resolved in. -/
def scopes (program : Program) : List (Option Entity) := none :: program.entities.map some

/-- The recursions that unfold types end on every type. -/
structure UnfoldingTerminates (program : Program) : Prop where
  resolve : ∀ entity ∈ scopes program, ∀ ty,
    ∃ fuel, (resolveAlias program entity fuel ty).isSome = true
  pack : ∀ ent ∈ program.entities, ∀ ty, PackTerminates ent program.records program.enums ty

/-! ### What the check misses -/

/-- An alias name declared twice in a list. -/
def MissedAlias (program : Program) (entity : Option Entity) (n : String) : Prop :=
  DeclaredTwice TypeAlias.name n program.typeAliases ∨
    DeclaredTwice TypeAlias.name n ((entity.map (·.typeAliases)).getD [])

/-- A payload enum, a record name declared twice in a list, or a name that is also an
    alias. -/
def Missed (program : Program) (ent : Entity) (n : String) : Prop :=
  (lookupRecord ent program.records (.simple n) = none ∧
    (lookupPayloadEnum ent program.enums (.simple n)).isSome = true) ∨
  DeclaredTwice Record.name n program.records ∨ DeclaredTwice Record.name n ent.records ∨
  n ∈ (fieldAliases program ent).map (·.name)

/-- No cycle passes through a name the check misses. -/
structure NoMissedCycle (program : Program) : Prop where
  resolve : ∀ entity ∈ scopes program, ∀ n, MissedAlias program entity n →
    ¬ TransGen (AliasStep program entity) n n
  pack : ∀ ent ∈ program.entities, ∀ n, Missed program ent n →
    ¬ TransGen (Unfolds ent program.records program.enums) n n

/-! ### Merged declarations -/

section Merge

variable {α : Type} {nameOf : α → String} {n : String}

theorem eq_of_countP_le_one {xs : List α} {p : α → Bool} (h : xs.countP p ≤ 1) {x y : α}
    (hx : x ∈ xs) (hy : y ∈ xs) (hpx : p x = true) (hpy : p y = true) : x = y := by
  have hlen : (xs.filter p).length ≤ 1 := by rwa [← List.countP_eq_length_filter]
  have hxf : x ∈ xs.filter p := List.mem_filter.mpr ⟨hx, hpx⟩
  have hyf : y ∈ xs.filter p := List.mem_filter.mpr ⟨hy, hpy⟩
  match hf : xs.filter p, hlen, hxf, hyf with
  | [z], _, hxf, hyf => rw [List.mem_singleton.mp hxf, List.mem_singleton.mp hyf]

theorem find_of_countP_le_one {xs : List α} {p : α → Bool} (h : xs.countP p ≤ 1) {x : α}
    (hx : x ∈ xs) (hpx : p x = true) : xs.find? p = some x := by
  obtain ⟨y, hy⟩ := Option.isSome_iff_exists.mp (List.find?_isSome.mpr ⟨x, hx, hpx⟩)
  rw [hy, eq_of_countP_le_one h (List.mem_of_find?_eq_some hy) hx (List.find?_some hy) hpx]

theorem mem_overrideByName_self (x : α) (xs : List α) : x ∈ overrideByName nameOf x xs := by
  induction xs with
  | nil => exact List.mem_singleton.mpr rfl
  | cons y ys ih =>
    rw [overrideByName]
    by_cases hy : (nameOf y == nameOf x) = true
    · rw [if_pos hy]
      exact List.mem_cons_self
    · rw [if_neg hy]
      exact List.mem_cons_of_mem _ ih

/-- Entries of other names are kept as they are, and in their order. -/
theorem filter_overrideByName_of_ne {x : α} (hx : (nameOf x == n) = false) (xs : List α) :
    (overrideByName nameOf x xs).filter (nameOf · == n) = xs.filter (nameOf · == n) := by
  induction xs with
  | nil => simp [overrideByName, hx]
  | cons y ys ih =>
    rw [overrideByName]
    by_cases hy : (nameOf y == nameOf x) = true
    · have hyn : (nameOf y == n) = false := by rw [eq_of_beq hy, hx]
      rw [if_pos hy, List.filter_cons_of_neg (by rw [hx]; simp),
        List.filter_cons_of_neg (by rw [hyn]; simp)]
    · rw [if_neg hy, List.filter_cons, List.filter_cons, ih]

/-- A name declared once before is declared once after, with the new entry. -/
theorem filter_overrideByName_of_eq {x : α} (hx : (nameOf x == n) = true) {xs : List α}
    (h : xs.countP (nameOf · == n) ≤ 1) :
    (overrideByName nameOf x xs).filter (nameOf · == n) = [x] := by
  induction xs with
  | nil => simp [overrideByName, hx]
  | cons y ys ih =>
    have hxn : nameOf x = n := eq_of_beq hx
    rw [overrideByName, hxn]
    rw [List.countP_cons] at h
    by_cases hy : (nameOf y == n) = true
    · rw [if_pos hy] at h ⊢
      have hrest : ys.countP (nameOf · == n) = 0 := by omega
      rw [List.filter_cons_of_pos (p := (nameOf · == n)) hx, List.filter_eq_nil_iff.mpr (List.countP_eq_zero.mp hrest)]
    · rw [if_neg hy] at h ⊢
      rw [List.filter_cons_of_neg (p := (nameOf · == n)) hy]
      exact ih h

theorem countP_eq_of_filter_eq {p : α → Bool} {xs ys : List α} (h : xs.filter p = ys.filter p) :
    xs.countP p = ys.countP p := by
  rw [List.countP_eq_length_filter, List.countP_eq_length_filter, h]

/-- **Merging agrees with looking first at the overriding list** on a name no list
    declares twice. -/
theorem find_of_mem_mergeByName {base own : List α} (hb : base.countP (nameOf · == n) ≤ 1)
    (ho : own.countP (nameOf · == n) ≤ 1) {x : α} (hx : x ∈ mergeByName nameOf base own)
    (hn : (nameOf x == n) = true) :
    (own.find? (nameOf · == n)).or (base.find? (nameOf · == n)) = some x := by
  induction own generalizing base with
  | nil => exact find_of_countP_le_one hb hx hn
  | cons o own ih =>
    rw [mergeByName, List.foldl_cons] at hx
    rw [List.countP_cons] at ho
    by_cases hon : (nameOf o == n) = true
    · rw [if_pos hon] at ho
      have hfilter := filter_overrideByName_of_eq hon hb
      have hcount : (overrideByName nameOf o base).countP (nameOf · == n) ≤ 1 := by
        rw [List.countP_eq_length_filter, hfilter, List.length_singleton]
      have hnone : own.find? (nameOf · == n) = none :=
        List.find?_eq_none.mpr (List.countP_eq_zero.mp (by omega))
      have hfound := ih hcount (by omega) hx
      rw [hnone, Option.none_or,
        find_of_countP_le_one hcount (mem_overrideByName_self o base) hon] at hfound
      rw [List.find?_cons_of_pos (p := (nameOf · == n)) hon, Option.some_or, hfound]
    · rw [if_neg hon] at ho
      have hfilter := filter_overrideByName_of_ne (Bool.not_eq_true _ ▸ hon) base
      have hcount : (overrideByName nameOf o base).countP (nameOf · == n) ≤ 1 := by
        rwa [countP_eq_of_filter_eq hfilter]
      have hfound := ih hcount ho hx
      rw [← List.head?_filter, ← List.head?_filter, hfilter, List.head?_filter,
        List.head?_filter] at hfound
      rwa [List.find?_cons_of_neg (p := (nameOf · == n)) hon]

theorem mem_names_overrideByName {x : α} {xs : List α} :
    n ∈ (overrideByName nameOf x xs).map nameOf ↔ n = nameOf x ∨ n ∈ xs.map nameOf := by
  induction xs with
  | nil => simp [overrideByName]
  | cons y ys ih =>
    rw [overrideByName]
    by_cases hy : (nameOf y == nameOf x) = true
    · rw [if_pos hy, List.map_cons, List.map_cons, List.mem_cons, List.mem_cons, eq_of_beq hy]
      tauto
    · rw [if_neg hy, List.map_cons, List.map_cons, List.mem_cons, List.mem_cons, ih]
      tauto

theorem mem_names_mergeByName {base own : List α} :
    n ∈ (mergeByName nameOf base own).map nameOf ↔ n ∈ own.map nameOf ∨ n ∈ base.map nameOf := by
  induction own generalizing base with
  | nil => simp [mergeByName]
  | cons o own ih =>
    have hstep := @ih (overrideByName nameOf o base)
    rw [mem_names_overrideByName] at hstep
    rw [mergeByName, List.foldl_cons, ← mergeByName, hstep, List.map_cons, List.mem_cons]
    tauto

end Merge

/-! ### What a clean check says of its dependency map -/

theorem mem_sortedSet {x : String} {xs : List String} : x ∈ sortedSet xs ↔ x ∈ xs := by
  rw [sortedSet, List.mem_insertionSort, List.mem_dedup]

theorem mem_of_lookup {β : Type} {es : List (String × β)} {n : String} {v : β}
    (h : es.lookup n = some v) : (n, v) ∈ es := by
  obtain ⟨l₁, l₂, rfl, -⟩ := List.lookup_eq_some_iff.mp h
  exact List.mem_append_right _ List.mem_cons_self

theorem lookup_isSome {β : Type} {es : List (String × β)} {n : String} :
    (es.lookup n).isSome = true ↔ n ∈ es.map Prod.fst := by
  induction es with
  | nil => simp
  | cons e es ih =>
    obtain ⟨k, v⟩ := e
    by_cases hk : n = k
    · simp [hk]
    · rw [List.lookup_cons, beq_eq_false_iff_ne.mpr hk, List.map_cons, List.mem_cons]
      simp only [ih, hk, false_or]

theorem edge_of_cyclicScc {deps : Deps String} {scc : List String} (h : cyclicScc deps scc = false) :
    scc.length ≤ 1 ∧ ∀ v ∈ scc, ¬ Edge deps v v := by
  unfold cyclicScc at h
  rw [Bool.or_eq_false_iff, decide_eq_false_iff_not, not_lt] at h
  obtain ⟨hlen, hself⟩ := h
  refine ⟨hlen, ?_⟩
  match scc, hlen, hself with
  | [], _, _ => exact fun v hv => absurd hv List.not_mem_nil
  | [name], _, hself =>
    intro v hv hedge
    rw [List.mem_singleton.mp hv] at hedge
    simp only [List.contains_iff_mem.mpr hedge.1] at hself
    cases hself

/-- A dependency map without a reported cycle has none. -/
theorem acyclic_of_reportCycles {names : List String} {deps : Deps String} {message : String → String}
    (hnames : ∀ n, (deps.lookup n).isSome = true → n ∈ names)
    (h : NoErrors (reportCycles names deps message)) (v : String) : ¬ TransGen (Edge deps) v v := by
  have hclean : ∀ scc ∈ tarjanSccs names deps, cyclicScc deps scc = false := by
    intro scc hscc
    by_contra hcyc
    rw [Bool.not_eq_false] at hcyc
    exact h _ (List.mem_map.mpr ⟨scc, List.mem_filter.mpr ⟨hscc, hcyc⟩, rfl⟩) rfl
  refine acyclic_of_sccs hnames (fun scc hscc => (edge_of_cyclicScc (hclean scc hscc)).1) ?_ v
  intro u hu
  obtain ⟨scc, hscc, hmem⟩ := List.mem_flatten.mp hu
  exact (edge_of_cyclicScc (hclean scc hscc)).2 u hmem

/-! ### Aliases -/

theorem fst_aliasDeps (aliases : List TypeAlias) (n : String) :
    n ∈ (aliasDeps aliases).map Prod.fst ↔ n ∈ aliases.map (·.name) := by
  rw [aliasDeps, List.map_reverse, List.mem_reverse, List.map_map]
  rfl

theorem acyclic_of_checkCyclicAliases {aliases : List TypeAlias} {scope : String}
    (h : NoErrors (checkCyclicAliases aliases scope)) (v : String) :
    ¬ TransGen (Edge (aliasDeps aliases)) v v :=
  acyclic_of_reportCycles (fun n hn => (fst_aliasDeps aliases n).mp (lookup_isSome.mp hn)) h v

/-- The aliases of a scope, those of an entity over those of the program. -/
def scopeAliases (program : Program) (entity : Option Entity) : List TypeAlias :=
  mergeAliases program.typeAliases ((entity.map (·.typeAliases)).getD [])

theorem lookupAlias_isSome {program : Program} {entity : Option Entity} {n : String} :
    (lookupAlias program entity (.simple n)).isSome = true ↔
      n ∈ (scopeAliases program entity).map TypeAlias.name := by
  rw [scopeAliases, mergeAliases, mem_names_mergeByName, lookupAlias, Option.isSome_or,
    Bool.or_eq_true, List.find?_isSome, List.find?_isSome]
  simp only [List.mem_map, beq_iff_eq]

/-- The edges alias resolution follows are in the map, except at an ambiguous name. -/
theorem edge_of_aliasStep {program : Program} {entity : Option Entity} {a b : String}
    (h : AliasStep program entity a b) (ha : ¬ MissedAlias program entity a) :
    Edge (aliasDeps (scopeAliases program entity)) a b := by
  obtain ⟨⟨x, hx, hty⟩, hb⟩ := h
  have hbmem := lookupAlias_isSome.mp hb
  have hamem := lookupAlias_isSome.mp (Option.isSome_iff_exists.mpr ⟨x, hx⟩)
  simp only [MissedAlias, DeclaredTwice, not_or, not_lt] at ha
  obtain ⟨edges, hedges⟩ := Option.isSome_iff_exists.mp
    (lookup_isSome.mpr ((fst_aliasDeps _ a).mpr hamem))
  refine ⟨?_, lookup_isSome.mpr ((fst_aliasDeps _ b).mpr hbmem)⟩
  obtain ⟨y, hy, heq⟩ := List.mem_map.mp (List.mem_reverse.mp (mem_of_lookup hedges))
  obtain ⟨hname, hrefs⟩ := Prod.mk.inj heq
  have hfound := find_of_mem_mergeByName ha.1 ha.2 hy (beq_iff_eq.mpr hname)
  rw [lookupAlias, hfound, Option.some.injEq] at hx
  rw [hedges, Option.getD_some, ← hrefs, mem_sortedSet, hx, hty, collectAliasRefs,
    if_pos (List.contains_iff_mem.mpr hbmem)]
  exact List.mem_singleton.mpr rfl

/-- Resolution ends exactly when `AliasStep` has no cycle. -/
theorem resolve_terminates_of_acc {program : Program} {entity : Option Entity} {a : String}
    (h : Acc (fun b a => AliasStep program entity a b) a) :
    ∃ fuel, (resolveAlias program entity fuel (.simple a)).isSome = true := by
  induction h with
  | intro a _ ih =>
    cases hx : lookupAlias program entity (.simple a) with
    | none => exact ⟨1, by rw [resolveAlias, hx]; rfl⟩
    | some x =>
      cases hn : lookupAlias program entity x.ty with
      | none => exact ⟨2, by simp only [resolveAlias, hx, hn, Option.isSome_some]⟩
      | some y =>
        obtain ⟨b, hb⟩ : ∃ b, x.ty = .simple b := by
          cases hty : x.ty with
          | simple b => exact ⟨b, rfl⟩
          | generic _ _ => rw [hty] at hn; cases hn
          | tuple _ => rw [hty] at hn; cases hn
          | typedAddress _ => rw [hty] at hn; cases hn
        obtain ⟨fuel, hfuel⟩ := ih b ⟨⟨x, hx, hb⟩, by rw [← hb, hn]; rfl⟩
        refine ⟨fuel + 1, ?_⟩
        rw [resolveAlias, hx]
        simp only [hb, hfuel]

theorem acc_of_resolve {program : Program} {entity : Option Entity} (fuel : Nat) :
    ∀ a, (resolveAlias program entity fuel (.simple a)).isSome = true →
      Acc (fun b a => AliasStep program entity a b) a := by
  induction fuel with
  | zero => exact fun a h => (nomatch h)
  | succ fuel ih =>
    intro a h
    refine Acc.intro a fun b hb => ?_
    obtain ⟨⟨x, hx, hty⟩, -⟩ := hb
    rw [resolveAlias, hx] at h
    simp only [hty] at h
    exact ih b h

theorem resolve_terminates_iff_acyclic (program : Program) (entity : Option Entity) :
    (∀ ty, ∃ fuel, (resolveAlias program entity fuel ty).isSome = true) ↔
      ∀ a, ¬ TransGen (AliasStep program entity) a a := by
  constructor
  · intro h a
    obtain ⟨fuel, hfuel⟩ := h (.simple a)
    exact not_transGen_of_acc (acc_of_resolve fuel a hfuel)
  · intro hacyc ty
    have hfin : ∀ a b, AliasStep program entity a b →
        a ∈ (scopeAliases program entity).map TypeAlias.name := by
      rintro a b ⟨⟨x, hx, -⟩, -⟩
      exact lookupAlias_isSome.mp (by rw [hx]; rfl)
    cases ty with
    | simple a => exact resolve_terminates_of_acc (acc_of_acyclic hfin hacyc a)
    | generic _ _ => exact ⟨1, rfl⟩
    | tuple _ => exact ⟨1, rfl⟩
    | typedAddress _ => exact ⟨1, rfl⟩

/-! ### Records -/

/-- A field that names no alias is seen as it is. -/
theorem collectStrictRecordRefs_simple {aliases : List (String × Ty)} {fuel : Nat} {n : String}
    {refs : List String} (hn : aliases.lookup n = none)
    (h : collectStrictRecordRefs aliases fuel (.simple n) = some refs) : refs = [n] := by
  cases fuel with
  | zero => cases h
  | succ fuel =>
    rw [collectStrictRecordRefs, unfoldAliases, unfoldLoop, hn] at h
    exact (Option.some.inj h).symm

theorem recordEntry_spec {fuel : Nat} {aliases : List (String × Ty)} {names : List String}
    {r : Record} {entry : String × List String}
    (h : recordEntry fuel aliases names r = some entry) :
    entry.1 = r.name ∧ ∀ b, Ty.simple b ∈ r.fields.map (·.ty) → b ∈ names →
      aliases.lookup b = none → b ∈ entry.2 := by
  obtain ⟨refs, hrefs, rfl⟩ := Option.map_eq_some_iff.mp h
  refine ⟨rfl, ?_⟩
  intro b hb hname hnone
  obtain ⟨f, hf, hfty⟩ := List.mem_map.mp hb
  obtain ⟨own, hown, heq⟩ := (mem_of_mapM hrefs).1 f hf
  rw [hfty] at heq
  rw [collectStrictRecordRefs_simple hnone heq] at hown
  refine mem_sortedSet.mpr (List.mem_filter.mpr ⟨?_, List.contains_iff_mem.mpr hname⟩)
  exact List.mem_flatten.mpr ⟨[b], hown, List.mem_singleton.mpr rfl⟩

theorem fst_of_recordEntries {fuel : Nat} {aliases : List (String × Ty)} {names : List String}
    {records : List Record} {entries : List (String × List String)}
    (h : records.mapM (recordEntry fuel aliases names) = some entries) (n : String) :
    n ∈ entries.reverse.map Prod.fst ↔ n ∈ records.map (·.name) := by
  obtain ⟨hto, hfrom⟩ := mem_of_mapM h
  rw [List.map_reverse, List.mem_reverse, List.mem_map, List.mem_map]
  constructor
  · rintro ⟨entry, hentry, rfl⟩
    obtain ⟨r, hr, hrec⟩ := hfrom entry hentry
    exact ⟨r, hr, (recordEntry_spec hrec).1.symm⟩
  · rintro ⟨r, hr, rfl⟩
    obtain ⟨entry, hentry, hrec⟩ := hto r hr
    exact ⟨entry, hentry, (recordEntry_spec hrec).1⟩

theorem mem_recordUniverse_names {program : Program} {ent : Entity} {n : String} :
    n ∈ (recordUniverse program ent).map Record.name ↔
      (lookupRecord ent program.records (.simple n)).isSome = true := by
  rw [recordUniverse, mem_names_mergeByName, lookupRecord, Option.isSome_or, Bool.or_eq_true,
    List.find?_isSome, List.find?_isSome]
  simp only [List.mem_map, beq_iff_eq]

/-- The edges packing follows are in the map, except at a missed name. -/
theorem edge_of_unfolds {program : Program} {ent : Entity} {fuel : Nat}
    {entries : List (String × List String)}
    (hentries : (recordUniverse program ent).mapM (recordEntry fuel
      (aliasMap (fieldAliases program ent)) ((recordUniverse program ent).map (·.name))) = some entries)
    {a b : String} (h : Unfolds ent program.records program.enums a b)
    (ha : ¬ Missed program ent a) (hb : ¬ Missed program ent b) : Edge entries.reverse a b := by
  have hfst := fst_of_recordEntries hentries
  cases h with
  | payload hrec hpay _ _ =>
    -- packing enters a payload enum, which the map does not have
    exact absurd (Or.inl ⟨hrec, by rw [hpay]; rfl⟩) ha
  | @record r hr hfield hnamed =>
    have hbrec : (lookupRecord ent program.records (.simple b)).isSome = true := by
      rcases hnamed with hrec | hpay
      · exact hrec
      · by_contra hnone
        rw [Option.not_isSome_iff_eq_none] at hnone
        exact hb (Or.inl ⟨hnone, hpay⟩)
    have hbname := mem_recordUniverse_names.mpr hbrec
    have haname := mem_recordUniverse_names.mpr (Option.isSome_iff_exists.mpr ⟨r, hr⟩)
    have hbalias : (aliasMap (fieldAliases program ent)).lookup b = none := by
      rw [← Option.not_isSome_iff_eq_none, lookup_isSome, aliasMap, List.map_reverse,
        List.mem_reverse, List.map_map]
      exact fun hmem => hb (Or.inr (Or.inr (Or.inr hmem)))
    simp only [Missed, DeclaredTwice, not_or, not_lt] at ha
    obtain ⟨edges, hedges⟩ := Option.isSome_iff_exists.mp (lookup_isSome.mpr ((hfst a).mpr haname))
    refine ⟨?_, lookup_isSome.mpr ((hfst b).mpr hbname)⟩
    obtain ⟨r', hr', hentry⟩ := (mem_of_mapM hentries).2 _ (List.mem_reverse.mp (mem_of_lookup hedges))
    obtain ⟨hname, hrefs⟩ := recordEntry_spec hentry
    -- the last entry of the map is the declaration packing looks up
    have hfound := find_of_mem_mergeByName ha.2.1 ha.2.2.1 hr' (beq_iff_eq.mpr hname.symm)
    rw [lookupRecord, hfound, Option.some.injEq] at hr
    rw [hedges, Option.getD_some]
    rw [← hr] at hfield
    exact hrefs b hfield hbname hbalias

theorem acyclic_of_checkRecursiveRecordsIn {program : Program} {ent : Entity} {fuel : Nat}
    {scope : String} {diags : List Diagnostic}
    (h : checkRecursiveRecordsIn fuel (recordUniverse program ent)
      (aliasMap (fieldAliases program ent)) scope = some diags) (hclean : NoErrors diags) (v : String) :
    ¬ TransGen (fun a b => Unfolds ent program.records program.enums a b ∧
      ¬ Missed program ent a ∧ ¬ Missed program ent b) v v := by
  obtain ⟨entries, hentries, rfl⟩ := Option.map_eq_some_iff.mp h
  have hacyc := acyclic_of_reportCycles
    (fun n hn => (fst_of_recordEntries hentries n).mp (lookup_isSome.mp hn)) hclean v
  intro hcyc
  refine hacyc (TransGen.mono ?_ v v hcyc)
  rintro a b ⟨hab, ha, hb⟩
  exact edge_of_unfolds hentries hab ha hb

/-! ### What a clean check gives -/

/-- The three parts of a clean check. -/
theorem V52Clean.parts {program : Program} (h : V52Clean program) :
    NoErrors (checkCyclicAliases program.typeAliases "program") ∧
    (∃ fuel diags, checkRecursiveRecordsIn fuel program.records (aliasMap program.typeAliases)
      "program" = some diags ∧ NoErrors diags) ∧
    ∀ ent ∈ program.entities, NoErrors (checkEntityAliases program ent) ∧
      ∃ fuel diags, checkEntityRecords fuel program ent = some diags ∧ NoErrors diags := by
  obtain ⟨fuel, diags, h, hclean⟩ := h
  rw [checkRecursiveRecords, Option.bind_eq_bind, Option.bind_eq_some_iff] at h
  obtain ⟨own, hown, h⟩ := h
  rw [Option.bind_eq_bind, Option.bind_eq_some_iff] at h
  obtain ⟨nested, hnested, heq⟩ := h
  rw [← Option.some.inj heq] at hclean
  rw [noErrors_append, noErrors_append] at hclean
  obtain ⟨⟨haliases, hrecords⟩, hents⟩ := hclean
  refine ⟨haliases, ⟨fuel, own, hown, hrecords⟩, ?_⟩
  intro ent hent
  obtain ⟨both, hboth, hent⟩ := (mem_of_mapM hnested).1 ent hent
  obtain ⟨ds, hds, rfl⟩ := Option.map_eq_some_iff.mp hent
  have hsplit : NoErrors (checkEntityAliases program ent ++ ds) :=
    fun d hd => hents d (List.mem_flatten.mpr ⟨_, hboth, hd⟩)
  rw [noErrors_append] at hsplit
  exact ⟨hsplit.1, fuel, ds, hds, hsplit.2⟩

theorem V52Clean.aliases {program : Program} (h : V52Clean program) {entity : Option Entity}
    (hent : entity ∈ scopes program) (v : String) :
    ¬ TransGen (fun a b => AliasStep program entity a b ∧ ¬ MissedAlias program entity a ∧
      ¬ MissedAlias program entity b) v v := by
  obtain ⟨hprogram, -, hents⟩ := h.parts
  have hclean : ∃ scope, NoErrors (checkCyclicAliases (scopeAliases program entity) scope) := by
    rcases List.mem_cons.mp hent with rfl | hmem
    · exact ⟨_, hprogram⟩
    · obtain ⟨ent, hent', rfl⟩ := List.mem_map.mp hmem
      have hchecked := (hents ent hent').1
      rw [checkEntityAliases] at hchecked
      by_cases hempty : ent.typeAliases.isEmpty = true
      · refine ⟨"program", ?_⟩
        rw [scopeAliases, Option.map_some, Option.getD_some, List.isEmpty_iff.mp hempty]
        exact hprogram
      · rw [if_neg hempty] at hchecked
        exact ⟨_, hchecked⟩
  obtain ⟨scope, hclean⟩ := hclean
  intro hcyc
  refine acyclic_of_checkCyclicAliases hclean v (TransGen.mono ?_ v v hcyc)
  rintro a b ⟨hab, ha, -⟩
  exact edge_of_aliasStep hab ha

theorem V52Clean.records {program : Program} (h : V52Clean program) {ent : Entity}
    (hent : ent ∈ program.entities) (v : String) :
    ¬ TransGen (fun a b => Unfolds ent program.records program.enums a b ∧
      ¬ Missed program ent a ∧ ¬ Missed program ent b) v v := by
  obtain ⟨-, ⟨fuel, own, hown, hownClean⟩, hents⟩ := h.parts
  obtain ⟨-, fuel', diags, hdiags, hclean⟩ := hents ent hent
  rw [checkEntityRecords] at hdiags
  by_cases hempty : ent.records.isEmpty = true
  · -- the entity has no records of its own: the check of the program covers it
    have hsame : checkRecursiveRecordsIn fuel (recordUniverse program ent)
        (aliasMap (fieldAliases program ent)) "program" = some own := by
      rw [recordUniverse, fieldAliases, if_pos hempty, List.isEmpty_iff.mp hempty]
      exact hown
    exact acyclic_of_checkRecursiveRecordsIn hsame hownClean v
  · rw [if_neg hempty] at hdiags
    exact acyclic_of_checkRecursiveRecordsIn hdiags hclean v

/-- **Which programs without a V52 error unfold forever**: the recursions over types
    end exactly when no cycle passes through a name the check misses. -/
theorem unfoldingTerminates_iff (program : Program) (h : V52Clean program) :
    UnfoldingTerminates program ↔ NoMissedCycle program := by
  have haliases : ∀ entity ∈ scopes program,
      (∀ ty, ∃ fuel, (resolveAlias program entity fuel ty).isSome = true) ↔
        ∀ n, MissedAlias program entity n → ¬ TransGen (AliasStep program entity) n n := by
    intro entity hent
    rw [resolve_terminates_iff_acyclic]
    exact acyclic_iff_missed (h.aliases hent)
  have hrecords : ∀ ent ∈ program.entities,
      (∀ ty, PackTerminates ent program.records program.enums ty) ↔
        ∀ n, Missed program ent n → ¬ TransGen (Unfolds ent program.records program.enums) n n := by
    intro ent hent
    rw [packTerminates_iff_acyclic]
    exact acyclic_iff_missed (h.records hent)
  constructor
  · intro hterm
    exact ⟨fun entity hent => (haliases entity hent).mp (hterm.resolve entity hent),
      fun ent hent => (hrecords ent hent).mp (hterm.pack ent hent)⟩
  · intro hcond
    exact ⟨fun entity hent => (haliases entity hent).mpr (hcond.resolve entity hent),
      fun ent hent => (hrecords ent hent).mpr (hcond.pack ent hent)⟩

/-! ### A record and a payload enum that contain each other -/

/-- `record Node { next: Link }`, `enum Link { End, To(Node) }` and an entity that stores
    a `Node`. -/
def linkedProgram : Program where
  imports := []
  pureFns := []
  typeAliases := []
  records := [{ name := "Node", fields := [{ name := "next", ty := .simple "Link" }] }]
  enums := [{ name := "Link", variants := [{ name := "End", fields := [] },
    { name := "To", fields := [.simple "Node"] }] }]
  entities := [{
    name := "List", records := [], enums := [], typeAliases := [], constants := [], macros := []
    routes := []
    members := [{ name := "head", ty := .simple "Node", isIdentity := false, defaultValue := none
                  transforms := [] }] }]
  externEntities := []
  libraries := []

theorem linkedProgram_clean : V52Clean linkedProgram :=
  ⟨1, [], by decide, by decide⟩

theorem unfolding_diverges : V52Clean linkedProgram ∧ ¬ UnfoldingTerminates linkedProgram := by
  refine ⟨linkedProgram_clean, ?_⟩
  intro h
  have hacyc := packTerminates_iff_acyclic.mp (h.pack _ List.mem_cons_self)
  refine hacyc "Node" (TransGen.tail (TransGen.single (b := "Link") ?_) ?_)
  · exact .record rfl List.mem_cons_self (Or.inr rfl)
  · exact .payload rfl rfl List.mem_cons_self rfl

theorem unfoldingTerminates_linked :
    UnfoldingTerminates linkedProgram ↔ NoMissedCycle linkedProgram :=
  unfoldingTerminates_iff linkedProgram linkedProgram_clean

end CambrianLang.Validate
