/-
  **Merging the files of a project** (`merge_tagged_programs` in `project.rs`), and
  what the properties of an imported file become after it.

  An imported file is refused for its entities, tests, fuzz tests and invariants.
  The derived declarations are followed back to the file they come from.
-/
import CambrianLang.Project.Desugar
import CambrianLang.Project.Normalization

namespace CambrianLang.Authored

open Ast

/-! ### The merge -/

inductive SourceKind where
  | entry
  | imported
deriving DecidableEq

structure TaggedProgram where
  source : String
  kind : SourceKind
  program : Program

/-- The errors of `ProjectError` a merge returns. -/
inductive ProjectError where
  | packaging (code message path : String)
  | merge (message : String)
deriving DecidableEq

/-- `f4`. -/
def f4 (path message : String) : ProjectError := .packaging "F4" message path

/-- The error for an imported file that declares what only an entry file may. -/
def importError (t : TaggedProgram) : Option ProjectError :=
  let start := "F4: imported file '" ++ t.source ++ "' declares "
  match t.program.entities, t.program.tests, t.program.fuzzTests, t.program.invariants with
  | e :: _, _, _, _ =>
    some (f4 t.source (start ++ "entity '" ++ e.name ++
      "' (only declarations may appear in imported files; list this file under `sources:` in " ++
      "project.yaml to make it a project entry instead)"))
  | [], test :: _, _, _ =>
    some (f4 t.source (start ++ "test \"" ++ test.name ++
      "\" (tests must live in entry files, not imported libraries)"))
  | [], [], fuzz :: _, _ =>
    some (f4 t.source (start ++ "fuzz \"" ++ fuzz.name ++
      "\" (fuzz tests must live in entry files, not imported libraries)"))
  | [], [], [], inv :: _ =>
    some (f4 t.source (start ++ "invariant \"" ++ inv.name ++
      "\" (invariants must live in entry files, not imported libraries)"))
  | [], [], [], [] => none

/-- The pre-check of `merge_tagged_programs`. -/
def checkImported : List TaggedProgram → Except ProjectError Unit
  | [] => .ok ()
  | t :: ts =>
    match t.kind, importError t with
    | .imported, some e => .error e
    | _, _ => checkImported ts

/-- Appends declarations, each of which must have a new name. -/
def addUnique {α : Type} (name duplicate : α → String) :
    List α → List α → Except ProjectError (List α)
  | acc, [] => .ok acc
  | acc, x :: xs =>
    if acc.any fun y => name y == name x then .error (.merge (duplicate x))
    else addUnique name duplicate (acc ++ [x]) xs

/-- Appends the elements whose key is new. -/
def addNew {α : Type} (key : α → String) (acc xs : List α) : List α :=
  xs.foldl (fun acc x => if acc.any fun y => key y == key x then acc else acc ++ [x]) acc

/-- `find_first_source`. -/
def findFirstSource (programs : List (String × Program)) (predicate : Program → Bool)
    (exclude : String) : String :=
  ((programs.find? fun p => p.1 != exclude && predicate p.2).map (·.1)).getD "unknown"

/-- One round of the loop of `merge_programs`.  The names seen so far are those of the
    declarations merged so far. -/
def mergeOne (programs : List (String × Program)) (merged : Program)
    (file : String × Program) : Except ProjectError Program := do
  let (source, program) := file
  let entities ← addUnique (fun e : Contract => e.name) (fun e =>
    "duplicate entity '" ++ e.name ++ "' (first defined before " ++
      findFirstSource programs (fun p => p.entities.any fun e' => e'.name == e.name) source ++
      ", redefined in " ++ source ++ ")") merged.entities program.entities
  let records ← addUnique (fun r : Record => r.name)
    (fun r => "duplicate record '" ++ r.name ++ "' in " ++ source) merged.records program.records
  let enums ← addUnique (fun e : EnumDecl => e.name)
    (fun e => "duplicate enum '" ++ e.name ++ "' in " ++ source) merged.enums program.enums
  let typeAliases ← addUnique (fun t : TypeAlias => t.name)
    (fun t => "duplicate type alias '" ++ t.name ++ "' in " ++ source)
    merged.typeAliases program.typeAliases
  let pureFns ← addUnique (fun f : PureFn => f.name)
    (fun f => "duplicate pure function '" ++ f.name ++ "' in " ++ source)
    merged.pureFns program.pureFns
  let externEntities ← addUnique (fun e : ExternEntity => e.name)
    (fun e => "duplicate extern entity '" ++ e.name ++ "' in " ++ source)
    merged.externEntities program.externEntities
  let libraries ← addUnique (fun l : LibraryDecl => l.name)
    (fun l => "duplicate library '" ++ l.name ++ "' in " ++ source)
    merged.libraries program.libraries
  let events ← addUnique (fun e : EventDecl => e.name)
    (fun e => "duplicate event '" ++ e.name ++ "' in " ++ source) merged.events program.events
  let errors ← addUnique (fun e : ErrorDecl => e.name)
    (fun e => "duplicate error '" ++ e.name ++ "' in " ++ source) merged.errors program.errors
  return {
    imports := addNew (fun i : Import => i.ns) merged.imports program.imports
    fileImports := addNew (fun i : ImportFile => i.path) merged.fileImports program.fileImports
    pureFns, typeAliases, records, enums, entities, externEntities, events, errors, libraries
    tests := merged.tests ++ program.tests
    properties := merged.properties ++ program.properties
    fuzzTests := merged.fuzzTests ++ program.fuzzTests
    invariants := merged.invariants ++ program.invariants
    usingDecls := merged.usingDecls ++ program.usingDecls }

/-- `merge_programs`. -/
def mergePrograms (programs : List (String × Program)) : Except ProjectError Program := do
  let merged ← programs.foldlM (mergeOne programs) Program.empty
  return normalizeProgram merged

/-- `merge_tagged_programs`. -/
def mergeTaggedPrograms (programs : List TaggedProgram) : Except ProjectError Program := do
  checkImported programs
  mergePrograms (programs.map fun t => (t.source, t.program))

/-! ### What a merge keeps of the tests -/

theorem bind_ok {ε α β : Type} {x : Except ε α} {f : α → Except ε β} {b : β}
    (h : x >>= f = .ok b) : ∃ a, x = .ok a ∧ f a = .ok b := by
  cases x with
  | error e => cases h
  | ok a => exact ⟨a, rfl, h⟩

/-- The declarations of `q` are those of `p` followed by those of the files. -/
structure Collects (p : Program) (files : List Program) (q : Program) : Prop where
  tests : q.tests = p.tests ++ files.flatMap (·.tests)
  properties : q.properties = p.properties ++ files.flatMap (·.properties)
  fuzzTests : q.fuzzTests = p.fuzzTests ++ files.flatMap (·.fuzzTests)
  invariants : q.invariants = p.invariants ++ files.flatMap (·.invariants)

theorem mergeOne_collects {programs : List (String × Program)} {p q : Program}
    {file : String × Program} (h : mergeOne programs p file = .ok q) : Collects p [file.2] q := by
  obtain ⟨entities, -, h⟩ := bind_ok h
  obtain ⟨records, -, h⟩ := bind_ok h
  obtain ⟨enums, -, h⟩ := bind_ok h
  obtain ⟨aliases, -, h⟩ := bind_ok h
  obtain ⟨fns, -, h⟩ := bind_ok h
  obtain ⟨externs, -, h⟩ := bind_ok h
  obtain ⟨libs, -, h⟩ := bind_ok h
  obtain ⟨events, -, h⟩ := bind_ok h
  obtain ⟨errors, -, h⟩ := bind_ok h
  cases h
  constructor <;> simp

theorem foldlM_collects {programs : List (String × Program)} :
    ∀ {files : List (String × Program)} {p q : Program},
      files.foldlM (mergeOne programs) p = .ok q → Collects p (files.map (·.2)) q := by
  intro files
  induction files with
  | nil =>
    intro p q h
    cases h
    constructor <;> simp
  | cons file files ih =>
    intro p q h
    rw [List.foldlM_cons] at h
    obtain ⟨r, hone, hrest⟩ := bind_ok h
    have hfirst := mergeOne_collects hone
    have hrest := ih hrest
    constructor
    · rw [hrest.tests, hfirst.tests]
      simp
    · rw [hrest.properties, hfirst.properties]
      simp
    · rw [hrest.fuzzTests, hfirst.fuzzTests]
      simp
    · rw [hrest.invariants, hfirst.invariants]
      simp

theorem applyUsingRewrites_tests (p : Program) :
    (applyUsingRewrites p).tests = p.tests ∧ (applyUsingRewrites p).properties = p.properties ∧
      (applyUsingRewrites p).fuzzTests = p.fuzzTests ∧
      (applyUsingRewrites p).invariants = p.invariants := by
  rcases applyUsingRewrites_cases p with h | ⟨h, -⟩ <;> simp [h]

/-- The tests of a merged program are those of the files, with the literals replaced. -/
theorem mergeTaggedPrograms_collects {ts : List TaggedProgram} {p : Program}
    (h : mergeTaggedPrograms ts = .ok p) :
    p.tests = ts.flatMap (fun t => t.program.tests.map (mapTest desugarExpr)) ∧
    p.properties = ts.flatMap (fun t => t.program.properties.map (mapProperty desugarExpr)) ∧
    p.fuzzTests = ts.flatMap (fun t => t.program.fuzzTests.map (mapFuzz desugarExpr)) ∧
    p.invariants = ts.flatMap (fun t => t.program.invariants.map (mapInvariant desugarExpr)) := by
  obtain ⟨-, -, h⟩ := bind_ok h
  obtain ⟨merged, hmerged, h⟩ := bind_ok h
  cases h
  have hc := foldlM_collects hmerged
  obtain ⟨htests, hprops, hfuzz, hinvs⟩ := applyUsingRewrites_tests (normalizeProgramTypes merged)
  refine ⟨htests.trans ?_, hprops.trans ?_, hfuzz.trans ?_, hinvs.trans ?_⟩
  · change merged.tests.map (mapTest desugarExpr) = _
    rw [hc.tests]
    simp [Program.empty, List.flatMap_map, List.map_flatMap]
  · change merged.properties.map (mapProperty desugarExpr) = _
    rw [hc.properties]
    simp [Program.empty, List.flatMap_map, List.map_flatMap]
  · change merged.fuzzTests.map (mapFuzz desugarExpr) = _
    rw [hc.fuzzTests]
    simp [Program.empty, List.flatMap_map, List.map_flatMap]
  · change merged.invariants.map (mapInvariant desugarExpr) = _
    rw [hc.invariants]
    simp [Program.empty, List.flatMap_map, List.map_flatMap]

/-- What the pre-check establishes of an imported file. -/
theorem of_checkImported {ts : List TaggedProgram} (h : checkImported ts = .ok ()) :
    ∀ t ∈ ts, t.kind = .imported → t.program.tests = [] ∧ t.program.fuzzTests = [] ∧
      t.program.invariants = [] := by
  induction ts with
  | nil => simp
  | cons t ts ih =>
    rw [checkImported] at h
    split at h
    · cases h
    · rename_i hnone
      intro u hu himported
      rcases List.mem_cons.mp hu with rfl | hu
      · cases herr : importError u with
        | some e => exact absurd herr (hnone e himported)
        | none =>
          simp only [importError] at herr
          split at herr <;> simp_all
      · exact ih h u hu himported

/-! ### Where the tests come from -/

/-- What every file contributes, with the kind of the file. -/
def contributed {α : Type} (k : Program → List α) (ts : List TaggedProgram) :
    List (SourceKind × α) := ts.flatMap fun t => (k t.program).map fun x => (t.kind, x)

theorem contributed_map_snd {α : Type} (k : Program → List α) (ts : List TaggedProgram) :
    (contributed k ts).map Prod.snd = ts.flatMap fun t => k t.program := by
  simp [contributed, List.map_flatMap, Function.comp_def]

/-- Nothing is contributed by an imported file. -/
def NoneImported {α : Type} (xs : List (SourceKind × α)) : Prop := ∀ x ∈ xs, x.1 ≠ .imported

theorem noneImported_append {α : Type} {xs ys : List (SourceKind × α)} :
    NoneImported (xs ++ ys) ↔ NoneImported xs ∧ NoneImported ys := by
  simp only [NoneImported, List.mem_append, or_imp, forall_and]

theorem noneImported_contributed {α : Type} {k : Program → List α} {ts : List TaggedProgram} :
    NoneImported (contributed k ts) ↔ ∀ t ∈ ts, t.kind = .imported → k t.program = [] := by
  simp only [NoneImported, contributed, List.mem_flatMap, List.mem_map]
  constructor
  · intro h t ht himported
    apply List.eq_nil_iff_forall_not_mem.mpr
    intro x hx
    exact h _ ⟨t, ht, x, hx, rfl⟩ himported
  · rintro h _ ⟨t, ht, x, hx, rfl⟩ himported
    rw [h t ht himported] at hx
    exact List.not_mem_nil hx

/-- The declarations derived from the properties of a file. -/
def derivedFrom (entities : List Contract) (program : Program) : List Lowered :=
  lowered entities (program.properties.map (mapProperty desugarExpr))

/-- The tests after `desugar_properties`, each with the kind of the file it comes from: its
    own tests, or those derived from its properties. -/
def tracedTests (entities : List Contract) (ts : List TaggedProgram) :
    List (SourceKind × TestDecl) :=
  contributed (fun p => p.tests.map (mapTest desugarExpr)) ts ++
    contributed (fun p => (derivedFrom entities p).filterMap Lowered.test?) ts

/-- The fuzz tests after `desugar_properties`, each with the kind of its file. -/
def tracedFuzzTests (entities : List Contract) (ts : List TaggedProgram) :
    List (SourceKind × FuzzDecl) :=
  contributed (fun p => p.fuzzTests.map (mapFuzz desugarExpr)) ts ++
    contributed (fun p => (derivedFrom entities p).filterMap Lowered.fuzz?) ts

/-- The invariants, each with the kind of its file. -/
def tracedInvariants (ts : List TaggedProgram) : List (SourceKind × InvariantDecl) :=
  contributed (fun p => p.invariants.map (mapInvariant desugarExpr)) ts

theorem lowered_flatMap (entities : List Contract) (ts : List TaggedProgram) :
    lowered entities (ts.flatMap fun t => t.program.properties.map (mapProperty desugarExpr)) =
      ts.flatMap fun t => derivedFrom entities t.program := by
  simp only [lowered, derivedFrom, List.flatMap_assoc]

/-- Forgetting the kinds gives the declarations of the program. -/
theorem traced_eq {ts : List TaggedProgram} {p : Program} (h : mergeTaggedPrograms ts = .ok p) :
    (tracedTests p.entities ts).map Prod.snd = (desugarProperties p).tests ∧
    (tracedFuzzTests p.entities ts).map Prod.snd = (desugarProperties p).fuzzTests ∧
    (tracedInvariants ts).map Prod.snd = (desugarProperties p).invariants := by
  obtain ⟨htests, hprops, hfuzz, hinvs⟩ := mergeTaggedPrograms_collects h
  simp only [tracedTests, tracedFuzzTests, tracedInvariants, List.map_append, contributed_map_snd,
    desugarProperties, htests, hfuzz, hinvs, hprops, lowered_flatMap, List.filterMap_flatMap,
    and_self]

theorem derivedFrom_eq_nil {entities : List Contract} {program : Program} :
    derivedFrom entities program = [] ↔ program.properties = [] := by
  rw [derivedFrom, lowered_eq_nil, List.map_eq_nil_iff]

/-- **What imported files inject.**  After the merge and the lowering of properties, no test,
    fuzz test or invariant comes from an imported file exactly when no imported file declares
    a property. -/
theorem none_imported_iff {ts : List TaggedProgram} {p : Program}
    (h : mergeTaggedPrograms ts = .ok p) :
    ((tracedTests p.entities ts).map Prod.snd = (desugarProperties p).tests ∧
      (tracedFuzzTests p.entities ts).map Prod.snd = (desugarProperties p).fuzzTests ∧
      (tracedInvariants ts).map Prod.snd = (desugarProperties p).invariants) ∧
    (NoneImported (tracedTests p.entities ts) ∧ NoneImported (tracedFuzzTests p.entities ts) ∧
        NoneImported (tracedInvariants ts) ↔
      ∀ t ∈ ts, t.kind = .imported → t.program.properties = []) := by
  refine ⟨traced_eq h, ?_⟩
  obtain ⟨_, hcheck, -⟩ := bind_ok h
  have himported := of_checkImported hcheck
  simp only [tracedTests, tracedFuzzTests, tracedInvariants, noneImported_append,
    noneImported_contributed, List.map_eq_nil_iff]
  constructor
  · rintro ⟨⟨-, htest⟩, ⟨-, hfuzz⟩, -⟩ t ht hkind
    have hnil := (lowered_split (derivedFrom p.entities t.program)).mp
      ⟨htest t ht hkind, hfuzz t ht hkind⟩
    exact derivedFrom_eq_nil.mp hnil
  · intro hprops
    have hnil : ∀ t ∈ ts, t.kind = .imported → derivedFrom p.entities t.program = [] :=
      fun t ht hkind => derivedFrom_eq_nil.mpr (hprops t ht hkind)
    refine ⟨⟨fun t ht hkind => (himported t ht hkind).1, fun t ht hkind => ?_⟩,
      ⟨fun t ht hkind => (himported t ht hkind).2.1, fun t ht hkind => ?_⟩,
      fun t ht hkind => (himported t ht hkind).2.2⟩
    · rw [hnil t ht hkind]
      rfl
    · rw [hnil t ht hkind]
      rfl

/-- A property of a library: the counter starts at zero. -/
def startsAtZero : PropertyDecl :=
  { name := "starts at zero", entityName := "Counter", params := [], initState := []
    forallState := ForallSpec.default, context := ⟨[]⟩
    body := [.expectState [([.field "m_count"], .enumVariant "U256" "ZERO")]], instances := []
    tag := none, instantiates := none }

/-- A project with an entry file and the imported file with the property. -/
def counterProject : List TaggedProgram :=
  [⟨"main.cam", .entry, Program.empty⟩,
    ⟨"lib.cam", .imported, { Program.empty with properties := [startsAtZero] }⟩]

/-- The two files merged. -/
def counterMerged : Program :=
  { Program.empty with properties := [mapProperty desugarExpr startsAtZero] }

/-- At the project with the property in its library. -/
theorem none_imported_iff_counter :
    mergeTaggedPrograms counterProject = .ok counterMerged ∧
    (NoneImported (tracedTests counterMerged.entities counterProject) ∧
        NoneImported (tracedFuzzTests counterMerged.entities counterProject) ∧
        NoneImported (tracedInvariants counterProject) ↔
      ∀ t ∈ counterProject, t.kind = .imported → t.program.properties = []) :=
  ⟨rfl, (none_imported_iff rfl).2⟩

/-- The property of the library becomes a test of the project. -/
theorem imported_test_injected :
    ¬ ∀ (ts : List TaggedProgram) (p : Program), mergeTaggedPrograms ts = .ok p →
      NoneImported (tracedTests p.entities ts) ∧ NoneImported (tracedFuzzTests p.entities ts) ∧
        NoneImported (tracedInvariants ts) := by
  intro hall
  obtain ⟨htests, -⟩ := hall counterProject counterMerged rfl
  have hmem : (SourceKind.imported, propToTest (mapProperty desugarExpr startsAtZero) none) ∈
      tracedTests counterMerged.entities counterProject := List.mem_singleton.mpr rfl
  exact htests _ hmem rfl

end CambrianLang.Authored
