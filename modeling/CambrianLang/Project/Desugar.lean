/-
  **Properties as tests and fuzz tests** (`desugar.rs`).

  Each instance of a property becomes a test or a fuzz test; a property without
  instances becomes one of the two.
-/
import CambrianLang.Ast.Literals

namespace CambrianLang.Authored

open Ast

/-! ### Property and instance combined -/

/-- `resolve_forall`. -/
def resolveForall (prop : PropertyDecl) : Option PropertyInstance → ForallSpec
  | none => prop.forallState
  | some i =>
    { targets := i.forallState.targets.foldl
        (fun targets t => if targets.contains t then targets else targets ++ [t])
        prop.forallState.targets
      allState := prop.forallState.allState || i.forallState.allState }

/-- Replaces the first entry that satisfies `p`, or appends. -/
def overlay {α : Type} (p : α → Bool) (entry : α) : List α → List α
  | [] => [entry]
  | x :: xs => if p x then entry :: xs else x :: overlay p entry xs

/-- `resolve_context`. -/
def resolveContext (prop : PropertyDecl) : Option PropertyInstance → ContextSpec
  | none => prop.context
  | some i =>
    ⟨i.context.entries.foldl
      (fun entries e => overlay (fun x => x.ns == e.ns && x.field == e.field) e entries)
      prop.context.entries⟩

/-- `merged_init`. -/
def mergedInit (prop : PropertyDecl) : Option PropertyInstance → List (String × Expr)
  | none => prop.initState
  | some i =>
    i.initState.foldl (fun out pin => overlay (fun x => x.1 == pin.1) pin out) prop.initState

/-- `ctx_param_type`. -/
def ctxParamType (ns field : String) : Ty :=
  .simple <|
    match ns, field with
    | "msg", "sender" => "address"
    | "sys", "now" | "sys", "timestamp" | "sys", "block_number" | "sys", "blockNumber" => "u64"
    | _, _ => "U256"

/-- The names tried in turn for a parameter whose own name is taken. -/
def freshCandidate (desired : String) : Nat → String
  | 0 => "__init_" ++ desired
  | n + 1 => "__init_" ++ desired ++ "_" ++ toString (n + 1)

/-- `fresh_name`; one of the first `used.length + 1` candidates is free. -/
def freshName (desired : String) (used : List String) : String :=
  if used.contains desired then
    (((List.range (used.length + 1)).map (freshCandidate desired)).find? fun name =>
      !used.contains name).getD desired
  else desired

theorem natRepr_injective : Function.Injective Nat.repr := by
  intro m n h
  have hdigits : Nat.toDigits 10 m = Nat.toDigits 10 n := by
    simpa [Nat.repr] using congrArg String.toList h
  have hm := Nat.ofDigitChars_toDigits (n := m) (show 1 < 10 by decide) (by decide)
  have hn := Nat.ofDigitChars_toDigits (n := n) (show 1 < 10 by decide) (by decide)
  rw [← hm, hdigits, hn]

theorem freshCandidate_zero_ne (desired : String) (n : Nat) :
    freshCandidate desired 0 ≠ freshCandidate desired (n + 1) := by
  intro h
  have hlen := congrArg String.length h
  have hsep : "_".length = 1 := rfl
  simp only [freshCandidate] at hlen
  rw [String.length_append, String.length_append ("__init_" ++ desired ++ "_"),
    String.length_append ("__init_" ++ desired) "_", hsep, String.length_append] at hlen
  omega

theorem freshCandidate_injective (desired : String) :
    Function.Injective (freshCandidate desired) := by
  intro m n h
  rcases m with _ | m <;> rcases n with _ | n
  · rfl
  · exact absurd h (freshCandidate_zero_ne desired n)
  · exact absurd h.symm (freshCandidate_zero_ne desired m)
  · have hrepr : Nat.repr (m + 1) = Nat.repr (n + 1) := by
      simpa [freshCandidate] using h
    exact natRepr_injective hrepr

/-- The name is not among those in play. -/
theorem freshName_not_mem (desired : String) (used : List String) :
    freshName desired used ∉ used := by
  by_cases htaken : desired ∈ used
  · have hfree : ∃ name ∈ (List.range (used.length + 1)).map (freshCandidate desired),
        name ∉ used := by
      by_contra hnone
      have hall : (List.range (used.length + 1)).map (freshCandidate desired) ⊆ used := by
        intro name hname
        by_contra hnot
        exact hnone ⟨name, hname, hnot⟩
      have hnodup : ((List.range (used.length + 1)).map (freshCandidate desired)).Nodup :=
        List.nodup_range.map (freshCandidate_injective desired)
      have hle := (hnodup.subperm hall).length_le
      simp at hle
    obtain ⟨name, hname, hnot⟩ := hfree
    obtain ⟨found, hfound⟩ : ∃ found, ((List.range (used.length + 1)).map
        (freshCandidate desired)).find? (fun name => !used.contains name) = some found := by
      rw [← Option.isSome_iff_exists, List.find?_isSome]
      exact ⟨name, hname, by simpa using hnot⟩
    have hgood := List.find?_some hfound
    rw [freshName, if_pos (by simpa using htaken), hfound]
    simpa using hgood
  · rw [freshName, if_neg (by simpa using htaken)]
    exact htaken

/-- `derived_name`, `inst` coming with its position. -/
def derivedName (prop : PropertyDecl) : Option (Nat × PropertyInstance) → String
  | some (idx, i) =>
    match i.name with
    | some n => prop.name ++ " - " ++ n
    | none => prop.name ++ " #" ++ toString (idx + 1)
  | none => prop.name

/-! ### Bodies -/

/-- `is_assume_or_bound`. -/
def isAssumeOrBound : TestStep → Bool
  | .assume _ | .bound .. => true
  | _ => false

/-- `is_linked_test_harness_pin`. -/
def isLinkedTestHarnessPin : TestStep → Bool
  | .setContext .. | .setRegistry .. | .letS .. => true
  | _ => false

/-- `append_property_body`: what is appended for a fuzz test. -/
def propertyBody (prop : PropertyDecl) : Option PropertyInstance → List TestStep
  | none => prop.body
  | some i =>
    if i.replaceCatalogBody then i.bodyDelta
    else
      i.bodyDelta.filter isAssumeOrBound ++ prop.body ++
        i.bodyDelta.filter fun step => !isAssumeOrBound step

/-- The steps of a test after its pins. -/
def testBody (prop : PropertyDecl) : Option PropertyInstance → List TestStep
  | none => prop.body.filter fun step => !isAssumeOrBound step
  | some i =>
    if i.replaceCatalogBody then i.bodyDelta.filter fun step => !isAssumeOrBound step
    else
      i.bodyDelta.filter isLinkedTestHarnessPin ++
        (prop.body.filter fun step => !isAssumeOrBound step) ++
        i.bodyDelta.filter fun step => !isAssumeOrBound step && !isLinkedTestHarnessPin step

/-- A step per binding of a fuzz instance. -/
def fuzzBinding : String × InstanceArg → TestStep
  | (name, .range lo hi inclusive) => .bound name lo hi inclusive
  | (name, .concrete v) => .assume (.binOp (.ident name) .eq v)

/-- The `let` of a concrete binding of a test instance. -/
def testBinding : String × InstanceArg → Option TestStep
  | (name, .concrete v) => some (.letS name none v)
  | (_, .range ..) => none

/-! ### The two lowerings -/

/-- The state fields that are sampled, with their types. -/
def forallFields (members : List Member) (pinned : List String) (spec : ForallSpec) :
    List (String × Ty) :=
  let all :=
    if spec.allState then
      (members.filter fun m => !pinned.contains m.name).map fun m => (m.name, m.ty)
    else []
  spec.targets.foldl (fun fields t =>
    match t with
    | .stateField f =>
      if pinned.contains f || fields.any fun field => field.1 == f then fields
      else
        let ty := ((members.find? fun m => m.name == f).map (·.ty)).getD (.simple "U256")
        fields ++ [(f, ty)]
    | .context .. => fields) all

/-- The names, parameters, pins and context steps of a fuzz test under construction. -/
structure FuzzDraft where
  used : List String
  params : List Param
  init : List (String × Expr)
  ctxSteps : List TestStep

/-- A sampled state field: a parameter under a fresh name, and the pin to it. -/
def FuzzDraft.sampleField (draft : FuzzDraft) (field : String × Ty) : FuzzDraft :=
  let pname := freshName field.1 draft.used
  { draft with
    used := draft.used ++ [pname]
    params := draft.params ++ [⟨pname, field.2⟩]
    init := draft.init ++ [(field.1, .ident pname)] }

/-- A context entry: its pin, or a parameter under a fresh name and the pin to it. -/
def FuzzDraft.addContext (draft : FuzzDraft) (e : ContextEntry) : FuzzDraft :=
  match e.value with
  | some v => { draft with ctxSteps := draft.ctxSteps ++ [.setContext e.ns [(e.field, v)]] }
  | none =>
    let pname := freshName (e.ns ++ "_" ++ e.field) draft.used
    { draft with
      used := draft.used ++ [pname]
      params := draft.params ++ [⟨pname, ctxParamType e.ns e.field⟩]
      ctxSteps := draft.ctxSteps ++ [.setContext e.ns [(e.field, .ident pname)]] }

/-- `prop_to_fuzz`. -/
def propToFuzz (prop : PropertyDecl) (inst : Option (Nat × PropertyInstance))
    (members : List Member) : FuzzDecl :=
  let i := inst.map (·.2)
  let init := mergedInit prop i
  let pinned := init.map (·.1)
  let names := prop.params.map (·.name)
  let used := pinned.foldl (fun used k => if used.contains k then used else used ++ [k]) names
  let draft : FuzzDraft := ⟨used, prop.params, init, []⟩
  let sampled := (forallFields members pinned (resolveForall prop i)).foldl FuzzDraft.sampleField draft
  let final := (resolveContext prop i).entries.foldl FuzzDraft.addContext sampled
  { name := derivedName prop inst
    entityName := prop.entityName
    params := final.params
    initState := final.init
    skipFrom := (i.map (·.skipFrom)).getD false
    body := final.ctxSteps ++ ((i.map (·.bindings)).getD []).map fuzzBinding ++ propertyBody prop i
    runs := i.bind (·.runs)
    tag := (i.bind (·.tag)).or prop.tag
    instantiates := none }

/-- `prop_to_test`. -/
def propToTest (prop : PropertyDecl) (inst : Option (Nat × PropertyInstance)) : TestDecl :=
  let i := inst.map (·.2)
  let pins := (resolveContext prop i).entries.filterMap fun e =>
    e.value.map fun v => TestStep.setContext e.ns [(e.field, v)]
  { name := derivedName prop inst
    entityName := prop.entityName
    initState := mergedInit prop i
    skipFrom := (i.map (·.skipFrom)).getD false
    body := pins ++ ((i.map (·.bindings)).getD []).filterMap testBinding ++ testBody prop i
    tag := (i.bind (·.tag)).or prop.tag
    instantiates := none }

/-- A declaration derived from a property. -/
inductive Lowered where
  | test (t : TestDecl)
  | fuzz (f : FuzzDecl)

def Lowered.test? : Lowered → Option TestDecl
  | .test t => some t
  | .fuzz _ => none

def Lowered.fuzz? : Lowered → Option FuzzDecl
  | .test _ => none
  | .fuzz f => some f

/-- The declarations derived from one property, in order. -/
def lowerProperty (members : List Member) (prop : PropertyDecl) : List Lowered :=
  if prop.instances.isEmpty then
    let hasCtxForall := prop.context.entries.any fun e => e.value.isNone
    if prop.params.isEmpty && prop.forallState.isEmpty && !hasCtxForall then
      [.test (propToTest prop none)]
    else [.fuzz (propToFuzz prop none members)]
  else
    prop.instances.zipIdx.map fun (inst, idx) =>
      match inst.kind with
      | .test => .test (propToTest prop (some (idx, inst)))
      | .fuzz => .fuzz (propToFuzz prop (some (idx, inst)) members)

/-- `members_by_entity`, looked up; of two entities of one name the later counts. -/
def membersOf (entities : List Contract) (name : String) : List Member :=
  ((entities.reverse.find? fun e => e.name == name).map (·.members)).getD []

/-- The declarations derived from the properties of a program. -/
def lowered (entities : List Contract) (props : List PropertyDecl) : List Lowered :=
  props.flatMap fun prop => lowerProperty (membersOf entities prop.entityName) prop

/-- `desugar_properties`. -/
def desugarProperties (p : Program) : Program :=
  { p with
    tests := p.tests ++ (lowered p.entities p.properties).filterMap Lowered.test?
    fuzzTests := p.fuzzTests ++ (lowered p.entities p.properties).filterMap Lowered.fuzz? }

/-- Every property is lowered to something. -/
theorem lowerProperty_ne_nil (members : List Member) (prop : PropertyDecl) :
    lowerProperty members prop ≠ [] := by
  by_cases hinst : prop.instances = []
  · simp only [lowerProperty, hinst, List.isEmpty_nil, if_true]
    split <;> exact List.cons_ne_nil _ _
  · simp [lowerProperty, hinst]

/-- A derived declaration is a test or a fuzz test. -/
theorem lowered_split (xs : List Lowered) :
    xs.filterMap Lowered.test? = [] ∧ xs.filterMap Lowered.fuzz? = [] ↔ xs = [] := by
  constructor
  · rintro ⟨htests, hfuzz⟩
    cases xs with
    | nil => rfl
    | cons x xs => cases x <;> simp [Lowered.test?, Lowered.fuzz?] at htests hfuzz
  · rintro rfl
    exact ⟨rfl, rfl⟩

theorem lowered_eq_nil {entities : List Contract} {props : List PropertyDecl} :
    lowered entities props = [] ↔ props = [] := by
  constructor
  · intro h
    cases props with
    | nil => rfl
    | cons prop props =>
      have hnil := List.flatMap_eq_nil_iff.mp h prop List.mem_cons_self
      exact absurd hnil (lowerProperty_ne_nil _ prop)
  · rintro rfl
    rfl

end CambrianLang.Authored
