/-
  **Checks that become functions of an entity** (`codegen/predicate_expr.rs`).

  A check that the harness cannot evaluate is moved into the contract of one instance: the
  instance's name is taken off its members and routes, and the rest of the expression stays
  as it is.  It then stands in another scope, where a bare name is a local or a member, and
  where nothing of the handler is known.
-/
import CambrianLang.Invariants.BinderOrder
import CambrianLang.Semantics.Binding

namespace CambrianLang.Invariants

open Ast Semantics Traversal

/-! ### The pass -/

/-- `if let Expr::Ident(n) = e` with `n == name`. -/
def isIdentNamed (name : String) : Expr → Bool
  | .ident n => n == name
  | _ => false

mutual
/-- `strip_instance_qualifier`. -/
def stripInstanceQualifier (inst : String) : Expr → Expr
  | .fieldAccess inner field =>
      if isIdentNamed inst inner then .ident field
      else .fieldAccess (stripInstanceQualifier inst inner) field
  | .methodCall recv method args =>
      if isIdentNamed inst recv then .fnCall method (stripList inst args)
      else .methodCall (stripInstanceQualifier inst recv) method (stripList inst args)
  | .binOp l op r => .binOp (stripInstanceQualifier inst l) op (stripInstanceQualifier inst r)
  | .unaryOp op e => .unaryOp op (stripInstanceQualifier inst e)
  | .index b k => .index (stripInstanceQualifier inst b) (stripInstanceQualifier inst k)
  | .fnCall name args => .fnCall name (stripList inst args)
  | .macroRef name args => .macroRef name (stripList inst args)
  | .ifE c t e =>
      .ifE (stripInstanceQualifier inst c) (stripInstanceQualifier inst t) (stripOption inst e)
  | .letE p v b => .letE p (stripInstanceQualifier inst v) (stripInstanceQualifier inst b)
  | .block items => .block (stripList inst items)
  | .recordConstruct name fields => .recordConstruct name (stripFields inst fields)
  | .recordUpdate b fields => .recordUpdate (stripInstanceQualifier inst b) (stripFields inst fields)
  | .closure params b => .closure params (stripInstanceQualifier inst b)
  | .cast e ty => .cast (stripInstanceQualifier inst e) ty
  | .tuple elems => .tuple (stripList inst elems)
  | .arrayLit elems => .arrayLit (stripList inst elems)
  | .matchE s arms => .matchE (stripInstanceQualifier inst s) (stripArms inst arms)
  | .enumVariantWithData enum variant args => .enumVariantWithData enum variant (stripList inst args)
  | .someE e => .someE (stripInstanceQualifier inst e)
  | .range s e => .range (stripInstanceQualifier inst s) (stripInstanceQualifier inst e)
  | .forE p it b => .forE p (stripInstanceQualifier inst it) (stripInstanceQualifier inst b)
  | .namespacedCall ns name args tys => .namespacedCall ns name (stripList inst args) tys
  | .addressOf entity args ws => .addressOf entity (stripList inst args) (stripFields inst ws)
  | .encode ty value => .encode ty (stripInstanceQualifier inst value)
  | e => e
def stripList (inst : String) : List Expr → List Expr
  | [] => []
  | e :: es => stripInstanceQualifier inst e :: stripList inst es
def stripOption (inst : String) : Option Expr → Option Expr
  | some e => some (stripInstanceQualifier inst e)
  | none => none
def stripFields (inst : String) : List (String × Expr) → List (String × Expr)
  | [] => []
  | (name, e) :: fields => (name, stripInstanceQualifier inst e) :: stripFields inst fields
def stripArms (inst : String) : List (MatchPattern × Expr) → List (MatchPattern × Expr)
  | [] => []
  | (p, e) :: arms => (p, stripInstanceQualifier inst e) :: stripArms inst arms
end

/-- `collect_instance_refs`: the names that qualify a member or a route. -/
def qualifierWalker : Walker Expr String where
  own
    | .fieldAccess (.ident n) _ => [n]
    | .methodCall (.ident n) _ _ => [n]
    | _ => []
  visited := Expr.children
  rank := Expr.rank
  rank_lt := rank_child_lt

/-- The instances among them, each once and in order. -/
def collectInstanceRefs (check : Expr) (instNames : List String) : List String :=
  instNames.dedup.filter fun n => (qualifierWalker.walk check).contains n

mutual
/-- `is_simple_multi_inline`. -/
def isSimpleMultiInline : Expr → Bool
  | .fieldAccess inner _ => isSimpleMultiInline inner
  | .index base key => isSimpleMultiInline base && isSimpleMultiInline key
  | .binOp l _ r => isSimpleMultiInline l && isSimpleMultiInline r
  | .unaryOp _ inner => isSimpleMultiInline inner
  | .tuple xs | .arrayLit xs | .fnCall _ xs => areSimpleMultiInline xs
  | .methodCall recv _ args => isSimpleMultiInline recv && areSimpleMultiInline args
  | .ident _ | .intLiteral _ | .boolLiteral _ | .stringLiteral _ => true
  | .traceField field => field == "length"
  | .traceCall name _ => name == "count" || name == "lastWas"
  | _ => false
def areSimpleMultiInline : List Expr → Bool
  | [] => true
  | e :: es => isSimpleMultiInline e && areSimpleMultiInline es
end

/-- `expr_uses_trace`. -/
def traceWalker : Walker Expr Unit where
  own
    | .traceField _ | .traceCall _ _ => [()]
    | _ => []
  visited := Expr.children
  rank := Expr.rank
  rank_lt := rank_child_lt

def exprUsesTrace (e : Expr) : Bool := !(traceWalker.walk e).isEmpty

/-- `CheckKind`, a helper with the expression that it is lowered from. -/
inductive CheckKind where
  | inline
  | helper (entity : Entity) (inst : Option String) (source : Expr)
  | unsupported

/-- The lowering of expressions to Solidity, as far as the classification sees it: whether
    `gen_expr` has a result, whether that of `gen_expr_hoisted` is real, and whether a `HashMap`
    member is passed on with its keys (`check_expr_needs_entity_keys_helper`). -/
structure Lowering where
  genExpr : Entity → Expr → Bool
  hoistIsReal : Entity → Expr → Bool
  needsKeysHelper : Entity → Expr → Bool

/-- `classify_on_entity`. -/
def classifyOnEntity (L : Lowering) (entity : Entity) (inst : Option String) (e : Expr)
    (preferInlineIfGenExpr : Bool) : CheckKind :=
  let usesTrace := exprUsesTrace e
  if L.genExpr entity e then
    if (preferInlineIfGenExpr || usesTrace) && !L.needsKeysHelper entity e then .inline
    else .helper entity inst e
  else if usesTrace then .unsupported
  else if L.hoistIsReal entity e then .helper entity inst e
  else .unsupported

/-- `classify_check_plan`. -/
def classifyCheckPlan (L : Lowering) (entities : List Entity) (inv : Authored.InvariantDecl)
    (checkIdx : Nat) : CheckKind :=
  match inv.checks[checkIdx]? with
  | none => .unsupported
  | some check =>
      if inv.isSingleEntity then
        match entities.find? fun e => some e.name == inv.entityName with
        | none => .unsupported
        | some entity => classifyOnEntity L entity none check true
      else
        match collectInstanceRefs check (inv.instances.map (·.name)) with
        | _ :: _ :: _ => if isSimpleMultiInline check then .inline else .unsupported
        | [inst] =>
            match inv.instances.find? (·.name == inst) with
            | none => .unsupported
            | some decl =>
                match entities.find? (·.name == decl.entity) with
                | none => .unsupported
                | some entity =>
                    if isSimpleMultiInline check then .inline
                    else classifyOnEntity L entity (some inst) (stripInstanceQualifier inst check) false
        | [] =>
            match inv.instances.head? with
            | none => .unsupported
            | some decl =>
                match entities.find? (·.name == decl.entity) with
                | none => .unsupported
                | some entity =>
                    if isSimpleMultiInline check then .inline
                    else classifyOnEntity L entity (some decl.name) check false

/-! ### Two scopes -/

/-- What a part of a check reads. -/
inductive Reading where
  | member (inst name : String)
  | route (inst name : String)
  | handle (name : String)
  | state (name : String)
  | query (name : String)
  | trace (accessor route : String)
  | outside (name : String)
deriving DecidableEq

/-- Operators and locals, and what is read in the state of the instances and of the handler. -/
structure World (V R : Type) extends Computes V R where
  read : Reading → List R → R

/-- What a subexpression reads where some names are bound, if it reads something. -/
abbrev Resolver := List String → Expr → Option Reading

/-- The arguments of a call. -/
def operands : Expr → List Expr
  | .fnCall _ args => args
  | .methodCall _ _ args => args
  | _ => []

theorem slot_of_operand {e c : Expr} (hc : c ∈ operands e) : inOperand c ∈ e.slots := by
  cases e with
  | fnCall _ args => exact List.mem_map_of_mem hc
  | methodCall _ _ args => exact List.mem_cons_of_mem _ (List.mem_map_of_mem hc)
  | _ => cases hc

/-- What a check computes when its names are resolved in a scope. -/
def World.evalIn {V R : Type} (W : World V R) (resolve : Resolver) (bound : List String) (e : Expr)
    (ρ : String → V) : R :=
  match resolve bound e with
  | some r => W.read r ((operands e).attach.map fun c => W.evalIn resolve bound c.1 ρ)
  | none =>
      match e with
      | .ident x => W.value (ρ x)
      | e => W.node (skeleton e) (e.slots.attach.map fun s vs =>
          W.evalIn resolve (bound ++ s.1.1.names) s.1.2 (bindNames s.1.1.names vs ρ))
termination_by e.rank
decreasing_by
  · exact rank_slot_lt (slot_of_operand c.2)
  · exact rank_slot_lt s.2

/-- The names of an invariant's scope and of the contract a helper is put into. -/
structure Scopes where
  /-- the instances that can qualify a member; none in the form for a single entity -/
  instances : List String
  /-- whether members and routes are written without an instance -/
  single : Bool
  /-- the instance whose contract gets the helper -/
  owner : String
  members : List String
  routes : List String
  track : List String
  derived : List String

variable (S : Scopes)

/-- The scope the check is written in. -/
def inInvariant : Resolver := fun bound e =>
  match e with
  | .ident x =>
      if x ∈ bound then none
      else if x ∈ S.track then some (.state x)
      else if x ∈ S.instances then some (.handle x)
      else if S.single = true ∧ x ∈ S.members then some (.member S.owner x)
      else some (.outside x)
  | .fieldAccess (.ident n) field =>
      if n ∉ bound ∧ n ∈ S.instances then some (.member n field) else none
  | .methodCall (.ident n) method _ =>
      if n ∉ bound ∧ n ∈ S.instances then some (.route n method) else none
  | .fnCall f _ =>
      if f ∈ S.derived then some (.query f)
      else if S.single = true ∧ f ∈ S.routes then some (.route S.owner f)
      else none
  | .traceField field => some (.trace field "")
  | .traceCall name route => some (.trace name route)
  | _ => none

/-- The scope of the contract: locals hide members and functions, and a handler is not known. -/
def inContract : Resolver := fun bound e =>
  match e with
  | .ident x =>
      if x ∈ bound then none
      else if x ∈ S.members then some (.member S.owner x)
      else some (.outside x)
  | .fnCall f _ => if f ∉ bound ∧ f ∈ S.routes then some (.route S.owner f) else none
  | _ => none

/-- The helper's expression, of which the name of an instance has been taken off or not. -/
def unqualify (inst : Option String) (check : Expr) : Expr :=
  match inst with
  | some i => stripInstanceQualifier i check
  | none => check

/-- A member or a route that the pass takes the instance off. -/
def qualifiedBy (inst : Option String) : Expr → Bool
  | .fieldAccess b _ | .methodCall b _ _ => inst.any (isIdentNamed · b)
  | _ => false

/-- The parts of an expression that the pass goes into. -/
def walkedParts (inst : Option String) (e : Expr) : List (Slot × Expr) :=
  if qualifiedBy inst e then (operands e).map inOperand else e.slots

/-- The pass comes to `d`, where the names `bs` are bound. -/
inductive Visits (inst : Option String) : List String → Expr → List String → Expr → Prop
  | here (bound : List String) (e : Expr) : Visits inst bound e bound e
  | down {bound bs : List String} {e d : Expr} {s : Slot × Expr} (hs : s ∈ walkedParts inst e)
      (h : Visits inst (bound ++ s.1.names) s.2 bs d) : Visits inst bound e bs d

/-- A subexpression means the same in the contract. -/
def Carries (inst : Option String) (bound : List String) : Expr → Prop
  | .ident x =>
      x ∈ bound ∨ (x ∉ S.track ∧ x ∉ S.instances ∧ (S.single = true ∨ x ∉ S.members))
  | .fieldAccess b field =>
      if inst.any (isIdentNamed · b) then S.owner ∉ bound ∧ field ∉ bound ∧ field ∈ S.members
      else ∀ n, b = .ident n → n ∈ S.instances → n ∈ bound
  | .methodCall b method _ =>
      if inst.any (isIdentNamed · b) then S.owner ∉ bound ∧ method ∉ bound ∧ method ∈ S.routes
      else ∀ n, b = .ident n → n ∈ S.instances → n ∈ bound
  | .fnCall f _ => f ∉ S.derived ∧ (f ∈ S.routes → (S.single = true ↔ f ∉ bound))
  | .traceField _ | .traceCall _ _ => False
  | _ => True

/-- **The check can be moved**: every part the pass comes to means the same in the contract. -/
def Portable (inst : Option String) (bound : List String) (check : Expr) : Prop :=
  ∀ bs d, Visits inst bound check bs d → Carries S inst bs d

/-- The helper returns what the check says, in every state of the instances and the handler. -/
def MeansCheck (bound : List String) (source check : Expr) : Prop :=
  ∀ (V R : Type) (W : World V R) (ρ : String → V),
    W.evalIn (inContract S) bound source ρ = W.evalIn (inInvariant S) bound check ρ

/-! ### The pass, node by node -/

theorem stripList_eq (inst : String) (es : List Expr) :
    stripList inst es = es.map (stripInstanceQualifier inst) := by
  induction es with
  | nil => rfl
  | cons e es ih => rw [stripList, ih, List.map_cons]

theorem stripOption_eq (inst : String) (e : Option Expr) :
    stripOption inst e = e.map (stripInstanceQualifier inst) := by
  cases e <;> rfl

theorem stripFields_eq (inst : String) (fields : List (String × Expr)) :
    stripFields inst fields = fields.map fun f => (f.1, stripInstanceQualifier inst f.2) := by
  induction fields with
  | nil => rfl
  | cons f fields ih => rw [stripFields, ih, List.map_cons]

theorem stripArms_eq (inst : String) (arms : List (MatchPattern × Expr)) :
    stripArms inst arms = arms.map fun a => (a.1, stripInstanceQualifier inst a.2) := by
  induction arms with
  | nil => rfl
  | cons a arms ih => rw [stripArms, ih, List.map_cons]

variable {S : Scopes} {inst : Option String} {bound : List String} {e : Expr}

/-- Elsewhere the pass only goes into the subexpressions. -/
theorem unqualify_node (h : qualifiedBy inst e = false) :
    unqualify inst e = mapSlots (fun _ => unqualify inst) e := by
  cases inst with
  | none => exact (mapSlots_id e).symm
  | some i =>
    change stripInstanceQualifier i e = mapSlots (fun _ => stripInstanceQualifier i) e
    cases e with
    | fieldAccess b field =>
      have hb : isIdentNamed i b = false := h
      rw [stripInstanceQualifier, hb]
      rfl
    | methodCall b method args =>
      have hb : isIdentNamed i b = false := h
      rw [stripInstanceQualifier, hb, stripList_eq]
      rfl
    | _ =>
      simp only [stripInstanceQualifier, mapSlots, stripList_eq, stripOption_eq, stripFields_eq,
        stripArms_eq]

theorem isIdentNamed_iff {name : String} {e : Expr} : isIdentNamed name e = true ↔ e = .ident name := by
  cases e with
  | ident n =>
    rw [isIdentNamed, beq_iff_eq, Expr.ident.injEq]
  | _ => exact ⟨nofun, nofun⟩

/-- What the pass takes an instance off. -/
theorem qualifiedBy_iff : qualifiedBy inst e = true ↔
    ∃ i, inst = some i ∧ ((∃ field, e = .fieldAccess (.ident i) field) ∨
      ∃ method args, e = .methodCall (.ident i) method args) := by
  cases e with
  | fieldAccess b field =>
    rw [qualifiedBy, Option.any_eq_true]
    constructor
    · rintro ⟨i, hi, hb⟩
      exact ⟨i, hi, Or.inl ⟨field, by rw [isIdentNamed_iff.mp hb]⟩⟩
    · rintro ⟨i, hi, ⟨field', heq⟩ | ⟨_, _, heq⟩⟩
      · cases heq
        exact ⟨i, hi, isIdentNamed_iff.mpr rfl⟩
      · cases heq
  | methodCall b method args =>
    rw [qualifiedBy, Option.any_eq_true]
    constructor
    · rintro ⟨i, hi, hb⟩
      exact ⟨i, hi, Or.inr ⟨method, args, by rw [isIdentNamed_iff.mp hb]⟩⟩
    · rintro ⟨i, hi, ⟨_, heq⟩ | ⟨_, _, heq⟩⟩
      · cases heq
      · cases heq
        exact ⟨i, hi, isIdentNamed_iff.mpr rfl⟩
  | _ =>
    refine ⟨nofun, ?_⟩
    rintro ⟨_, _, ⟨_, heq⟩ | ⟨_, _, heq⟩⟩
    · cases heq
    · cases heq

/-! ### Evaluation, node by node -/

section Evaluation

variable {V R : Type} {W : World V R} {resolve : Resolver}

theorem evalIn_reading {r : Reading} (h : resolve bound e = some r) (ρ : String → V) :
    W.evalIn resolve bound e ρ = W.read r ((operands e).map fun c => W.evalIn resolve bound c ρ) := by
  have hattach := @List.attach_map_val _ _ (operands e) fun c => W.evalIn resolve bound c ρ
  rcases eq_ident_or e with ⟨x, rfl⟩ | hne
  · rw [World.evalIn, h]
    rfl
  · rw [← hattach, World.evalIn, h]
    exact hne

theorem evalIn_local {x : String} (h : resolve bound (.ident x) = none) (ρ : String → V) :
    W.evalIn resolve bound (.ident x) ρ = W.value (ρ x) := by
  rw [World.evalIn, h]

theorem evalIn_node (h : resolve bound e = none) (hne : ∀ x, e ≠ .ident x) (ρ : String → V) :
    W.evalIn resolve bound e ρ = W.node (skeleton e) (e.slots.map fun s vs =>
      W.evalIn resolve (bound ++ s.1.names) s.2 (bindNames s.1.names vs ρ)) := by
  have hattach := @List.attach_map_val _ _ e.slots fun s (vs : Nat → V) =>
    W.evalIn resolve (bound ++ s.1.names) s.2 (bindNames s.1.names vs ρ)
  rw [← hattach, World.evalIn, h]
  exact hne

end Evaluation

/-! ### Where the two scopes agree -/

theorem carries_ident_iff {x : String} : Carries S inst bound (.ident x) ↔
    inContract S bound (.ident x) = inInvariant S bound (.ident x) := by
  simp only [Carries, inContract, inInvariant]
  by_cases hb : x ∈ bound
  · simp [hb]
  · by_cases ht : x ∈ S.track <;> by_cases hi : x ∈ S.instances <;> by_cases hm : x ∈ S.members <;>
      cases S.single <;> simp [*]

theorem carries_fnCall_iff {f : String} {args args' : List Expr} :
    Carries S inst bound (.fnCall f args) ↔
      inContract S bound (.fnCall f args') = inInvariant S bound (.fnCall f args) := by
  simp only [Carries, inContract, inInvariant]
  by_cases hd : f ∈ S.derived <;> by_cases hr : f ∈ S.routes <;> by_cases hb : f ∈ bound <;>
    cases S.single <;> simp [*]

/-- What is read through a name that a binder hides is no member. -/
theorem hidden_iff {n : String} {r : Reading} :
    (∀ x, Expr.ident n = .ident x → x ∈ S.instances → x ∈ bound) ↔
      none = if n ∉ bound ∧ n ∈ S.instances then some r else none := by
  rw [eq_comm, ite_eq_right_iff]
  constructor
  · intro h hn
    exact absurd (h n rfl hn.2) hn.1
  · intro h x hx hmem
    cases hx
    by_contra hb
    cases h ⟨hb, hmem⟩

/-- Where the pass takes nothing off, the scopes are to agree on the part itself. -/
theorem carries_iff (h : qualifiedBy inst e = false) : Carries S inst bound e ↔
    inContract S bound (unqualify inst e) = inInvariant S bound e := by
  rw [unqualify_node h]
  cases e with
  | ident x => exact carries_ident_iff
  | fnCall f args => exact carries_fnCall_iff
  | fieldAccess b field =>
    have hb : inst.any (isIdentNamed · b) = false := h
    rw [Carries, hb, if_neg Bool.false_ne_true]
    cases b with
    | ident n => exact hidden_iff
    | _ => exact ⟨fun _ => rfl, fun _ _ heq => nomatch heq⟩
  | methodCall b method args =>
    have hb : inst.any (isIdentNamed · b) = false := h
    rw [Carries, hb, if_neg Bool.false_ne_true]
    cases b with
    | ident n => exact hidden_iff
    | _ => exact ⟨fun _ => rfl, fun _ _ heq => nomatch heq⟩
  | traceField field => exact ⟨False.elim, fun heq => nomatch heq⟩
  | traceCall name route => exact ⟨False.elim, fun heq => nomatch heq⟩
  | _ => exact ⟨fun _ => rfl, fun _ => trivial⟩

/-- Where something is read that is not qualified, its arguments are all its subexpressions. -/
theorem slots_of_reading {r : Reading} (h : qualifiedBy inst e = false)
    (hr : inContract S bound (unqualify inst e) = some r) : e.slots = (operands e).map inOperand := by
  rw [unqualify_node h] at hr
  cases e with
  | ident _ => rfl
  | fnCall _ _ => rfl
  | _ => cases hr

section Evaluation

variable {V R : Type} {W : World V R}

/-- What the moved expression reads, its arguments moved as well. -/
theorem evalIn_moved_reading {r : Reading} (hq : qualifiedBy inst e = false)
    (h : inContract S bound (unqualify inst e) = some r) (ρ : String → V) :
    W.evalIn (inContract S) bound (unqualify inst e) ρ =
      W.read r ((operands e).map fun c => W.evalIn (inContract S) bound (unqualify inst c) ρ) := by
  have hoperands : operands (unqualify inst e) = (operands e).map (unqualify inst) := by
    rw [unqualify_node hq] at h ⊢
    cases e with
    | ident _ => rfl
    | fnCall _ _ => rfl
    | _ => cases h
  rw [evalIn_reading h, hoperands, List.map_map]
  rfl

theorem evalIn_moved_local {x : String} (h : inContract S bound (unqualify inst (.ident x)) = none)
    (ρ : String → V) : W.evalIn (inContract S) bound (unqualify inst (.ident x)) ρ = W.value (ρ x) := by
  rw [unqualify_node rfl] at h ⊢
  exact evalIn_local h ρ

theorem evalIn_moved_node (hq : qualifiedBy inst e = false)
    (h : inContract S bound (unqualify inst e) = none) (hne : ∀ x, e ≠ .ident x) (ρ : String → V) :
    W.evalIn (inContract S) bound (unqualify inst e) ρ = W.node (skeleton e) (e.slots.map fun s vs =>
      W.evalIn (inContract S) (bound ++ s.1.names) (unqualify inst s.2) (bindNames s.1.names vs ρ)) := by
  have hne' : ∀ x, unqualify inst e ≠ .ident x := by
    rw [unqualify_node hq]
    exact mapSlots_ne_ident hne _
  rw [evalIn_node h hne', unqualify_node hq, skeleton_mapSlots, slots_mapSlots, List.map_map]
  rfl

/-- The instance that the name is taken off is that of the helper. -/
def OwnInstance (S : Scopes) (inst : Option String) : Prop :=
  ∀ i, inst = some i → i ∈ S.instances ∧ S.owner = i

/-- A member of the instance in the two scopes. -/
theorem carries_field_iff {i field : String} :
    Carries S (some i) bound (.fieldAccess (.ident i) field) ↔
      S.owner ∉ bound ∧ field ∉ bound ∧ field ∈ S.members := by
  have hany : (some i).any (isIdentNamed · (.ident i)) = true := isIdentNamed_iff.mpr rfl
  rw [Carries, hany, if_pos rfl]

theorem carries_method_iff {i method : String} {args : List Expr} :
    Carries S (some i) bound (.methodCall (.ident i) method args) ↔
      S.owner ∉ bound ∧ method ∉ bound ∧ method ∈ S.routes := by
  have hany : (some i).any (isIdentNamed · (.ident i)) = true := isIdentNamed_iff.mpr rfl
  rw [Carries, hany, if_pos rfl]

theorem unqualify_field {i field : String} :
    unqualify (some i) (.fieldAccess (.ident i) field) = .ident field := by
  have hb : isIdentNamed i (.ident i) = true := isIdentNamed_iff.mpr rfl
  rw [unqualify, stripInstanceQualifier, hb, if_pos rfl]

theorem unqualify_method {i method : String} {args : List Expr} :
    unqualify (some i) (.methodCall (.ident i) method args) =
      .fnCall method (args.map (unqualify (some i))) := by
  have hb : isIdentNamed i (.ident i) = true := isIdentNamed_iff.mpr rfl
  rw [unqualify, stripInstanceQualifier, hb, if_pos rfl, stripList_eq]
  rfl

/-- **One step.** A part that carries over has its value in the contract when the parts that
    the pass goes into have theirs. -/
theorem evalIn_unqualify (hown : OwnInstance S inst) (h : Carries S inst bound e)
    (hparts : ∀ s ∈ walkedParts inst e, ∀ ρ,
      W.evalIn (inContract S) (bound ++ s.1.names) (unqualify inst s.2) ρ =
        W.evalIn (inInvariant S) (bound ++ s.1.names) s.2 ρ) (ρ : String → V) :
    W.evalIn (inContract S) bound (unqualify inst e) ρ = W.evalIn (inInvariant S) bound e ρ := by
  have hoperand : ∀ c, inOperand c ∈ walkedParts inst e →
      W.evalIn (inContract S) bound (unqualify inst c) ρ = W.evalIn (inInvariant S) bound c ρ := by
    intro c hc
    have hpart := hparts (inOperand c) hc ρ
    rwa [show (inOperand c).1.names = [] from rfl, List.append_nil] at hpart
  cases hq : qualifiedBy inst e with
  | false =>
    have hagree := (carries_iff hq).mp h
    have hwalked : walkedParts inst e = e.slots := by rw [walkedParts, hq, if_neg Bool.false_ne_true]
    rw [hwalked] at hparts hoperand
    cases hr : inInvariant S bound e with
    | some r =>
      rw [hr] at hagree
      have hslots := slots_of_reading hq hagree
      rw [evalIn_moved_reading hq hagree, evalIn_reading hr]
      congr 1
      exact List.map_congr_left fun c hc => hoperand c (hslots ▸ List.mem_map_of_mem hc)
    | none =>
      rw [hr] at hagree
      rcases eq_ident_or e with ⟨x, rfl⟩ | hne
      · rw [evalIn_moved_local hagree, evalIn_local hr]
      · rw [evalIn_moved_node hq hagree hne, evalIn_node hr hne]
        congr 1
        refine List.map_congr_left fun s hs => ?_
        funext vs
        exact hparts s hs _
  | true =>
    obtain ⟨i, rfl, ⟨field, rfl⟩ | ⟨method, args, rfl⟩⟩ := qualifiedBy_iff.mp hq
    · obtain ⟨hi, rfl⟩ := hown i rfl
      obtain ⟨howner, hfield, hmember⟩ := carries_field_iff.mp h
      have hcontract : inContract S bound (.ident field) = some (.member S.owner field) := by
        rw [inContract, if_neg hfield, if_pos hmember]
      have hinvariant : inInvariant S bound (.fieldAccess (.ident S.owner) field) =
          some (.member S.owner field) := by
        rw [inInvariant, if_pos ⟨howner, hi⟩]
      rw [unqualify_field, evalIn_reading hcontract, evalIn_reading hinvariant]
      rfl
    · obtain ⟨hi, rfl⟩ := hown i rfl
      obtain ⟨howner, hmethod, hroute⟩ := carries_method_iff.mp h
      have hcontract : inContract S bound (.fnCall method (args.map (unqualify (some S.owner)))) =
          some (.route S.owner method) := by
        rw [inContract, if_pos ⟨hmethod, hroute⟩]
      have hinvariant : inInvariant S bound (.methodCall (.ident S.owner) method args) =
          some (.route S.owner method) := by
        rw [inInvariant, if_pos ⟨howner, hi⟩]
      have hwalked : walkedParts (some S.owner) (.methodCall (.ident S.owner) method args) =
          args.map inOperand := by
        rw [walkedParts, hq, if_pos rfl]
        rfl
      rw [unqualify_method, evalIn_reading hcontract, evalIn_reading hinvariant, operands, List.map_map]
      congr 1
      exact List.map_congr_left fun c hc => hoperand c (hwalked ▸ List.mem_map_of_mem hc)

end Evaluation

/-! ### What a check looks up -/

/-- The trace of an evaluation. -/
inductive Log where
  | name
  | reading (r : Reading) (operands : List Log)
  | node (sk : Expr) (parts : List Log)

/-- The world in which a check computes its own trace. -/
def logWorld : World Unit Log where
  value _ := .name
  node sk parts := .node sk (parts.map fun part => part fun _ => ())
  read := .reading

def logOf (resolve : Resolver) (bound : List String) (e : Expr) : Log :=
  logWorld.evalIn resolve bound e fun _ => ()

theorem logOf_reading {resolve : Resolver} {r : Reading} (h : resolve bound e = some r) :
    logOf resolve bound e = .reading r ((operands e).map (logOf resolve bound)) :=
  evalIn_reading h _

theorem logOf_local {resolve : Resolver} {x : String} (h : resolve bound (.ident x) = none) :
    logOf resolve bound (.ident x) = .name :=
  evalIn_local h _

theorem logOf_node {resolve : Resolver} (h : resolve bound e = none) (hne : ∀ x, e ≠ .ident x) :
    logOf resolve bound e =
      .node (skeleton e) (e.slots.map fun s => logOf resolve (bound ++ s.1.names) s.2) := by
  rw [logOf, evalIn_node h hne]
  change Log.node _ _ = _
  rw [List.map_map]
  rfl

theorem logOf_moved_reading {r : Reading} (hq : qualifiedBy inst e = false)
    (h : inContract S bound (unqualify inst e) = some r) :
    logOf (inContract S) bound (unqualify inst e) =
      .reading r ((operands e).map fun c => logOf (inContract S) bound (unqualify inst c)) :=
  evalIn_moved_reading hq h _

theorem logOf_moved_local {x : String} (h : inContract S bound (unqualify inst (.ident x)) = none) :
    logOf (inContract S) bound (unqualify inst (.ident x)) = .name :=
  evalIn_moved_local h _

theorem logOf_moved_node (hq : qualifiedBy inst e = false)
    (h : inContract S bound (unqualify inst e) = none) (hne : ∀ x, e ≠ .ident x) :
    logOf (inContract S) bound (unqualify inst e) = .node (skeleton e)
      (e.slots.map fun s => logOf (inContract S) (bound ++ s.1.names) (unqualify inst s.2)) := by
  rw [logOf, evalIn_moved_node hq h hne]
  change Log.node _ _ = _
  rw [List.map_map]
  rfl

/-- The moved expression looks up what the check looks up. -/
def SameLog (S : Scopes) (inst : Option String) (bound : List String) (e : Expr) : Prop :=
  logOf (inContract S) bound (unqualify inst e) = logOf (inInvariant S) bound e

theorem sameLog_operands {args : List Expr}
    (h : args.map (fun c => logOf (inContract S) bound (unqualify inst c)) =
      args.map (logOf (inInvariant S) bound)) :
    ∀ s ∈ args.map inOperand, SameLog S inst (bound ++ s.1.names) s.2 := by
  intro s hs
  obtain ⟨c, hc, rfl⟩ := List.mem_map.mp hs
  rw [SameLog, show (inOperand c).1.names = [] from rfl, List.append_nil]
  exact List.map_inj_left.mp h c hc

theorem member_of_inContract {x : String} (h : inContract S bound (.ident x) = some (.member S.owner x)) :
    x ∉ bound ∧ x ∈ S.members := by
  rw [inContract] at h
  by_cases hb : x ∈ bound
  · rw [if_pos hb] at h
    cases h
  · by_cases hm : x ∈ S.members
    · exact ⟨hb, hm⟩
    · rw [if_neg hb, if_neg hm] at h
      cases h

theorem route_of_inContract {f : String} {args : List Expr} {r : Reading}
    (h : inContract S bound (.fnCall f args) = some r) : f ∉ bound ∧ f ∈ S.routes := by
  rw [inContract] at h
  by_cases hr : f ∉ bound ∧ f ∈ S.routes
  · exact hr
  · rw [if_neg hr] at h
    cases h

/-- A member of the helper's instance is one of the contract, and nothing hides it. -/
theorem sameLog_field {field : String} (hi : S.owner ∈ S.instances)
    (h : SameLog S (some S.owner) bound (.fieldAccess (.ident S.owner) field)) :
    S.owner ∉ bound ∧ field ∉ bound ∧ field ∈ S.members := by
  rw [SameLog, unqualify_field] at h
  have howner : S.owner ∉ bound := by
    intro hmem
    have hr : inInvariant S bound (.fieldAccess (.ident S.owner) field) = none := by
      rw [inInvariant, if_neg fun hfree => hfree.1 hmem]
    rw [logOf_node hr nofun] at h
    cases hc : inContract S bound (.ident field) with
    | some r =>
      rw [logOf_reading hc] at h
      cases h
    | none =>
      rw [logOf_local hc] at h
      cases h
  have hr : inInvariant S bound (.fieldAccess (.ident S.owner) field) =
      some (.member S.owner field) := by
    rw [inInvariant, if_pos ⟨howner, hi⟩]
  rw [logOf_reading hr] at h
  cases hc : inContract S bound (.ident field) with
  | some r =>
    rw [logOf_reading hc] at h
    obtain ⟨rfl, -⟩ := Log.reading.inj h
    exact ⟨howner, member_of_inContract hc⟩
  | none =>
    rw [logOf_local hc] at h
    cases h

/-- And a route of it is one of the contract, with the same arguments. -/
theorem sameLog_method {method : String} {args : List Expr} (hi : S.owner ∈ S.instances)
    (h : SameLog S (some S.owner) bound (.methodCall (.ident S.owner) method args)) :
    (S.owner ∉ bound ∧ method ∉ bound ∧ method ∈ S.routes) ∧
      args.map (fun c => logOf (inContract S) bound (unqualify (some S.owner) c)) =
        args.map (logOf (inInvariant S) bound) := by
  rw [SameLog, unqualify_method] at h
  have howner : S.owner ∉ bound := by
    intro hmem
    have hr : inInvariant S bound (.methodCall (.ident S.owner) method args) = none := by
      rw [inInvariant, if_neg fun hfree => hfree.1 hmem]
    rw [logOf_node hr nofun] at h
    cases hc : inContract S bound (.fnCall method (args.map (unqualify (some S.owner)))) with
    | some r =>
      rw [logOf_reading hc] at h
      cases h
    | none =>
      rw [logOf_node hc nofun] at h
      cases (Log.node.inj h).1
  have hr : inInvariant S bound (.methodCall (.ident S.owner) method args) =
      some (.route S.owner method) := by
    rw [inInvariant, if_pos ⟨howner, hi⟩]
  rw [logOf_reading hr] at h
  cases hc : inContract S bound (.fnCall method (args.map (unqualify (some S.owner)))) with
  | some r =>
    rw [logOf_reading hc, operands, List.map_map] at h
    exact ⟨⟨howner, route_of_inContract hc⟩, (Log.reading.inj h).2⟩
  | none =>
    rw [logOf_node hc nofun] at h
    cases h

/-- **One step.** Where the traces are equal the part carries over, and the traces of the parts
    that the pass goes into are equal. -/
theorem SameLog.step (hown : OwnInstance S inst) (h : SameLog S inst bound e) :
    Carries S inst bound e ∧ ∀ s ∈ walkedParts inst e, SameLog S inst (bound ++ s.1.names) s.2 := by
  rw [SameLog] at h
  cases hq : qualifiedBy inst e with
  | false =>
    rw [carries_iff hq, walkedParts, hq, if_neg Bool.false_ne_true]
    cases hc : inContract S bound (unqualify inst e) with
    | some r =>
      rw [logOf_moved_reading hq hc] at h
      cases hr : inInvariant S bound e with
      | some r' =>
        rw [logOf_reading hr] at h
        obtain ⟨rfl, hoperands⟩ := Log.reading.inj h
        rw [slots_of_reading hq hc]
        exact ⟨rfl, sameLog_operands hoperands⟩
      | none =>
        rcases eq_ident_or e with ⟨x, rfl⟩ | hne
        · rw [logOf_local hr] at h
          cases h
        · rw [logOf_node hr hne] at h
          cases h
    | none =>
      rcases eq_ident_or e with ⟨x, rfl⟩ | hne
      · rw [logOf_moved_local hc] at h
        cases hr : inInvariant S bound (.ident x) with
        | some r' =>
          rw [logOf_reading hr] at h
          cases h
        | none => exact ⟨rfl, nofun⟩
      · rw [logOf_moved_node hq hc hne] at h
        cases hr : inInvariant S bound e with
        | some r' =>
          rw [logOf_reading hr] at h
          cases h
        | none =>
          rw [logOf_node hr hne] at h
          exact ⟨rfl, List.map_inj_left.mp (Log.node.inj h).2⟩
  | true =>
    obtain ⟨i, rfl, ⟨field, rfl⟩ | ⟨method, args, rfl⟩⟩ := qualifiedBy_iff.mp hq
    · obtain ⟨hi, rfl⟩ := hown i rfl
      rw [carries_field_iff, walkedParts, hq, if_pos rfl]
      exact ⟨sameLog_field hi h, nofun⟩
    · obtain ⟨hi, rfl⟩ := hown i rfl
      rw [carries_method_iff, walkedParts, hq, if_pos rfl]
      obtain ⟨hcarries, hargs⟩ := sameLog_method hi h
      exact ⟨hcarries, sameLog_operands hargs⟩

/-! ### Whole checks -/

theorem mem_slots_of_walked {s : Slot × Expr} (hs : s ∈ walkedParts inst e) : s ∈ e.slots := by
  rw [walkedParts] at hs
  split at hs
  · obtain ⟨c, hc, rfl⟩ := List.mem_map.mp hs
    exact slot_of_operand hc
  · exact hs

theorem portable_iff : Portable S inst bound e ↔ Carries S inst bound e ∧
    ∀ s ∈ walkedParts inst e, Portable S inst (bound ++ s.1.names) s.2 := by
  constructor
  · intro h
    exact ⟨h _ _ (.here bound e), fun s hs bs d hvisit => h bs d (.down hs hvisit)⟩
  · rintro ⟨hhere, hparts⟩ bs d hvisit
    cases hvisit with
    | here => exact hhere
    | down hs hvisit => exact hparts _ hs _ _ hvisit

/-- **A check moves exactly when every part of it does.** -/
theorem meansCheck_unqualify_iff (hown : OwnInstance S inst) :
    MeansCheck S bound (unqualify inst e) e ↔ Portable S inst bound e := by
  constructor
  · intro h bs d hvisit
    have hsame : SameLog S inst bound e := h Unit Log logWorld fun _ => ()
    clear h
    induction hvisit with
    | here bound e => exact (hsame.step hown).1
    | down hs _ ih => exact ih ((hsame.step hown).2 _ hs)
  · intro h V R W ρ
    induction e using slot_induction generalizing bound ρ with
    | hstep e ih =>
      obtain ⟨hhere, hparts⟩ := portable_iff.mp h
      apply evalIn_unqualify hown hhere
      intro s hs ρ
      exact ih s (mem_slots_of_walked hs) (hparts s hs) ρ

/-- The names of an invariant, and of the entity that its helper is put into. -/
def scopesOf (inv : Authored.InvariantDecl) (entity : Entity) (inst : Option String) : Scopes where
  instances := if inv.isSingleEntity then [] else inv.instances.map (·.name)
  single := inv.isSingleEntity
  owner := inst.getD "_self"
  members := entity.members.map (·.name)
  routes := entity.routes.map (·.name)
  track := inv.track.map (·.name)
  derived := inv.derived.map (·.name)

/-- The instance that the classification takes off. -/
def strippedInstance (inv : Authored.InvariantDecl) (check : Expr) : Option String :=
  if inv.isSingleEntity then none else (collectInstanceRefs check (inv.instances.map (·.name))).head?

/-- A helper is made of the expression that `classify_on_entity` is given. -/
theorem classifyOnEntity_cases (L : Lowering) (entity : Entity) (inst' : Option String) (e : Expr)
    (prefer : Bool) :
    classifyOnEntity L entity inst' e prefer = .inline ∨
      classifyOnEntity L entity inst' e prefer = .unsupported ∨
      classifyOnEntity L entity inst' e prefer = .helper entity inst' e := by
  simp only [classifyOnEntity]
  cases L.genExpr entity e with
  | true =>
    rw [if_pos rfl]
    cases (prefer || exprUsesTrace e) && !L.needsKeysHelper entity e with
    | true => exact Or.inl rfl
    | false => exact Or.inr (Or.inr rfl)
  | false =>
    rw [if_neg Bool.false_ne_true]
    cases exprUsesTrace e with
    | true => exact Or.inr (Or.inl rfl)
    | false =>
      cases L.hoistIsReal entity e with
      | true => exact Or.inr (Or.inr rfl)
      | false => exact Or.inr (Or.inl rfl)

theorem helper_of_classifyOnEntity {L : Lowering} {entity entity' : Entity} {given inst' : Option String}
    {source e : Expr} {prefer : Bool}
    (h : classifyOnEntity L entity' inst' e prefer = .helper entity given source) :
    inst' = given ∧ e = source := by
  rcases classifyOnEntity_cases L entity' inst' e prefer with hk | hk | hk
  · rw [hk] at h
    cases h
  · rw [hk] at h
    cases h
  · rw [hk] at h
    cases h
    exact ⟨rfl, rfl⟩

theorem helper_of_simple {c : Bool} {k : CheckKind} {entity : Entity} {given : Option String}
    {source : Expr} (h : (if c = true then CheckKind.inline else k) = .helper entity given source) :
    k = .helper entity given source := by
  cases c with
  | true => cases h
  | false => exact h

theorem mem_of_collectInstanceRefs {check : Expr} {names : List String} {i : String}
    (h : i ∈ collectInstanceRefs check names) : i ∈ names :=
  List.mem_dedup.mp (List.mem_filter.mp h).1

/-- What a helper is made of: the check without the name of the only instance that it
    qualifies something with. -/
theorem helper_of_classifyCheckPlan {L : Lowering} {entities : List Entity}
    {inv : Authored.InvariantDecl} {idx : Nat} {entity : Entity} {given : Option String}
    {source check : Expr} (h : classifyCheckPlan L entities inv idx = .helper entity given source)
    (hcheck : inv.checks[idx]? = some check) :
    source = unqualify (strippedInstance inv check) check ∧
      OwnInstance (scopesOf inv entity given) (strippedInstance inv check) := by
  rw [classifyCheckPlan, hcheck] at h
  rw [strippedInstance]
  cases hsingle : inv.isSingleEntity with
  | true =>
    simp only [hsingle, if_true] at h
    split at h
    · cases h
    · obtain ⟨-, rfl⟩ := helper_of_classifyOnEntity h
      exact ⟨rfl, nofun⟩
  | false =>
    have hinstances : (scopesOf inv entity given).instances = inv.instances.map (·.name) := by
      rw [scopesOf, hsingle, if_neg Bool.false_ne_true]
    simp only [hsingle, if_false, Bool.false_eq_true] at h
    cases hrefs : collectInstanceRefs check (inv.instances.map (·.name)) with
    | nil =>
      simp only [hrefs] at h
      split at h
      · cases h
      · split at h
        · cases h
        · obtain ⟨-, rfl⟩ := helper_of_classifyOnEntity (helper_of_simple h)
          exact ⟨rfl, nofun⟩
    | cons i rest =>
      have hmem : i ∈ inv.instances.map (·.name) :=
        mem_of_collectInstanceRefs (hrefs ▸ List.mem_cons_self)
      cases rest with
      | cons j rest =>
        simp only [hrefs] at h
        split at h <;> cases h
      | nil =>
        simp only [hrefs] at h
        split at h
        · cases h
        · split at h
          · cases h
          · obtain ⟨rfl, rfl⟩ := helper_of_classifyOnEntity (helper_of_simple h)
            refine ⟨rfl, ?_⟩
            rintro _ ⟨⟩
            exact ⟨hinstances ▸ hmem, rfl⟩

/-- A lowering in which only hoisted expressions have a result. -/
def hoisting : Lowering where
  genExpr _ _ := false
  hoistIsReal _ _ := true
  needsKeysHelper _ _ := false

/-- An entity with the member `m_supply`. -/
def vault : Entity :=
  { Layout.syntheticEntity "Vault" with
    members := [Layout.plainMember "m_supply" (.simple "u256") false] }

/-- `let cap = …; a.m_supply <= cap`. -/
def cappedBy (cap : Expr) : Expr :=
  .letE (.ident "cap") cap (.binOp (.fieldAccess (.ident "a") "m_supply") .le (.ident "cap"))

/-- Two vaults, the handler state `total` and one check. -/
def vaultSystem (check : Expr) : Authored.InvariantDecl :=
  { systemInvariant [pinnedInstance "a" "Vault" [], pinnedInstance "b" "Vault" []] with
    track := [⟨"total", .boolLiteral false⟩]
    checks := [check] }

theorem walk_cappedBy {cap : Expr} (h : qualifierWalker.walk cap = []) :
    qualifierWalker.walk (cappedBy cap) = ["a"] := by
  have hident : ∀ x, qualifierWalker.walk (.ident x) = [] := fun _ => by
    rw [Walker.walk_eq]
    rfl
  have hfield : qualifierWalker.walk (.fieldAccess (.ident "a") "m_supply") = ["a"] := by
    rw [Walker.walk_eq]
    change ["a"] ++ [Expr.ident "a"].flatMap qualifierWalker.walk = _
    rw [List.flatMap_singleton, hident, List.append_nil]
  have hle : qualifierWalker.walk
      (.binOp (.fieldAccess (.ident "a") "m_supply") .le (.ident "cap")) = ["a"] := by
    rw [Walker.walk_eq]
    change [Expr.fieldAccess (.ident "a") "m_supply", .ident "cap"].flatMap qualifierWalker.walk = _
    rw [List.flatMap_cons, List.flatMap_singleton, hident, hfield, List.append_nil]
  rw [cappedBy, Walker.walk_eq]
  change [cap, .binOp _ _ _].flatMap qualifierWalker.walk = _
  rw [List.flatMap_cons, List.flatMap_singleton, h, hle, List.nil_append]

theorem collectInstanceRefs_cappedBy {cap : Expr} (h : qualifierWalker.walk cap = []) :
    collectInstanceRefs (cappedBy cap) ["a", "b"] = ["a"] := by
  rw [collectInstanceRefs, walk_cappedBy h]
  decide

theorem strippedInstance_cappedBy {cap : Expr} (h : qualifierWalker.walk cap = []) :
    strippedInstance (vaultSystem (cappedBy cap)) (cappedBy cap) = some "a" := by
  have hnames : (vaultSystem (cappedBy cap)).instances.map (·.name) = ["a", "b"] := rfl
  rw [strippedInstance, hnames, collectInstanceRefs_cappedBy h]
  rfl

theorem exprUsesTrace_capped {cap : Expr} (h : traceWalker.walk cap = []) (member : String) :
    exprUsesTrace (.letE (.ident "cap") cap (.binOp (.ident member) .le (.ident "cap"))) = false := by
  have hident : ∀ x, traceWalker.walk (.ident x) = [] := fun _ => by
    rw [Walker.walk_eq]
    rfl
  have hle : traceWalker.walk (.binOp (.ident member) .le (.ident "cap")) = [] := by
    rw [Walker.walk_eq]
    change [Expr.ident member, .ident "cap"].flatMap traceWalker.walk = _
    rw [List.flatMap_cons, List.flatMap_singleton, hident, hident, List.append_nil]
  rw [exprUsesTrace, Walker.walk_eq]
  change (!([cap, .binOp _ _ _].flatMap traceWalker.walk).isEmpty) = false
  rw [List.flatMap_cons, List.flatMap_singleton, h, hle]
  rfl

theorem classifyCheckPlan_cappedBy {cap : Expr} (hrefs : qualifierWalker.walk cap = [])
    (htrace : traceWalker.walk (stripInstanceQualifier "a" cap) = []) :
    classifyCheckPlan hoisting [vault] (vaultSystem (cappedBy cap)) 0 =
      .helper vault (some "a") (stripInstanceQualifier "a" (cappedBy cap)) := by
  have hcheck : (vaultSystem (cappedBy cap)).checks[0]? = some (cappedBy cap) := rfl
  have hsingle : (vaultSystem (cappedBy cap)).isSingleEntity = false := rfl
  have hnames : (vaultSystem (cappedBy cap)).instances.map (·.name) = ["a", "b"] := rfl
  have hmoved : stripInstanceQualifier "a" (cappedBy cap) = .letE (.ident "cap")
      (stripInstanceQualifier "a" cap) (.binOp (.ident "m_supply") .le (.ident "cap")) := rfl
  have hplan : classifyCheckPlan hoisting [vault] (vaultSystem (cappedBy cap)) 0 =
      classifyOnEntity hoisting vault (some "a") (stripInstanceQualifier "a" (cappedBy cap)) false := by
    rw [classifyCheckPlan, hcheck]
    simp only [hsingle, hnames, collectInstanceRefs_cappedBy hrefs]
    rfl
  rw [hplan, classifyOnEntity, hmoved, exprUsesTrace_capped htrace]
  rfl

/-- The member that is compared moves with the instance's name taken off. -/
theorem portable_cappedBy {S : Scopes} {cap : Expr} (howner : S.owner = "a") (hmember : "m_supply" ∈ S.members)
    (hcap : Portable S (some "a") [] cap) : Portable S (some "a") [] (cappedBy cap) := by
  have hfield : Portable S (some "a") ["cap"] (.fieldAccess (.ident "a") "m_supply") := by
    refine portable_iff.mpr ⟨carries_field_iff.mpr ⟨?_, by decide, hmember⟩, nofun⟩
    rw [howner]
    decide
  have hlocal : Portable S (some "a") ["cap"] (.ident "cap") :=
    portable_iff.mpr ⟨Or.inl List.mem_cons_self, nofun⟩
  have hle : Portable S (some "a") ["cap"]
      (.binOp (.fieldAccess (.ident "a") "m_supply") .le (.ident "cap")) := by
    refine portable_iff.mpr ⟨trivial, ?_⟩
    change ∀ s ∈ [inOperand _, inOperand _], _
    rw [List.forall_mem_cons, List.forall_mem_singleton]
    exact ⟨hfield, hlocal⟩
  refine portable_iff.mpr ⟨trivial, ?_⟩
  change ∀ s ∈ [inOperand cap, (.binding ["cap"], .binOp _ _ _)], _
  rw [List.forall_mem_cons, List.forall_mem_singleton]
  exact ⟨hcap, hle⟩

end CambrianLang.Invariants
