/-
  **Whom a `from` clause lets in** (`gen_from_checks`, `gen_from_checks_det` in
  `codegen/solidity/evm/route.rs`; `from_clause_sender_check` in
  `codegen/lean/core/route_local.rs`).

  Both back ends turn a clause into one comparison of the sender with an address.
  `SenderCheck` is that comparison, and `Reading` says what its operands denote, so
  a check becomes the set of senders that pass it.  `named` is the set the clause
  names: the instance of the entity with the given identity, the address given in
  its place without deterministic addresses, or the stored member.
-/
import CambrianLang.Prelude.Address
import CambrianLang.Validate.EvmRules

namespace CambrianLang.Guards

open Ast Prelude Validate

variable {Val : Type}

/-! ### Names and values -/

/-- What a name can denote in a call: an argument, or what is declared around the route. -/
structure Frame (Val : Type) where
  args : List (String × Val)
  outer : String → Val

/-- A parameter hides whatever else has its name. -/
def Frame.read (f : Frame Val) (name : String) : Val := (f.args.lookup name).getD (f.outer name)

/-- The frame of a call, as the arguments are bound to the parameters. -/
def callFrame (route : Route) (vals : String → Val) (outer : String → Val) : Frame Val :=
  ⟨route.params.map fun p => (p.name, vals p.name), outer⟩

/-- `from_arg_member_is_address_type`. -/
def fromArgMemberIsAddressType : Ty → Bool
  | .simple name => name == "address"
  | .typedAddress _ => true
  | _ => false

/-- The argument is the name of a parameter of the route. -/
def isParam (route : Route) (name : String) : Bool := route.params.any (·.name == name)

/-- What the expressions of a clause denote, and how an address is made of one. -/
structure Reading (Val : Type) where
  expr : Frame Val → Expr → Val
  ident : ∀ f name, expr f (.ident name) = f.read name
  /-- `infer_expr_sol_ty` gives the argument the type `address` -/
  isAddress : Entity → Route → Expr → Bool
  member_isAddress : ∀ entity route name m, isParam route name = false →
    entity.members.find? (·.name == name) = some m → fromArgMemberIsAddressType m.ty = true →
      isAddress entity route (.ident name) = true
  /-- `address(uint160(uint256(x)))` -/
  ofNumber : Val → Val

/-- `coerce_to_address_sol`. -/
def Reading.coerceToAddress (R : Reading Val) (entity : Entity) (route : Route) (arg : Expr)
    (v : Val) : Val :=
  if R.isAddress entity route arg then v else R.ofNumber v

/-! ### The emitted comparisons -/

/-- What the sender is compared with. -/
inductive SenderCheck where
  /-- a Solidity identifier -/
  | bare (name : String)
  /-- a field of the Lean state -/
  | stateField (name : String)
  /-- the computed address of an instance -/
  | instanceAt (entity : String) (identity : List Expr)
  | address (arg : Expr)
  | never

/-- `resolve_from_identity_arg`. -/
def resolveFromIdentityArg (arg : Expr) (index : Nat) (target current : Entity) : Expr :=
  match arg with
  | .ident name =>
      match (identityMembers target)[index]? with
      | some t =>
          if t.name = name then
            match (identityMembers current)[index]? with
            | some c => .ident c.name
            | none => arg
          else arg
      | none => arg
  | _ => arg

/-- The explicit address, or `false`. -/
def genAddressCheck (args : List Expr) : SenderCheck :=
  match args with
  | [arg] => .address arg
  | _ => .never

/-- `gen_from_checks`, for one clause. -/
def genFromCheck (c : FromClause) : SenderCheck :=
  match c.kind with
  | .member => .bare c.entityName
  | .entity => genAddressCheck c.args

/-- `gen_from_checks_det`, for one clause. -/
def genFromCheckDet (program : Program) (entity : Entity) (c : FromClause) : SenderCheck :=
  match c.kind with
  | .member => .bare c.entityName
  | .entity =>
      match program.entities.find? (·.name == c.entityName) with
      | some target =>
          if c.args.length = (identityMembers target).length then
            .instanceAt c.entityName
              (c.args.mapIdx fun i arg => resolveFromIdentityArg arg i target entity)
          else genAddressCheck c.args
      | none => genAddressCheck c.args

/-- The Solidity check of a clause in either mode of the project. -/
def evmFromCheck (program : Program) (deterministic : Bool) (entity : Entity) (c : FromClause) :
    SenderCheck :=
  if deterministic then genFromCheckDet program entity c else genFromCheck c

/-- The member whose field the Lean check reads instead of computing an address. -/
def storedAddress (entity : Entity) (args : List Expr) : Option String :=
  match args with
  | [.ident name] =>
      match entity.members.find? (·.name == name) with
      | some m => if fromArgMemberIsAddressType m.ty then some name else none
      | none => none
  | _ => none

/-- `from_clause_sender_check`. -/
def fromClauseSenderCheck (program : Program) (deterministic : Bool) (entity : Entity)
    (c : FromClause) : SenderCheck :=
  match c.kind with
  | .member => .stateField c.entityName
  | .entity =>
      match (if deterministic then none else storedAddress entity c.args) with
      | some name => .stateField name
      | none =>
          match program.entities.find? (·.name == c.entityName) with
          | some target =>
              .instanceAt c.entityName (((identityMembers target).zip c.args).map Prod.snd)
          | none => .never

/-! ### Who passes -/

section Senders

variable (R : Reading Val) (predict : String → List Val → Val)
variable (program : Program) (deterministic : Bool) (entity : Entity) (route : Route)
variable (f : Frame Val)

/-- The senders that pass a check. -/
def SenderCheck.admits : SenderCheck → Set Val
  | .bare name => {f.read name}
  | .stateField name => {f.outer name}
  | .instanceAt target identity => {predict target (identity.map (R.expr f))}
  | .address arg => {R.coerceToAddress entity route arg (R.expr f arg)}
  | .never => ∅

/-- The address a clause gives in place of an instance. -/
def explicitAddress (args : List Expr) : Option Expr :=
  match args with
  | [arg] => if !deterministic && R.isAddress entity route arg then some arg else none
  | _ => none

/-- The senders a clause names. -/
def named (c : FromClause) : Set Val :=
  match c.kind with
  | .member => {f.outer c.entityName}
  | .entity =>
      match explicitAddress R deterministic entity route c.args with
      | some arg => {R.expr f arg}
      | none =>
          if program.entities.any (·.name == c.entityName) then
            {predict c.entityName (c.args.map (R.expr f))}
          else ∅

/-- The senders that pass the emitted `require`, the disjunction of the clauses' checks. -/
def evmSenders : Set Val :=
  ⋃ c ∈ route.fromClauses,
    (evmFromCheck program deterministic entity c).admits R predict entity route f

/-- The senders that pass the Lean guard. -/
def leanSenders : Set Val :=
  ⋃ c ∈ route.fromClauses,
    (fromClauseSenderCheck program deterministic entity c).admits R predict entity route f

/-- The senders the clauses of the route name. -/
def namedSenders : Set Val :=
  ⋃ c ∈ route.fromClauses, named R predict program deterministic entity route f c

end Senders

section Property

variable (R : Reading Val) (program : Program) (deterministic : Bool) (entity : Entity)
variable (route : Route)

/-- In every state and for all arguments, both checks of a clause let exactly the named
    sender in, wherever the instances are. -/
def ClauseAuthenticates (c : FromClause) : Prop :=
  ∀ (predict : String → List Val → Val) (vals outer : String → Val),
    let f := callFrame route vals outer
    (evmFromCheck program deterministic entity c).admits R predict entity route f =
        named R predict program deterministic entity route f c ∧
      (fromClauseSenderCheck program deterministic entity c).admits R predict entity route f =
        named R predict program deterministic entity route f c

/-- The same for the checks of the whole route. -/
def RouteAuthenticates : Prop :=
  ∀ (predict : String → List Val → Val) (vals outer : String → Val),
    let f := callFrame route vals outer
    evmSenders R predict program deterministic entity route f =
        namedSenders R predict program deterministic entity route f ∧
      leanSenders R predict program deterministic entity route f =
        namedSenders R predict program deterministic entity route f

/-- An argument that is the name of the target's identity member at its position, where the
    caller's identity member at that position has another name. -/
def Renamed (target : Entity) (args : List Expr) : Prop :=
  ∃ (i : Nat) (name : String) (t m : Member), args[i]? = some (.ident name) ∧
    (identityMembers target)[i]? = some t ∧ t.name = name ∧
    (identityMembers entity)[i]? = some m ∧ m.name ≠ name

/-- The only argument is an address member that no parameter hides. -/
def NamesStoredAddress (args : List Expr) : Prop :=
  ∃ name, args = [.ident name] ∧ isParam route name = false ∧
    storedAddress entity args = some name

/-- The clauses that both back ends read as they are written. -/
def PlainlyRead (c : FromClause) : Prop :=
  match c.kind with
  | .member => isParam route c.entityName = false
  | .entity =>
      match program.entities.find? (·.name == c.entityName) with
      | some target =>
          if deterministic then ¬ Renamed entity target c.args
          else NamesStoredAddress entity route c.args
      | none => c.args.length = 1 → deterministic = false ∧ NamesStoredAddress entity route c.args

end Property

/-! ### Reading names -/

theorem lookup_map_params (params : List Param) (vals : String → Val) (name : String) :
    (params.map fun p => (p.name, vals p.name)).lookup name =
      if params.any (·.name == name) then some (vals name) else none := by
  induction params with
  | nil => rfl
  | cons p ps ih =>
    rw [List.map_cons, List.lookup_cons, List.any_cons, ih]
    by_cases hp : p.name = name
    · simp [hp]
    · have hp' : (name == p.name) = false := beq_eq_false_iff_ne.mpr (Ne.symm hp)
      simp [hp, hp']

@[simp] theorem callFrame_outer (route : Route) (vals outer : String → Val) :
    (callFrame route vals outer).outer = outer := rfl

theorem read_callFrame (route : Route) (vals outer : String → Val) (name : String) :
    (callFrame route vals outer).read name =
      if isParam route name then vals name else outer name := by
  rw [Frame.read, callFrame, lookup_map_params, isParam]
  split <;> rfl

/-- With the arguments taken from the same valuation, every name has its value. -/
theorem read_callFrame_self (route : Route) (g : String → Val) (name : String) :
    (callFrame route g g).read name = g name := by
  rw [read_callFrame, ite_self]

theorem resolve_eq_of_not_renamed {entity target : Entity} {args : List Expr}
    (h : ¬ Renamed entity target args) {i : Nat} {arg : Expr} (harg : args[i]? = some arg) :
    resolveFromIdentityArg arg i target entity = arg := by
  unfold resolveFromIdentityArg
  cases arg with
  | ident name =>
    cases ht : (identityMembers target)[i]? with
    | none => rfl
    | some t =>
      cases hm : (identityMembers entity)[i]? with
      | none => simp
      | some m =>
        simp only
        split
        · next hname =>
          by_contra hne
          exact h ⟨i, name, t, m, harg, ht, hname, hm, fun hm' => hne (by rw [hm'])⟩
        · rfl
  | _ => rfl

theorem mapIdx_resolve_of_not_renamed {entity target : Entity} {args : List Expr}
    (h : ¬ Renamed entity target args) :
    (args.mapIdx fun i arg => resolveFromIdentityArg arg i target entity) = args := by
  apply List.ext_getElem?
  intro i
  rw [List.getElem?_mapIdx]
  cases harg : args[i]? with
  | none => rfl
  | some arg => rw [Option.map_some, resolve_eq_of_not_renamed h harg]

/-! ### One clause -/

section Clause

variable [Nontrivial Val] {R : Reading Val} {program : Program} {deterministic : Bool}
variable {entity : Entity} {route : Route} {c : FromClause}

theorem member_authenticates (hk : c.kind = .member) :
    ClauseAuthenticates R program deterministic entity route c ↔
      isParam route c.entityName = false := by
  have hevm : evmFromCheck program deterministic entity c = .bare c.entityName := by
    unfold evmFromCheck genFromCheckDet genFromCheck
    rw [hk]
    cases deterministic <;> rfl
  have hlean : fromClauseSenderCheck program deterministic entity c = .stateField c.entityName := by
    rw [fromClauseSenderCheck, hk]
  simp only [ClauseAuthenticates, hevm, hlean, named, hk, SenderCheck.admits, callFrame_outer,
    Set.singleton_eq_singleton_iff, read_callFrame, and_true]
  constructor
  · intro h
    obtain ⟨a, b, hab⟩ := exists_pair_ne Val
    by_contra hp
    have hread := h (fun _ _ => a) (fun _ => a) fun _ => b
    rw [if_pos (Bool.eq_true_of_not_eq_false hp)] at hread
    exact hab hread
  · intro hp _ vals outer
    rw [if_neg (by rw [hp]; exact Bool.false_ne_true)]

omit [Nontrivial Val] in
theorem any_of_find {target : Entity}
    (ht : program.entities.find? (·.name == c.entityName) = some target) :
    program.entities.any (·.name == c.entityName) = true :=
  List.any_eq_true.mpr ⟨target, List.mem_of_find?_eq_some ht,
    List.find?_some (p := fun e : Entity => e.name == c.entityName) ht⟩

/-- Deterministic addresses: the instance with the identity as it is written. -/
theorem instance_authenticates {target : Entity} (hk : c.kind = .entity)
    (ht : program.entities.find? (·.name == c.entityName) = some target)
    (hargs : c.args.length = (identityMembers target).length) :
    ClauseAuthenticates R program true entity route c ↔ ¬ Renamed entity target c.args := by
  have hevm : evmFromCheck program true entity c = .instanceAt c.entityName
      (c.args.mapIdx fun i arg => resolveFromIdentityArg arg i target entity) := by
    simp only [evmFromCheck, genFromCheckDet, hk, ht, hargs, if_true]
  have hlean : fromClauseSenderCheck program true entity c = .instanceAt c.entityName c.args := by
    simp only [fromClauseSenderCheck, hk, ht, if_true]
    rw [List.map_snd_zip hargs.le]
  have hnamed : ∀ predict f, named R predict program true entity route f c =
      {predict c.entityName (c.args.map (R.expr f))} := by
    intro predict f
    have hex : explicitAddress R true entity route c.args = none := by
      unfold explicitAddress
      split <;> rfl
    simp only [named, hk, hex, any_of_find ht, if_true]
  simp only [ClauseAuthenticates, hevm, hlean, hnamed, SenderCheck.admits, and_true]
  constructor
  · rintro h ⟨i, name, t, m, harg, hti, hname, hmi, hne⟩
    obtain ⟨a, b, hab⟩ := exists_pair_ne Val
    let g : String → Val := fun x => if x = name then a else b
    have heq := h (fun _ vs => vs[i]?.getD a) g g
    have hresolve : resolveFromIdentityArg (.ident name) i target entity = .ident m.name := by
      simp [resolveFromIdentityArg, hti, hmi, hname]
    -- the two identities differ at position i, and the address tells
    simp only [Set.singleton_eq_singleton_iff, List.getElem?_map, List.getElem?_mapIdx, harg,
      Option.map_some, hresolve, R.ident, read_callFrame_self, Option.getD_some] at heq
    have hm : g m.name = b := if_neg hne
    have hn : g name = a := if_pos rfl
    exact hab (hn.symm.trans (heq.symm.trans hm))
  · intro h predict vals outer
    rw [mapIdx_resolve_of_not_renamed h]

omit [Nontrivial Val] in
theorem named_explicit {arg : Expr} (hk : c.kind = .entity) (hargs : c.args = [arg])
    (haddr : R.isAddress entity route arg = true) (predict : String → List Val → Val)
    (f : Frame Val) : named R predict program false entity route f c = {R.expr f arg} := by
  simp [named, hk, explicitAddress, hargs, haddr]

theorem evmFromCheck_plain {arg : Expr} (hk : c.kind = .entity) (hargs : c.args = [arg]) :
    evmFromCheck program false entity c = .address arg := by
  simp [evmFromCheck, genFromCheck, hk, hargs, genAddressCheck]

theorem storedAddress_eq_some {args : List Expr} {name : String}
    (h : storedAddress entity args = some name) :
    args = [.ident name] ∧ ∃ m, entity.members.find? (·.name == name) = some m ∧
      fromArgMemberIsAddressType m.ty = true := by
  unfold storedAddress at h
  split at h
  · next n =>
    split at h
    · next m hm =>
      split at h
      · next hty =>
        cases h
        exact ⟨rfl, m, hm, hty⟩
      · cases h
    · cases h
  · cases h

omit [Nontrivial Val] in
/-- A stored address that nothing hides is read alike by both back ends. -/
theorem stored_authenticates (hk : c.kind = .entity)
    (h : NamesStoredAddress entity route c.args) :
    ClauseAuthenticates R program false entity route c := by
  obtain ⟨name, hargs, hfree, hstored⟩ := h
  obtain ⟨-, m, hm, hty⟩ := storedAddress_eq_some hstored
  have haddr := R.member_isAddress entity route name m hfree hm hty
  have hlean : fromClauseSenderCheck program false entity c = .stateField name := by
    simp [fromClauseSenderCheck, hk, hstored]
  intro predict vals outer
  simp only [evmFromCheck_plain hk hargs, hlean, named_explicit hk hargs haddr,
    SenderCheck.admits, Reading.coerceToAddress, haddr, if_true, R.ident, read_callFrame, hfree,
    callFrame_outer, true_and]
  rfl

/-- Where the Lean check reads a field, a hiding parameter makes it read another value. -/
theorem isParam_of_stored {name : String} (hk : c.kind = .entity)
    (hstored : storedAddress entity c.args = some name)
    (haddr : R.isAddress entity route (.ident name) = true)
    (h : ClauseAuthenticates R program false entity route c) : isParam route name = false := by
  obtain ⟨hargs, -⟩ := storedAddress_eq_some hstored
  have hlean : fromClauseSenderCheck program false entity c = .stateField name := by
    simp [fromClauseSenderCheck, hk, hstored]
  obtain ⟨a, b, hab⟩ := exists_pair_ne Val
  by_contra hp
  obtain ⟨-, heq⟩ := h (fun _ _ => a) (fun _ => a) fun _ => b
  simp only [hlean, named_explicit hk hargs haddr, SenderCheck.admits, callFrame_outer, R.ident,
    read_callFrame, Set.singleton_eq_singleton_iff] at heq
  rw [if_pos (Bool.eq_true_of_not_eq_false hp)] at heq
  exact hab heq.symm

/-- Without deterministic addresses the Solidity check knows an instance by no address. -/
theorem isAddress_of_authenticates {arg : Expr} (hk : c.kind = .entity) (hargs : c.args = [arg])
    (h : ClauseAuthenticates R program false entity route c) :
    R.isAddress entity route arg = true := by
  obtain ⟨a, -, -⟩ := exists_pair_ne Val
  by_contra haddr
  let f := callFrame route (fun _ => a) fun _ => a
  obtain ⟨x, hx⟩ := exists_ne (R.ofNumber (R.expr f arg))
  obtain ⟨heq, -⟩ := h (fun _ _ => x) (fun _ => a) fun _ => a
  have hnamed : named R (fun _ _ => x) program false entity route f c = {x} ∨
      named R (fun _ _ => x) program false entity route f c = ∅ := by
    have hex : explicitAddress R false entity route c.args = none := by
      simp [explicitAddress, hargs, haddr]
    simp only [named, hk, hex]
    split
    · exact .inl rfl
    · exact .inr rfl
  rw [evmFromCheck_plain hk hargs] at heq
  simp only [SenderCheck.admits, Reading.coerceToAddress, haddr] at heq
  rcases hnamed with hn | hn
  · exact hx (Set.singleton_eq_singleton_iff.mp (heq.trans hn)).symm
  · exact Set.singleton_ne_empty _ (heq.trans hn)

/-- The Lean check knows an address by the member it is stored in only. -/
theorem stored_of_authenticates {arg : Expr} (hk : c.kind = .entity) (hargs : c.args = [arg])
    (haddr : R.isAddress entity route arg = true)
    (h : ClauseAuthenticates R program false entity route c) :
    ∃ name, storedAddress entity c.args = some name := by
  cases hstored : storedAddress entity c.args with
  | some name => exact ⟨name, rfl⟩
  | none =>
    obtain ⟨a, -, -⟩ := exists_pair_ne Val
    let f := callFrame route (fun _ => a) fun _ => a
    obtain ⟨x, hx⟩ := exists_ne (R.expr f arg)
    obtain ⟨-, heq⟩ := h (fun _ _ => x) (fun _ => a) fun _ => a
    rw [named_explicit hk hargs haddr] at heq
    exfalso
    cases ht : program.entities.find? (·.name == c.entityName) with
    | some target =>
      have hlean : fromClauseSenderCheck program false entity c = .instanceAt c.entityName
          (((identityMembers target).zip c.args).map Prod.snd) := by
        simp [fromClauseSenderCheck, hk, hstored, ht]
      rw [hlean] at heq
      exact hx (Set.singleton_eq_singleton_iff.mp heq)
    | none =>
      have hlean : fromClauseSenderCheck program false entity c = .never := by
        simp [fromClauseSenderCheck, hk, hstored, ht]
      rw [hlean] at heq
      exact Set.singleton_ne_empty _ heq.symm

/-- A single argument without deterministic addresses. -/
theorem address_authenticates (hk : c.kind = .entity) (hlen : c.args.length = 1) :
    ClauseAuthenticates R program false entity route c ↔
      NamesStoredAddress entity route c.args := by
  obtain ⟨arg, hargs⟩ := List.length_eq_one_iff.mp hlen
  constructor
  · intro h
    have haddr := isAddress_of_authenticates hk hargs h
    obtain ⟨name, hstored⟩ := stored_of_authenticates hk hargs haddr h
    obtain ⟨hname, -⟩ := storedAddress_eq_some hstored
    have harg : arg = .ident name := by
      rw [hargs] at hname
      exact (List.cons.inj hname).1
    exact ⟨name, hname, isParam_of_stored hk hstored (harg ▸ haddr) h, hstored⟩
  · exact stored_authenticates hk

/-- An entity the program does not declare. -/
theorem undeclared_authenticates (hk : c.kind = .entity)
    (ht : program.entities.find? (·.name == c.entityName) = none) :
    ClauseAuthenticates R program deterministic entity route c ↔
      (c.args.length = 1 → deterministic = false ∧ NamesStoredAddress entity route c.args) := by
  have hany : program.entities.any (·.name == c.entityName) = false := by
    rw [List.find?_eq_none] at ht
    exact Bool.eq_false_iff.mpr fun hany => by
      obtain ⟨e, he, hname⟩ := List.any_eq_true.mp hany
      exact ht e he hname
  by_cases hlen : c.args.length = 1
  · obtain ⟨arg, hargs⟩ := List.length_eq_one_iff.mp hlen
    cases deterministic with
    | false => simp only [address_authenticates hk hlen, hlen, true_and, forall_const]
    | true =>
      simp only [hlen, Bool.true_eq_false, false_and, forall_const, iff_false]
      intro h
      obtain ⟨a, -, -⟩ := exists_pair_ne Val
      obtain ⟨heq, -⟩ := h (fun _ _ => a) (fun _ => a) fun _ => a
      simp only [evmFromCheck, genFromCheckDet, hk, ht, hargs, genAddressCheck, named,
        explicitAddress, hany, SenderCheck.admits] at heq
      exact Set.singleton_ne_empty _ heq
  · have hex : explicitAddress R deterministic entity route c.args = none := by
      unfold explicitAddress
      split
      · next arg hargs => exact absurd (by rw [hargs]; rfl) hlen
      · rfl
    have hgen : genAddressCheck c.args = .never := by
      unfold genAddressCheck
      split
      · next arg hargs => exact absurd (by rw [hargs]; rfl) hlen
      · rfl
    have hevm : evmFromCheck program deterministic entity c = .never := by
      cases deterministic <;> simp [evmFromCheck, genFromCheck, genFromCheckDet, hk, ht, hgen]
    have hstored : storedAddress entity c.args = none := by
      unfold storedAddress
      split
      · next name hargs => exact absurd (by rw [hargs]; rfl) hlen
      · rfl
    have hlean : fromClauseSenderCheck program deterministic entity c = .never := by
      cases deterministic <;> simp [fromClauseSenderCheck, hk, hstored, ht]
    simp [ClauseAuthenticates, hevm, hlean, named, hk, hex, hany, SenderCheck.admits, hlen]

/-- A clause that rule V33 accepts lets in exactly the sender it names, on both back ends,
    if and only if both read it as it is written. -/
theorem clause_authenticates_iff
    (hacc : checkFromClauseArity program deterministic entity route c = []) :
    ClauseAuthenticates R program deterministic entity route c ↔
      PlainlyRead program deterministic entity route c := by
  unfold PlainlyRead
  cases hk : c.kind with
  | member => exact member_authenticates hk
  | entity =>
    simp only
    cases ht : program.entities.find? (·.name == c.entityName) with
    | none => exact undeclared_authenticates hk ht
    | some target =>
      cases deterministic with
      | true =>
        simp only [if_true]
        refine instance_authenticates hk ht ?_
        by_contra hlen
        simp [checkFromClauseArity, hk, ht, identityMembers] at hacc hlen
        exact hlen hacc
      | false =>
        refine address_authenticates hk ?_
        by_contra hlen
        simp [checkFromClauseArity, hk, ht, hlen] at hacc

end Clause

/-! ### The whole check -/

section Checks

variable {R : Reading Val} {program : Program} {deterministic : Bool} {entity : Entity}
variable {route : Route}

theorem route_authenticates
    (h : ∀ c ∈ route.fromClauses, ClauseAuthenticates R program deterministic entity route c) :
    RouteAuthenticates R program deterministic entity route := by
  intro predict vals outer
  constructor
  · apply Set.iUnion₂_congr
    intro c hc
    exact (h c hc predict vals outer).1
  · apply Set.iUnion₂_congr
    intro c hc
    exact (h c hc predict vals outer).2

theorem accepted_clause (hacc : checkEvmFromClauseArity program deterministic = [])
    (he : entity ∈ program.entities) (hr : route ∈ entity.routes) {c : FromClause}
    (hc : c ∈ route.fromClauses) :
    checkFromClauseArity program deterministic entity route c = [] := by
  rw [checkEvmFromClauseArity, List.flatMap_eq_nil_iff] at hacc
  have hroute := List.flatMap_eq_nil_iff.mp (hacc entity he) route hr
  exact List.flatMap_eq_nil_iff.mp hroute c hc

theorem iUnion_clause {c : FromClause} (h : route.fromClauses = [c]) (s : FromClause → Set Val) :
    ⋃ c' ∈ route.fromClauses, s c' = s c := by
  simp [h]

/-- In an accepted program the check of a clause lets in exactly the sender the clause
    names if and only if the clause is read as it is written; where that holds of every
    clause, the emitted check of the route lets in exactly the senders its clauses name. -/
theorem from_authenticates [Nontrivial Val] (R : Reading Val) (program : Program)
    (deterministic : Bool) (hacc : checkEvmFromClauseArity program deterministic = [])
    (entity : Entity) (he : entity ∈ program.entities) (route : Route)
    (hr : route ∈ entity.routes) :
    (∀ c ∈ route.fromClauses, ClauseAuthenticates R program deterministic entity route c ↔
      PlainlyRead program deterministic entity route c) ∧
    ((∀ c ∈ route.fromClauses, PlainlyRead program deterministic entity route c) →
      RouteAuthenticates R program deterministic entity route) := by
  have hiff : ∀ c ∈ route.fromClauses, ClauseAuthenticates R program deterministic entity route c ↔
      PlainlyRead program deterministic entity route c := by
    intro c hc
    exact clause_authenticates_iff (accepted_clause hacc he hr hc)
  refine ⟨hiff, ?_⟩
  intro hplain
  apply route_authenticates
  intro c hc
  exact (hiff c hc).mpr (hplain c hc)

end Checks

/-! ### An administrator and a vault -/

/-- A reading of names over the naturals. -/
def nameReading : Reading Nat where
  expr f e := match e with
    | .ident name => f.read name
    | _ => 0
  ident _ _ := rfl
  isAddress entity route e := match e with
    | .ident name =>
        match route.params.find? (·.name == name), entity.members.find? (·.name == name) with
        | some p, _ => fromArgMemberIsAddressType p.ty
        | none, some m => fromArgMemberIsAddressType m.ty
        | none, none => false
    | _ => false
  member_isAddress entity route name m hfree hm hty := by
    have hp : route.params.find? (·.name == name) = none := by
      rw [List.find?_eq_none]
      intro p hp hname
      rw [isParam] at hfree
      exact Bool.false_ne_true (hfree.symm.trans (List.any_eq_true.mpr ⟨p, hp, hname⟩))
    simp only [hp, hm, hty]
  ofNumber v := v

def identityOf (name : String) : Member :=
  { name := name, ty := .simple "u64", isIdentity := true, defaultValue := none, transforms := [] }

/-- `from Admin(arg)`. -/
def adminClause (arg : String) : FromClause :=
  { entityName := "Admin", args := [.ident arg], withParams := none, kind := .entity
    errorCode := none, errorName := none, errorArgs := [] }

/-- `name(params) from Admin(arg)`. -/
def fromAdmin (name arg : String) (params : List Param) : Route :=
  { name := name, params := params, fromClauses := [adminClause arg]
    whereClauses := [], returnType := none, body := .unphased [], isView := false, isPure := false
    isInit := false, isAccept := false, isPrivate := false, recoverTag := none
    factoryOnly := false }

/-- `secret(id: u64) from Admin(id)`. -/
def secretRoute : Route := fromAdmin "secret" "id" [{ name := "id", ty := .simple "u64" }]

/-- `own() from Admin(slot)`. -/
def ownRoute : Route := fromAdmin "own" "slot" []

def vaultEntity : Entity :=
  { name := "Vault", records := [], enums := [], typeAliases := [], constants := [], macros := []
    routes := [secretRoute, ownRoute], members := [identityOf "slot"] }

/-- `Admin` is identified by `id`, `Vault` by `slot`. -/
def adminVault : Program :=
  { imports := [], pureFns := [], typeAliases := [], records := [], enums := []
    entities := [{
      name := "Admin", records := [], enums := [], typeAliases := [], constants := [],
      macros := [], routes := [], members := [identityOf "id"] }, vaultEntity]
    externEntities := [], libraries := [] }

/-- The route `own` of the vault lets in the administrator of its own slot only. -/
theorem own_authenticates :
    RouteAuthenticates nameReading adminVault true vaultEntity ownRoute :=
  (from_authenticates nameReading adminVault true (by decide +kernel) vaultEntity
    (.tail _ (.head _)) ownRoute (.tail _ (.head _))).2 (by
      intro c hc
      rw [List.mem_singleton.mp hc]
      rintro ⟨i, name, t, m, harg, ht, hname, -⟩
      cases i with
      | zero =>
        cases harg
        cases ht
        exact absurd hname (by decide)
      | succ i => cases harg)

/-- Called with `id = 7` on the vault of slot 3, `secret` lets in the administrator 3
    although its clause names the administrator 7. -/
theorem secret_admits_other_admin :
    checkEvmFromClauseArity adminVault true = [] ∧
    (let f := callFrame secretRoute (fun _ => 7) fun _ => 3
     let predict : String → List Nat → Nat := fun _ ids => 100 + ids.headD 0
     evmSenders nameReading predict adminVault true vaultEntity secretRoute f = {103} ∧
     leanSenders nameReading predict adminVault true vaultEntity secretRoute f = {107} ∧
     namedSenders nameReading predict adminVault true vaultEntity secretRoute f = {107}) ∧
    ¬ RouteAuthenticates nameReading adminVault true vaultEntity secretRoute := by
  have hevm : evmSenders nameReading (fun _ ids => 100 + ids.headD 0) adminVault true vaultEntity
      secretRoute (callFrame secretRoute (fun _ => 7) fun _ => 3) = {103} :=
    (iUnion_clause (c := adminClause "id") rfl _).trans rfl
  have hnamed : namedSenders nameReading (fun _ ids => 100 + ids.headD 0) adminVault true
      vaultEntity secretRoute (callFrame secretRoute (fun _ => 7) fun _ => 3) = {107} :=
    (iUnion_clause (c := adminClause "id") rfl _).trans rfl
  refine ⟨by decide +kernel, ⟨hevm, ?_, hnamed⟩, ?_⟩
  · exact (iUnion_clause (c := adminClause "id") rfl _).trans rfl
  · intro h
    obtain ⟨heq, -⟩ := h (fun _ ids => 100 + ids.headD 0) (fun _ => 7) fun _ => 3
    rw [hevm, hnamed] at heq
    exact absurd (Set.singleton_eq_singleton_iff.mp heq) (by decide)

end CambrianLang.Guards
