/-
  **Who writes storage in an emitted function** (`emit_let` in `evm/emitter.rs`,
  `emit_transforms_sol_split` in `evm/route.rs`, `gen_mapping_transform_split` in
  `evm/transform.rs`, the push bodies of `core/types.rs`).

  The statements hoisted out of an expression assign locals they declare.  Storage is
  written by the commits of transforms, by a `let` whose value updates a map member,
  and by `m.push()`, which is printed as it stands.  Actions are kept as structured
  code over the members they write, a write standing for that of a member and of the
  arrays kept beside it.
-/
import CambrianLang.Lib.StructuredCode
import CambrianLang.Solidity.MapTransforms
import CambrianLang.Analysis.Temporal

namespace CambrianLang.Solidity

open Ast Analysis Ghost StructuredCode
open Traversal Validate Relation

/-! ### Members -/

/-- `is_vec_type`. -/
def isVecType : Ty → Bool
  | .generic name params => name == "Vec" && params.length == 1
  | _ => false

def isMemberOf (entity : Entity) (p : Ty → Bool) (name : String) : Bool :=
  entity.members.any fun m => m.name == name && p m.ty

/-- A member other than the given one. -/
def isForeign (entity : Entity) (member name : String) : Bool :=
  name != member && isMemberOf entity (fun _ => true) name

/-! ### Expressions -/

/-- `m.push()` is a Solidity expression with a value, and appends to the array. -/
def pushWalker (entity : Entity) : Walker Expr String where
  own
    | .methodCall (.ident name) "push" [] =>
        if isMemberOf entity isVecType name then [name] else []
    | _ => []
  visited := Expr.children
  rank := Expr.rank
  rank_lt := rank_child_lt

/-- The arrays that evaluating an expression appends to. -/
def exprWrites (entity : Entity) (e : Expr) : List String := (pushWalker entity).walk e

/-! ### Map transforms -/

/-- `simplify_hashmap_let_alias_init`. -/
def simplifyHashmapLetAliasInit : Expr → Expr
  | .ifE (.methodCall (.ident _) "exists" [_]) (.index b i) (some .emptyCollection) => .index b i
  | .ifE c t e => .ifE c t e
  | v => v

/-- A name that stands for a map, with what it stands for. -/
abbrev Aliases := List (String × Expr)

/-- The substitution of aliases, as far as the map written to depends on it. -/
def resolveAlias (env : Aliases) : Expr → Expr
  | .ident x => (env.lookup x).getD (.ident x)
  | .index (.ident x) k => .index ((env.lookup x).getD (.ident x)) k
  | .ifE c t e => .ifE c (resolveAlias env t) e
  | e => e

/-- The expression a chain of insertions starts from. -/
def chainStart : Expr → Expr
  | .methodCall base method args =>
      match mapOp method args with
      | some (.put _ _) => chainStart base
      | _ => .methodCall base method args
  | e => e

/-- The root of `collect_update_chain`. -/
def chainRoot (member : String) (env : Aliases) (base : Expr) : String :=
  match resolveAlias env (chainStart base) with
  | .ident name => name
  | .index (.ident name) _ => name
  | _ => member

/-- The map `remove` is called on. -/
def removeRoot (member : String) (env : Aliases) (base : Expr) : String :=
  match resolveAlias env base with
  | .ident name => name
  | _ => member

/-- The aliases in the body of a `let`. -/
def letAliases (entity : Entity) (env : Aliases) (x : String) (v : Expr) : Aliases :=
  let value := simplifyHashmapLetAliasInit (resolveAlias env v)
  if isHashmapValuedExpr entity value then (x, value) :: env
  else env.filter fun a => a.1 != x

mutual
/-- The maps that `gen_mapping_transform_split` writes for a transform of the member. -/
def mapRoots (entity : Entity) (member : String) : Aliases → Expr → List String
  | env, .letE (.ident x) v b => mapRoots entity member (letAliases entity env x v) b
  | env, .letE .wildcard _ b => mapRoots entity member env b
  | env, .methodCall base method args =>
      match mapOp method args with
      | some (.put _ _) => [chainRoot member env base]
      | some (.del _) => [removeRoot member env base]
      | none => []
  | env, .ifE _ t (some e) => mapRoots entity member env t ++ mapRoots entity member env e
  | env, .ifE _ t none => mapRoots entity member env t
  | env, .block items => itemRoots entity member env items
  | _, _ => []
def itemRoots (entity : Entity) (member : String) : Aliases → List Expr → List String
  | _, [] => []
  | env, e :: es => mapRoots entity member env e ++ itemRoots entity member env es
end

/-! ### Transforms -/

mutual
/-- `find_push` of `lower_foreign_vec_push_body`. -/
def findPush : Expr → Option (String × Expr)
  | .block items => findPushItem items
  | .letE _ _ inner => findPush inner
  | .methodCall (.ident name) method [arg] => if method == "push" then some (name, arg) else none
  | _ => none
def findPushItem : List Expr → Option (String × Expr)
  | [] => none
  | e :: es => (findPush e).or (findPushItem es)
end

/-- The array a transform of a `Vec` member pushes to in its own member's stead. -/
def foreignPush (entity : Entity) (m : Member) (body : Expr) : Option String :=
  if isVecType m.ty then
    match findPush body with
    | some (name, _) =>
        if name ≠ m.name ∧ isMemberOf entity isVecType name = true then some name else none
    | none => none
  else none

/-- The members a transform writes (`emit_transforms_sol_split`). -/
def transformWrites (entity : Entity) (m : Member) (t : MemberTransform) : List String :=
  (match foreignPush entity m t.body with
    | some name => [name, m.name]
    | none =>
        if isHashMap m.ty then
          (mapRoots entity m.name [] t.body).filter (isMemberOf entity fun _ => true)
        else [m.name]) ++ exprWrites entity t.body

/-! ### Actions -/

/-- The value of the `let` updates a map member. -/
def updatesMember (entity : Entity) : Pattern → Expr → Bool
  | .ident _, .methodCall (.ident name) method args =>
      isMemberOf entity isHashMap name &&
        (match mapOp method args with
          | some (.put _ _) => true
          | _ => false)
  | _, _ => false

/-- The members that `emit_let` writes. -/
def letWrites (entity : Entity) (p : Pattern) (v : Expr) : List String :=
  (if updatesMember entity p v then mapRoots entity ((mapMemberName v).getD "") [] v else []) ++
    (match p, v with
      -- the value of `let _` is not printed
      | .wildcard, .methodCall (.ident _) "push" [] => []
      | _, _ => exprWrites entity v)

abbrev ActionCode := Code String RouteAction

def writeAll (names : List String) : ActionCode := sequence (names.map .write)

def evalAll (entity : Entity) (es : List Expr) : ActionCode :=
  writeAll (es.flatMap (exprWrites entity))

mutual
/-- `dispatch_action`. -/
def actionCode (entity : Entity) : RouteAction → ActionCode
  | .letA p v => writeAll (letWrites entity p v)
  | .conditional c thenActions elseActions =>
      .seq (evalAll entity [c])
        (.branch (actionsCode entity thenActions) (actionsCode entity elseActions))
  | .forA _ iter body => .seq (evalAll entity [iter]) (.loop (actionsCode entity body))
  | .rescue _ action => actionCode entity action
  | .ret values => .seq (evalAll entity values) .leave
  | .emit _ args => evalAll entity args
  | .throw _ => .fail
  | .throwCustom _ args => .seq (evalAll entity args) .fail
  | .send m args dest opts => callCode entity (.send m args dest opts)
  | .effect ns name args => callCode entity (.effect ns name args)
  | .deploy e opts args => callCode entity (.deploy e opts args)
  | .callRoute name args => callCode entity (.callRoute name args)
  | .varCall name m args dest opts => callCode entity (.varCall name m args dest opts)
  | .updateCode args route cbArgs => callCode entity (.updateCode args route cbArgs)
/-- What an action that calls something evaluates, and the call. -/
def callCode (entity : Entity) (a : RouteAction) : ActionCode :=
  .seq (evalAll entity a.exprs) (.call a)
def actionsCode (entity : Entity) : List RouteAction → ActionCode
  | [] => .skip
  | a :: as => .seq (actionCode entity a) (actionsCode entity as)
end

/-! ### Functions -/

/-- The stages of a body, each with its actions. -/
def bodyStages : RouteBody → List (Option String × List RouteAction)
  | .unphased actions => [(none, actions)]
  | .phased phases => phases.map fun p => (some p.name, p.actions)
  | .mixed phases actions => (phases.map fun p => (some p.name, p.actions)) ++ [(none, actions)]

/-- A storage write, with the member whose transform it belongs to, if it does to one. -/
structure Write where
  origin : Option Member
  target : String

/-- The write belongs to a transform of the very member. -/
def Write.Owned (w : Write) : Prop := ∃ m, w.origin = some m ∧ m.name = w.target

/-- The storage writes of the function emitted for a route. -/
def functionWrites (entity : Entity) (route : Route) : List Write :=
  (bodyStages route.body).flatMap fun stage =>
    ((collectTransforms entity route.name stage.1).flatMap fun rt =>
      (transformWrites entity rt.1 rt.2).map (Write.mk (some rt.1))) ++
    (actionsCode entity stage.2).writes.map (Write.mk none)

/-! ### What keeps a function to its transforms -/

section Conditions

variable (entity : Entity)

/-- A transform that pushes to its own array only, starts every map update from its own map,
    and appends to nothing else on the side. -/
structure OwnTransform (m : Member) (t : MemberTransform) : Prop where
  push : foreignPush entity m t.body = none
  maps : isHashMap m.ty = true →
    ∀ root ∈ mapRoots entity m.name [] t.body, isForeign entity m.name root = false
  exprs : ∀ name ∈ exprWrites entity t.body, name = m.name

/-- An action that itself evaluates neither `m.push()` nor a `let` of an updated map. -/
def Stateless : RouteAction → Prop
  | .letA p v => updatesMember entity p v = false ∧ letWrites entity p v = []
  | a => ∀ e ∈ a.exprs, exprWrites entity e = []

def KeepsToTransforms (route : Route) : Prop :=
  (∀ stage ∈ bodyStages route.body, ∀ rt ∈ collectTransforms entity route.name stage.1,
    OwnTransform entity rt.1 rt.2) ∧
  ∀ a ∈ route.body.allActions, ∀ b, Subaction a b → Stateless entity b

end Conditions

section Actions

variable {entity : Entity}

theorem writes_writeAll (names : List String) : (writeAll names).writes = names := by
  rw [writeAll, writes_sequence, List.flatMap_map]
  exact List.flatMap_singleton' names

theorem writes_evalAll_eq_nil_iff {es : List Expr} :
    (evalAll entity es).writes = [] ↔ ∀ e ∈ es, exprWrites entity e = [] := by
  rw [evalAll, writes_writeAll, List.flatMap_eq_nil_iff]

theorem writes_actionsCode (as : List RouteAction) :
    (actionsCode entity as).writes = as.flatMap fun a => (actionCode entity a).writes := by
  induction as with
  | nil => rfl
  | cons a as ih => rw [actionsCode, Code.writes, ih, List.flatMap_cons]

/-- Every value that updates a map names the map it updates. -/
theorem letWrites_ne_nil {p : Pattern} {v : Expr} (h : updatesMember entity p v = true) :
    letWrites entity p v ≠ [] := by
  unfold updatesMember at h
  split at h
  · next x name method args =>
    rw [Bool.and_eq_true] at h
    have hroots : mapRoots entity name [] (.methodCall (.ident name) method args) ≠ [] := by
      rw [mapRoots]
      split
      · exact List.cons_ne_nil _ _
      · next hop =>
        rw [hop] at h
        exact absurd h.2 Bool.false_ne_true
      · next hop =>
        rw [hop] at h
        exact absurd h.2 Bool.false_ne_true
    have hupd : updatesMember entity (.ident x) (.methodCall (.ident name) method args) = true := by
      rw [updatesMember, Bool.and_eq_true]
      exact h
    unfold letWrites
    rw [if_pos hupd]
    exact List.append_ne_nil_of_left_ne_nil hroots _
  · cases h

theorem stateless_let_iff {p : Pattern} {v : Expr} :
    Stateless entity (.letA p v) ↔ letWrites entity p v = [] := by
  constructor
  · exact fun h => h.2
  · intro h
    refine ⟨?_, h⟩
    by_contra hupd
    exact letWrites_ne_nil (Bool.eq_true_of_not_eq_false hupd) h

/-- What an action writes itself, and what the actions nested in it write. -/
theorem writes_actionCode_eq_nil_iff (a : RouteAction) :
    (actionCode entity a).writes = [] ↔
      Stateless entity a ∧ ∀ c ∈ a.children, (actionCode entity c).writes = [] := by
  have hbranches : ∀ as : List RouteAction, (actionsCode entity as).writes = [] ↔
      ∀ c ∈ as, (actionCode entity c).writes = [] := by
    intro as
    rw [writes_actionsCode, List.flatMap_eq_nil_iff]
  cases a with
  | letA p v =>
    rw [actionCode, writes_writeAll, stateless_let_iff]
    simp [RouteAction.children]
  | conditional c thenActions elseActions =>
    simp only [actionCode, Code.writes, List.append_eq_nil_iff, writes_evalAll_eq_nil_iff,
      hbranches, Stateless, RouteAction.exprs, RouteAction.children, List.mem_append, or_imp,
      forall_and]
  | forA p iter body =>
    simp only [actionCode, Code.writes, List.append_eq_nil_iff, writes_evalAll_eq_nil_iff,
      hbranches, Stateless, RouteAction.exprs, RouteAction.children]
  | rescue tag action =>
    simp [actionCode, Stateless, RouteAction.exprs, RouteAction.children]
  | ret values =>
    simp [actionCode, Code.writes, writes_evalAll_eq_nil_iff, Stateless, RouteAction.exprs,
      RouteAction.children]
  | emit name args =>
    simp [actionCode, writes_evalAll_eq_nil_iff, Stateless, RouteAction.exprs, RouteAction.children]
  | throw code =>
    simp [actionCode, Code.writes, Stateless, RouteAction.exprs, RouteAction.children]
  | throwCustom name args =>
    simp [actionCode, Code.writes, writes_evalAll_eq_nil_iff, Stateless, RouteAction.exprs,
      RouteAction.children]
  | send | effect | deploy | callRoute | varCall | updateCode =>
    simp only [actionCode, callCode, Code.writes, List.append_nil, writes_evalAll_eq_nil_iff,
      Stateless, RouteAction.children, List.not_mem_nil, false_imp_iff, implies_true, and_true]

theorem forall_subaction_iff {P : RouteAction → Prop} {a : RouteAction} :
    (∀ b, Subaction a b → P b) ↔ P a ∧ ∀ c ∈ a.children, ∀ b, Subaction c b → P b := by
  constructor
  · intro h
    exact ⟨h a .refl, fun c hc b hb => h b (ReflTransGen.head hc hb)⟩
  · rintro ⟨ha, hc⟩ b hb
    rcases ReflTransGen.cases_head hb with rfl | ⟨c, hac, hcb⟩
    · exact ha
    · exact hc c hac b hcb

/-- The code of an action writes nothing if and only if nothing in it does. -/
theorem pure_iff_stateless (a : RouteAction) :
    (actionCode entity a).writes = [] ↔ ∀ b, Subaction a b → Stateless entity b := by
  induction hr : a.rank using Nat.strongRecOn generalizing a with
  | ind n ih =>
    rw [writes_actionCode_eq_nil_iff, forall_subaction_iff]
    apply and_congr_right
    intro _
    constructor
    · intro h c hc
      exact (ih c.rank (hr ▸ rank_nested_lt hc) c rfl).mp (h c hc)
    · intro h c hc
      exact (ih c.rank (hr ▸ rank_nested_lt hc) c rfl).mpr (h c hc)

end Actions

section Transforms

variable {entity : Entity} {m : Member} {t : MemberTransform}

theorem foreignPush_eq_some {name : String} (h : foreignPush entity m t.body = some name) :
    name ≠ m.name := by
  unfold foreignPush at h
  split at h
  · split at h
    · split at h
      · next hne =>
        cases h
        exact hne.1
      · cases h
    · cases h
  · cases h

theorem isForeign_eq_false_iff {member root : String} :
    isForeign entity member root = false ↔
      (isMemberOf entity (fun _ => true) root = true → root = member) := by
  rw [isForeign, Bool.and_eq_false_iff, bne_eq_false_iff_eq]
  constructor
  · rintro (h | h) hmem
    · exact h
    · rw [h] at hmem
      cases hmem
  · intro h
    by_cases hmem : isMemberOf entity (fun _ => true) root = true
    · exact .inl (h hmem)
    · exact .inr (Bool.eq_false_iff.mpr hmem)

/-- A transform writes its own member only if and only if it keeps to it. -/
theorem transformWrites_own_iff :
    (∀ target ∈ transformWrites entity m t, target = m.name) ↔ OwnTransform entity m t := by
  unfold transformWrites
  cases hpush : foreignPush entity m t.body with
  | some name =>
    constructor
    · intro h
      exact absurd (h name (List.mem_append_left _ List.mem_cons_self)) (foreignPush_eq_some hpush)
    · intro h
      exact absurd (hpush.symm.trans h.push) (Option.some_ne_none _)
  | none =>
    constructor
    · intro h
      refine ⟨hpush, ?_, fun name hname => h name (List.mem_append_right _ hname)⟩
      intro hmap root hroot
      rw [isForeign_eq_false_iff]
      intro hmem
      apply h root
      simp only [hmap, if_true]
      exact List.mem_append_left _ (List.mem_filter.mpr ⟨hroot, hmem⟩)
    · intro h target htarget
      rcases List.mem_append.mp htarget with hcommit | hexpr
      · simp only at hcommit
        split at hcommit
        · next hmap =>
          obtain ⟨hroot, hmem⟩ := List.mem_filter.mp hcommit
          exact isForeign_eq_false_iff.mp (h.maps hmap target hroot) hmem
        · exact List.mem_singleton.mp hcommit
      · exact h.exprs target hexpr

end Transforms

/-! ### Only transforms write -/

section Functions

variable {entity : Entity} {route : Route}

theorem mem_stage_actions {a : RouteAction} :
    a ∈ route.body.allActions ↔ ∃ stage ∈ bodyStages route.body, a ∈ stage.2 := by
  unfold RouteBody.allActions bodyStages
  cases route.body with
  | unphased as => simp
  | phased ps => simp
  | mixed ps as => simp [or_and_right, exists_or]

theorem functionWrites_owned_iff :
    (∀ w ∈ functionWrites entity route, w.Owned) ↔ KeepsToTransforms entity route := by
  have hstage : ∀ stage : Option String × List RouteAction,
      (∀ w ∈ ((collectTransforms entity route.name stage.1).flatMap fun rt =>
          (transformWrites entity rt.1 rt.2).map (Write.mk (some rt.1))) ++
          (actionsCode entity stage.2).writes.map (Write.mk none), w.Owned) ↔
        (∀ rt ∈ collectTransforms entity route.name stage.1, OwnTransform entity rt.1 rt.2) ∧
          ∀ a ∈ stage.2, ∀ b, Subaction a b → Stateless entity b := by
    intro stage
    constructor
    · intro h
      constructor
      · intro rt hrt
        rw [← transformWrites_own_iff]
        intro target htarget
        obtain ⟨m, horigin, hname⟩ := h ⟨some rt.1, target⟩ (List.mem_append_left _
          (List.mem_flatMap.mpr ⟨rt, hrt, List.mem_map_of_mem htarget⟩))
        cases horigin
        exact hname.symm
      · intro a ha
        rw [← pure_iff_stateless, List.eq_nil_iff_forall_not_mem]
        intro target htarget
        have hmem : target ∈ (actionsCode entity stage.2).writes := by
          rw [writes_actionsCode]
          exact List.mem_flatMap.mpr ⟨a, ha, htarget⟩
        obtain ⟨m, horigin, -⟩ := h ⟨none, target⟩
          (List.mem_append_right _ (List.mem_map_of_mem hmem))
        cases horigin
    · rintro ⟨htransforms, hactions⟩ w hw
      rcases List.mem_append.mp hw with hw | hw
      · obtain ⟨rt, hrt, hw⟩ := List.mem_flatMap.mp hw
        obtain ⟨target, htarget, rfl⟩ := List.mem_map.mp hw
        exact ⟨rt.1, rfl, (transformWrites_own_iff.mpr (htransforms rt hrt) target htarget).symm⟩
      · obtain ⟨target, htarget, rfl⟩ := List.mem_map.mp hw
        rw [writes_actionsCode] at htarget
        obtain ⟨a, ha, htarget⟩ := List.mem_flatMap.mp htarget
        rw [(pure_iff_stateless a).mpr (hactions a ha)] at htarget
        exact absurd htarget List.not_mem_nil
  unfold functionWrites KeepsToTransforms
  constructor
  · intro h
    have hall := fun stage hs => (hstage stage).mp
      fun w hw => h w (List.mem_flatMap.mpr ⟨stage, hs, hw⟩)
    refine ⟨fun stage hs => (hall stage hs).1, ?_⟩
    intro a ha
    obtain ⟨stage, hs, ha⟩ := mem_stage_actions.mp ha
    exact (hall stage hs).2 a ha
  · rintro ⟨htransforms, hactions⟩ w hw
    obtain ⟨stage, hs, hw⟩ := List.mem_flatMap.mp hw
    exact (hstage stage).mpr ⟨htransforms stage hs,
      fun a ha => hactions a (mem_stage_actions.mpr ⟨stage, hs, ha⟩)⟩ w hw

/-- Executing the actions of each stage changes the members by what the actions call only. -/
def ActionsFramed (entity : Entity) (route : Route) : Prop :=
  ∀ stage ∈ bodyStages route.body, ∀ (V : Type) (callee : RouteAction → (String → V) →
    (String → V) → Prop) (s s' : String → V) (left : Bool),
    Exec callee (actionsCode entity stage.2) s s' left →
      ReflTransGen (fun x y => ∃ c ∈ (actionsCode entity stage.2).calls, callee c x y) s s'

theorem actions_framed (h : KeepsToTransforms entity route) : ActionsFramed entity route := by
  intro stage hs V callee s s' left hexec
  apply calls_of_exec hexec
  rw [writes_actionsCode, List.flatMap_eq_nil_iff]
  intro a ha
  exact (pure_iff_stateless a).mpr (h.2 a (mem_stage_actions.mpr ⟨stage, hs, ha⟩))

end Functions

/-! ### An inspection that credits -/

/-- `name() => [action]`. -/
def oneActionRoute (name : String) (action : RouteAction) : Route :=
  { name := name, params := [], fromClauses := [], whereClauses := [], returnType := none
    body := .unphased [action], isView := false, isPure := false, isInit := false
    isAccept := false, isPrivate := false, recoverTag := none, factoryOnly := false }

/-- `preview() => [let after = m_balances.insert(msg::sender, 5)]`. -/
def previewRoute : Route :=
  oneActionRoute "preview" (.letA (.ident "after")
    (.methodCall (.ident "m_balances") "insert" [.msgField "sender", .intLiteral ⟨0, 5⟩]))

def ledgerEntity : Entity :=
  { name := "Ledger", records := [], enums := [], typeAliases := [], constants := [], macros := []
    routes := [previewRoute], members := [{
      name := "m_balances", ty := .generic "HashMap" [.simple "address", .simple "U256"]
      isIdentity := false, defaultValue := none, transforms := [] }] }

end CambrianLang.Solidity
