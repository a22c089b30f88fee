/-
  **Key lists over whole runs** (`apply_transforms_term`, `member_needs_keys_list`).
-/
import CambrianLang.Ghost.MapLowering
import CambrianLang.Analysis.Temporal
import CambrianLang.Validate.EvmRules
import CambrianLang.Validate.EvmTypes

namespace CambrianLang.Ghost

open Ast Prelude Traversal Validate
  Analysis

section Follows

variable {Val : Type} [DecidableEq Val] {M : Meaning Val} {entity : Entity} {s : State Val}

/-! ### Key-list terms -/

theorem nodup_eval {ρ : Scope Val} {ghost : List Val} (h : ghost.Nodup) (term : KeysTerm) :
    (term.eval M s ρ ghost).Nodup := by
  induction term with
  | ghost => exact h
  | nil => exact List.nodup_nil
  | ite c t e iht ihe =>
    rw [KeysTerm.eval]
    split
    · exact iht
    · exact ihe
  | push t k ih => exact AddressMap.nodup_pushKeyIfNew ih _
  | drop t k ih => exact AddressMap.nodup_removeKey ih _

theorem mem_foldl_push {ρ : Scope Val} {ghost : List Val} {x : Val} (ks : List Expr) :
    ∀ term : KeysTerm, x ∈ (ks.foldl KeysTerm.push term).eval M s ρ ghost ↔
      x ∈ term.eval M s ρ ghost ∨ ∃ k ∈ ks, x = M.expr s ρ k := by
  induction ks with
  | nil =>
    intro term
    simp
  | cons k ks ih =>
    intro term
    simp only [List.foldl_cons, List.mem_cons, exists_eq_or_imp]
    rw [ih, KeysTerm.eval, AddressMap.mem_pushKeyIfNew, or_assoc]

/-! ### Chains -/

theorem mapMemberName_base {member : String} {base : Expr} {method : String} {args : List Expr}
    (h : mapMemberName (.methodCall base method args) = some member) :
    mapMemberName base = some member := h

/-- A chain has the keys it inserts last and those of what comes before. -/
theorem mem_keys_chain {ρ : Scope Val} {member : String} {x : Val} (e : Expr)
    (hroot : mapMemberName e = some member) :
    x ∈ (receiverValue M entity s ρ e).keys ↔
      x ∈ (receiverValue M entity s ρ (stripInserts e)).keys ∨
        ∃ k ∈ collectInsertKeys member e, x = M.expr s ρ k := by
  induction hr : e.rank using Nat.strongRecOn generalizing e with
  | ind n ih =>
    cases e with
    | methodCall base method args =>
      cases hop : mapOp method args with
      | none => simp [stripInserts, collectInsertKeys, hop]
      | some op =>
        cases op with
        | del k => simp [stripInserts, collectInsertKeys, hop]
        | put k v =>
          have hbase : mapMemberName base = some member := mapMemberName_base hroot
          have hlt : base.rank < n := by
            rw [← hr, Expr.rank]
            omega
          have hrec := ih base.rank hlt base hbase rfl
          simp only [receiverValue, stripInserts, collectInsertKeys, hop, if_pos hbase,
            AddressMap.mem_keys_insert, List.mem_append, List.mem_singleton, or_and_right, exists_or,
            exists_eq_left]
          rw [hrec, or_assoc]
    | _ => simp [stripInserts, collectInsertKeys]

theorem mem_chain_of_follows {ρ₀ ρ : Scope Val} {member base method args}
    (hghost : ∀ x, x ∈ s.keys member ↔ x ∈ (s.maps member).keys)
    (h : ChainFollows M entity s ρ₀ ρ member base method args) (x : Val) :
    x ∈ keysAfter M s ρ₀ member (.methodCall base method args) ↔
      x ∈ (mapValue M entity s ρ (.methodCall base method args)).keys := by
  have hnone : OthersKept M s ρ member [] (mapValue M entity s ρ (.methodCall base method args)) →
      (x ∈ s.keys member ↔ x ∈ (mapValue M entity s ρ (.methodCall base method args)).keys) := by
    intro hkept
    rw [hghost]
    exact (hkept x (fun k hk => absurd hk List.not_mem_nil)).symm
  unfold ChainFollows at h
  unfold keysAfter keysUpdateTerm chainUpdate
  by_cases hbase : mapMemberName base = some member
  · rw [if_pos hbase] at h ⊢
    cases hop : mapOp method args with
    | none =>
      rw [hop] at h
      obtain ⟨hlast, hkept⟩ := h
      simp only [hlast, Option.map_none]
      exact hnone hkept
    | some op =>
      rw [hop] at h
      cases op with
      | put k v =>
        obtain ⟨hsame, hkept⟩ := h
        have hchain : x ∈ (receiverValue M entity s ρ (.methodCall base method args)).keys ↔
            x ∈ (receiverValue M entity s ρ (stripInserts (.methodCall base method args))).keys ∨
              ∃ k ∈ collectInsertKeys member (.methodCall base method args), x = M.expr s ρ k :=
          mem_keys_chain _ hbase
        have hstrip : stripInserts (.methodCall base method args) = stripInserts base := by
          simp [stripInserts, hop]
        rw [hstrip] at hchain
        simp only [mapValue]
        rw [mem_foldl_push, KeysTerm.eval, hghost, hchain]
        by_cases hin : ∃ k ∈ collectInsertKeys member (.methodCall base method args),
            x = M.expr s ρ k
        · have hout : ∃ k ∈ collectInsertKeys member (.methodCall base method args),
              x = M.expr s ρ₀ k := by
            obtain ⟨k', hk', rfl⟩ := hin
            exact ⟨k', hk', (hsame k' hk').symm⟩
          exact iff_of_true (Or.inr hout) (Or.inr hin)
        · have hout : ¬ ∃ k ∈ collectInsertKeys member (.methodCall base method args),
              x = M.expr s ρ₀ k := by
            rintro ⟨k', hk', rfl⟩
            exact hin ⟨k', hk', hsame k' hk'⟩
          rw [or_iff_left hin, or_iff_left hout]
          exact (hkept x (fun k' hk' heq => hin ⟨k', hk', heq⟩)).symm
      | del k =>
        obtain ⟨hsame, hkept⟩ := h
        have hk : M.expr s ρ₀ k = M.expr s ρ k := hsame k (List.mem_singleton.mpr rfl)
        simp only [mapValue, receiverValue, hop]
        rw [KeysTerm.eval, KeysTerm.eval, AddressMap.mem_removeKey, AddressMap.mem_keys_remove,
          hghost, hk]
        refine and_congr_left fun hne => (hkept x ?_).symm
        intro k' hk'
        rw [List.mem_singleton.mp hk']
        exact hne
  · rw [if_neg hbase] at h ⊢
    exact hnone h

/-! ### Bodies -/

theorem last_of_follows {ρ₀ ρ : Scope Val} {member : String} (items : List Expr)
    (h : LastFollows M entity s ρ₀ member ρ items) : ∃ e ∈ items,
      Follows M entity s ρ₀ member ρ e ∧ lastUpdate member items = keysUpdateTerm member e ∧
        lastValue M entity s ρ items = mapValue M entity s ρ e := by
  induction items with
  | nil => exact absurd h (by simp [LastFollows])
  | cons e es ih =>
    cases es with
    | nil => exact ⟨e, List.mem_cons_self, h, rfl, rfl⟩
    | cons e' es =>
      obtain ⟨last, hlast, hfollows, hupdate, hvalue⟩ := ih h
      exact ⟨last, List.mem_cons_of_mem _ hlast, hfollows, hupdate, hvalue⟩

/-- **The key update follows the value of a body** wherever `Follows` says so. -/
theorem mem_keysAfter {ρ₀ : Scope Val} {member : String}
    (hghost : ∀ x, x ∈ s.keys member ↔ x ∈ (s.maps member).keys) (e : Expr) :
    ∀ ρ, Follows M entity s ρ₀ member ρ e → ∀ x, x ∈ keysAfter M s ρ₀ member e ↔
      x ∈ (mapValue M entity s ρ e).keys := by
  induction hr : e.rank using Nat.strongRecOn generalizing e with
  | ind n ih =>
    intro ρ h x
    have hplain : OthersKept M s ρ member [] (mapValue M entity s ρ e) →
        (x ∈ s.keys member ↔ x ∈ (mapValue M entity s ρ e).keys) := by
      intro hkept
      rw [hghost]
      exact (hkept x (fun k hk => absurd hk List.not_mem_nil)).symm
    cases e with
    | emptyCollection =>
      simp only [keysAfter, keysUpdateTerm, KeysTerm.eval, mapValue]
      exact Iff.rfl
    | methodCall base method args => exact mem_chain_of_follows hghost h x
    | letE p v b =>
      have hlt : b.rank < n := by
        rw [← hr, Expr.rank]
        omega
      exact ih b.rank hlt b rfl (M.bind p (M.expr s ρ v) ρ) h x
    | block items =>
      obtain ⟨last, hlast, hfollows, hupdate, hvalue⟩ := last_of_follows items h
      have hlt : last.rank < n := by
        rw [← hr, Expr.rank]
        exact Nat.lt_one_add_iff.mpr (rank_le_rankList hlast)
      have hrec := ih last.rank hlt last rfl ρ hfollows x
      simp only [keysAfter, keysUpdateTerm, mapValue] at hrec ⊢
      rw [hupdate, hvalue]
      exact hrec
    | ifE c t els =>
      cases els with
      | none => exact absurd h (by simp [Follows])
      | some e =>
        have hltT : t.rank < n := by
          rw [← hr, Expr.rank]
          omega
        have hltE : e.rank < n := by
          rw [← hr, Expr.rank, rankOption]
          omega
        obtain ⟨htruth, hbranch⟩ := h
        -- the update, as the branch the condition selects where the update is written
        have hafter : x ∈ keysAfter M s ρ₀ member (.ifE c t (some e)) ↔
            x ∈ (if M.truth (M.expr s ρ₀ c) then keysAfter M s ρ₀ member t
              else keysAfter M s ρ₀ member e) := by
          unfold keysAfter
          rw [keysUpdateTerm]
          cases keysUpdateTerm member t <;> cases keysUpdateTerm member e <;>
            simp [KeysTerm.eval]
        have hsame : x ∈ keysAfter M s ρ₀ member (.ifE c t (some e)) ↔
            x ∈ (if M.truth (M.expr s ρ c) then keysAfter M s ρ₀ member t
              else keysAfter M s ρ₀ member e) := by
          rw [hafter]
          rcases htruth with heq | ⟨hnt, hne⟩
          · rw [heq]
          · have ht : keysAfter M s ρ₀ member t = keysAfter M s ρ₀ member e := by
              unfold keysAfter
              rw [hnt, hne]
            rw [ht, ite_self, ite_self]
        rw [hsame, mapValue]
        by_cases hc : M.truth (M.expr s ρ c) = true
        · rw [if_pos hc] at hbranch
          rw [if_pos hc, if_pos hc]
          exact ih t.rank hltT t rfl ρ hbranch x
        · rw [if_neg hc] at hbranch
          rw [if_neg hc, if_neg hc]
          exact ih e.rank hltE e rfl ρ hbranch x
    | _ => exact hplain h

end Follows

/-! ### Members with a key list -/

/-- What `member_needs_keys_list` looks for. -/
def iterates (member : String) : Expr → Bool
  | .methodCall (.ident n) method args =>
      n == member &&
        ((["is_empty", "len", "keys", "values", "iter"].contains method && args.isEmpty) ||
          ["fold", "collect", "filter", "map", "take", "enumerate", "len"].contains method)
  | .forE _ (.ident n) _ => n == member
  | _ => false

/-- `walk_expr` of `member_needs_keys_list`. -/
def keysWalker : Walker Expr Expr where
  own e := [e]
  visited
    | .arrayLit _ => []
    | .recordUpdate _ fs => fs.map Prod.snd
    | e => e.children
  rank := Expr.rank
  rank_lt {e c} h := by
    refine rank_child_lt ?_
    cases e with
    | recordUpdate b fs => exact mem_children_recordUpdate h
    | arrayLit => exact absurd h List.not_mem_nil
    | _ => exact h

def iteratesIn (member : String) (e : Expr) : Bool := (keysWalker.walk e).any (iterates member)

/-- `entity_walks_any`. -/
def entityWalksAny (entity : Entity) (walk : Expr → Bool) : Bool :=
  (entity.routes.any fun r =>
    (r.body.allActions.any fun a => (walkActionSubtree.walk a).any fun b => b.exprs.any walk) ||
      (r.whereClauses.any fun w => walk w.condition) ||
      r.fromClauses.any fun fc => fc.args.any walk) ||
  entity.members.any fun m => m.defaultValue.any walk || m.transforms.any fun t => walk t.body

/-- `member_needs_keys_list`. -/
def memberNeedsKeysList (entity : Entity) (member : String) : Bool :=
  entityWalksAny entity (iteratesIn member)

/-- `hashmap_members_needing_keys`: the members for which the state has a key list. -/
def hashmapMembersNeedingKeys (entity : Entity) : List String :=
  (entity.members.filter fun m => memberIsHashmap m && memberNeedsKeysList entity m.name).map
    Member.name

/-- Where a read of a map's keys goes. -/
inductive KeysSource where
  | ghost
  | pairs
deriving DecidableEq

/-- `hashmap_keys_list`. -/
def hashmapKeysList (entity : Entity) (name : String) : KeysSource :=
  if memberNeedsKeysList entity name then .ghost else .pairs

/-- `keys`, `len` and `is_empty` in `try_gen_map_method_call`. -/
def methodKeys (entity : Entity) (name : String) : KeysSource :=
  if isMapMember entity name && memberNeedsKeysList entity name then .ghost else .pairs

/-- The source of an iterator chain in `resolve_chain_source`. -/
def chainKeys (entity : Entity) (name : String) : KeysSource :=
  if isMapMember entity name then hashmapKeysList entity name else .pairs

/-- The list a loop runs over in `resolve_iter_list`. -/
def loopKeys (entity : Entity) (name : String) : KeysSource :=
  match entity.members.find? (·.name == name) with
  | some m => if isHashMap m.ty then hashmapKeysList entity name else .pairs
  | none => .pairs

/-- What reads a member's key list reads one the state has. -/
def GhostReadsDeclared (entity : Entity) : Prop :=
  ∀ name, methodKeys entity name = .ghost ∨ chainKeys entity name = .ghost ∨
    loopKeys entity name = .ghost → name ∈ hashmapMembersNeedingKeys entity

theorem mem_hashmapMembersNeedingKeys {entity : Entity} {m : Member} (hm : m ∈ entity.members)
    (hmap : memberIsHashmap m = true) (hneeds : memberNeedsKeysList entity m.name = true) :
    m.name ∈ hashmapMembersNeedingKeys entity := by
  refine List.mem_map.mpr ⟨m, List.mem_filter.mpr ⟨hm, ?_⟩, rfl⟩
  rw [hmap, hneeds]
  rfl

theorem needs_of_ghost {entity : Entity} {name : String}
    (h : hashmapKeysList entity name = .ghost) : memberNeedsKeysList entity name = true := by
  rw [hashmapKeysList] at h
  split at h
  · assumption
  · cases h

theorem ghostReadsDeclared {entity : Entity}
    (harity : ∀ m ∈ entity.members, isHashMap m.ty = true → memberIsHashmap m = true) :
    GhostReadsDeclared entity := by
  have hmember : ∀ name, isMapMember entity name = true → memberNeedsKeysList entity name = true →
      name ∈ hashmapMembersNeedingKeys entity := by
    intro name hmap hneeds
    obtain ⟨m, hm, hboth⟩ := List.any_eq_true.mp hmap
    rw [Bool.and_eq_true, beq_iff_eq] at hboth
    obtain ⟨rfl, hhash⟩ := hboth
    exact mem_hashmapMembersNeedingKeys hm hhash hneeds
  intro name hread
  rcases hread with hread | hread | hread
  · rw [methodKeys] at hread
    split at hread
    · rename_i hboth
      rw [Bool.and_eq_true] at hboth
      exact hmember name hboth.1 hboth.2
    · cases hread
  · rw [chainKeys] at hread
    split at hread
    · rename_i hmap
      exact hmember name hmap (needs_of_ghost hread)
    · cases hread
  · rw [loopKeys] at hread
    split at hread
    · rename_i m hfind
      split at hread
      · rename_i hhash
        have hm := List.mem_of_find?_eq_some hfind
        have hname : m.name = name := beq_iff_eq.mp (List.find?_some (p := fun x : Member => x.name == name) hfind)
        subst hname
        exact mem_hashmapMembersNeedingKeys hm (harity m hm hhash) (needs_of_ghost hread)
      · cases hread
    · cases hread

/-! ### Runs -/

/-- `pattern_binder`. -/
def patternBinder : Pattern → String
  | .ident name => name
  | .deref inner => patternBinder inner
  | .wildcard | .tuple _ | .some _ | .none => "_"

/-- One place where a route applies its transforms: the route and phase, the values of the
    route's arguments and of the results captured in earlier phases, and what the other
    members become. -/
structure Call (Val : Type) where
  route : Route
  phase : Option String
  args : List Val
  captured : List (String × Val)
  vals : String → Val

section Runs

variable {Val : Type} [DecidableEq Val]

/-- Later binders hide earlier ones. -/
def scopeOf (names : List String) (args : List Val) (captured : List (String × Val)) : Scope Val :=
  fun x => (names.zip args ++ captured).reverse.lookup x

/-- The binders of the `def` written for a transform. -/
def binderNames (r : Route) (t : MemberTransform) : List String :=
  (List.range r.params.length).map fun i => (t.params[i]?.map patternBinder).getD "_"

/-- The scope of the route, where the key update is written. -/
def routeScope (c : Call Val) : Scope Val := scopeOf (c.route.params.map Param.name) c.args c.captured

/-- The scope of a transform's `def`, called with the route's arguments. -/
def transformScope (c : Call Val) (t : MemberTransform) : Scope Val :=
  scopeOf (binderNames c.route t) c.args c.captured

/-- The transform of a member that a call applies. -/
def transformOf (entity : Entity) (c : Call Val) (name : String) : Option (Member × MemberTransform) :=
  (collectTransforms entity c.route.name c.phase).find? fun rt => rt.1.name == name

variable (M : Meaning Val) (entity : Entity) (checked : Expr → Bool)

/-- `transforms_use_checked_arith`: some body is one of those `transform_body_checked` is true of. -/
def transformsUseCheckedArith (c : Call Val) : Bool :=
  (collectTransforms entity c.route.name c.phase).any fun rt => checked rt.2.body

/-- `apply_transforms_term`.  The term written when some body is checked updates no key list. -/
def applyTransforms (c : Call Val) (s : State Val) : State Val where
  maps name :=
    match transformOf entity c name with
    | some rt =>
        if memberIsHashmap rt.1 then mapValue M entity s (transformScope c rt.2) rt.2.body
        else s.maps name
    | none => s.maps name
  keys name :=
    match transformOf entity c name with
    | some rt =>
        if memberIsHashmap rt.1 && memberNeedsKeysList entity name &&
            !transformsUseCheckedArith entity checked c then
          keysAfter M s (routeScope c) name rt.2.body
        else s.keys name
    | none => s.keys name
  vals := c.vals

/-- `State.default`. -/
def defaultState (vals : String → Val) : State Val where
  maps name :=
    match (entity.members.find? (·.name == name)).bind (·.defaultValue) with
    | some e => mapValue M entity ⟨fun _ => [], fun _ => [], vals⟩ (fun _ => none) e
    | none => AddressMap.empty
  keys _ := []
  vals := vals

/-- The states of the entity in any run. -/
inductive Reached : State Val → Prop
  | default (vals : String → Val) : Reached (defaultState M entity vals)
  | step {s : State Val} {c : Call Val} : Reached s → c.route ∈ entity.routes →
      Reached (applyTransforms M entity checked c s)

/-- Every map member that has a key list has its keys in it. -/
def KeysTracked (s : State Val) : Prop :=
  ∀ m ∈ entity.members, memberIsHashmap m = true → memberNeedsKeysList entity m.name = true →
    Tracks (s.keys m.name) (s.maps m.name)

/-- In this state, the key updates of the call follow its transforms. -/
def CallFollows (c : Call Val) (s : State Val) : Prop :=
  ∀ name rt, transformOf entity c name = some rt → memberIsHashmap rt.1 = true →
    memberNeedsKeysList entity name = true →
    if transformsUseCheckedArith entity checked c then
      OthersKept M s (transformScope c rt.2) name []
        (mapValue M entity s (transformScope c rt.2) rt.2.body)
    else Follows M entity s (routeScope c) name (transformScope c rt.2) rt.2.body

/-- The states of runs from an empty default in which every call follows. -/
inductive Followed : State Val → Prop
  | default (vals : String → Val) :
      (∀ name, memberNeedsKeysList entity name = true →
        (defaultState M entity vals).maps name = AddressMap.empty) →
      Followed (defaultState M entity vals)
  | step {s : State Val} {c : Call Val} : Followed s → c.route ∈ entity.routes →
      CallFollows M entity checked c s → Followed (applyTransforms M entity checked c s)

variable {M entity checked}

/-- One call keeps a tracked list tracked. -/
theorem tracks_applyTransforms {c : Call Val} {s : State Val}
    (hfollows : CallFollows M entity checked c s) {name : String}
    (hneeds : memberNeedsKeysList entity name = true) (h : Tracks (s.keys name) (s.maps name)) :
    Tracks ((applyTransforms M entity checked c s).keys name)
      ((applyTransforms M entity checked c s).maps name) := by
  cases hof : transformOf entity c name with
  | none =>
    simp only [applyTransforms, hof]
    exact h
  | some rt =>
    simp only [applyTransforms, hof, hneeds, Bool.and_true]
    cases hmap : memberIsHashmap rt.1 with
    | false =>
      simp only [Bool.false_and, Bool.false_eq_true, if_false]
      exact h
    | true =>
      have hcall := hfollows name rt hof hmap hneeds
      cases hchecked : transformsUseCheckedArith entity checked c with
      | true =>
        rw [if_pos hchecked] at hcall
        simp only [Bool.not_true, Bool.and_false, Bool.false_eq_true, if_false, if_true]
        refine ⟨h.nodup, fun x => ?_⟩
        rw [h.mem_iff]
        exact (hcall x (fun k hk => absurd hk List.not_mem_nil)).symm
      | false =>
        rw [if_neg (by rw [hchecked]; exact Bool.false_ne_true)] at hcall
        simp only [Bool.not_false, Bool.and_true, if_true]
        refine ⟨?_, mem_keysAfter h.mem_iff rt.2.body _ hcall⟩
        unfold keysAfter
        split
        · exact nodup_eval h.nodup _
        · exact h.nodup

/-- **In every run whose calls follow, the key lists list the keys.** -/
theorem keysTracked_of_followed {s : State Val} (h : Followed M entity checked s) :
    KeysTracked entity s := by
  intro m _ _ hneeds
  induction h with
  | default vals hempty =>
    rw [hempty m.name hneeds]
    exact tracks_empty
  | step _ _ hfollows ih => exact tracks_applyTransforms hfollows hneeds ih

/-- **The key lists of a generated project**: listed keys in followed runs, and read only
    where there is a list. -/
theorem keyLists_sound (M : Meaning Val) (entity : Entity) (checked : Expr → Bool)
    (harity : ∀ m ∈ entity.members, isHashMap m.ty = true → memberIsHashmap m = true) :
    (∀ s, Followed M entity checked s → KeysTracked entity s) ∧ GhostReadsDeclared entity :=
  ⟨fun _ hs => keysTracked_of_followed hs, ghostReadsDeclared harity⟩

end Runs

/-! ### A seat that changes hands -/

/-- Names stand for numbers; no other expression occurs below. -/
def natMeaning : Meaning Nat where
  expr
    | _, ρ, .ident x => (ρ x).getD 0
    | _, _, _ => 0
  truth v := v != 0
  asMap _ := AddressMap.empty
  bind _ _ ρ := ρ

def swapRoute : Route where
  name := "swap"
  params := [{ name := "to", ty := .simple "u64" }, { name := "from", ty := .simple "u64" }]
  fromClauses := []
  whereClauses := []
  returnType := none
  body := .unphased []
  isView := false
  isPure := false
  isInit := false
  isAccept := false
  isPrivate := false
  recoverTag := none
  factoryOnly := false

/-- `view route count(): u64 => [ return(holders.len()) ]`. -/
def countRoute : Route :=
  { swapRoute with
    name := "count"
    params := []
    returnType := some (.simple "u64")
    body := .unphased [.ret [.methodCall (.ident "holders") "len" []]]
    isView := true }

/-- `in swap(to, from) => body`. -/
def onSwap (body : Expr) : MemberTransform where
  routeName := "swap"
  params := [.ident "to", .ident "from"]
  body := body
  phase := none

def holders (body : Expr) : Member where
  name := "holders"
  ty := .generic "HashMap" [.simple "u64", .simple "u64"]
  isIdentity := false
  defaultValue := none
  transforms := [onSwap body]

def seats (body : Expr) : Entity where
  name := "Seats"
  records := []
  enums := []
  typeAliases := []
  constants := []
  macros := []
  routes := [swapRoute, countRoute]
  members := [holders body]

/-- `swap(1, 2)`. -/
def swapCall : Call Nat := ⟨swapRoute, none, [1, 2], [], fun _ => 0⟩

/-- `holders.insert(to, to)`. -/
def seatTo : Expr := .methodCall (.ident "holders") "insert" [.ident "to", .ident "to"]

/-- `holders.insert(to, to).remove(from)`. -/
def moveSeat : Expr := .methodCall seatTo "remove" [.ident "from"]

/-- After `swap(1, 2)` on the empty map the pair list has key 1 and the key list is empty. -/
theorem moved_seat_not_listed : ∃ s, Reached natMeaning (seats moveSeat) (fun _ => false) s ∧
    ¬ KeysTracked (seats moveSeat) s := by
  refine ⟨_, .step (c := swapCall) (.default fun _ => 0) List.mem_cons_self, ?_⟩
  intro htracked
  have h := htracked _ List.mem_cons_self rfl (by decide)
  exact absurd ((h.mem_iff 1).mpr (by decide)) (by decide)

theorem callFollows_seatTo (s : State Nat) :
    CallFollows natMeaning (seats seatTo) (fun _ => false) swapCall s := by
  intro name rt hof _ _
  have hmem := List.mem_of_find?_eq_some hof
  have hname := List.find?_some (p := fun rt : Member × MemberTransform => rt.1.name == name) hof
  have hrt : rt = (holders seatTo, onSwap seatTo) := List.mem_singleton.mp hmem
  subst hrt
  have hholders : "holders" = name := beq_iff_eq.mp hname
  subst hholders
  rw [if_neg (by decide)]
  refine ⟨?_, ?_⟩
  · intro k hk
    rw [List.mem_singleton.mp hk]
    change (routeScope swapCall "to").getD 0 = (transformScope swapCall (onSwap seatTo) "to").getD 0
    decide
  · intro x _
    exact Iff.rfl

/-- With `holders.insert(to, to)` alone the list follows. -/
theorem seatTo_listed :
    KeysTracked (seats seatTo) (applyTransforms natMeaning (seats seatTo) (fun _ => false) swapCall
      (defaultState natMeaning (seats seatTo) fun _ => 0)) ∧ GhostReadsDeclared (seats seatTo) := by
  have hsound := keyLists_sound natMeaning (seats seatTo) (fun _ => false) (by decide)
  refine ⟨hsound.1 _ (.step (.default _ ?_) List.mem_cons_self (callFollows_seatTo _)), hsound.2⟩
  intro name _
  simp only [defaultState]
  cases hfind : ((seats seatTo).members.find? (·.name == name)) with
  | none => rfl
  | some m =>
    have hm : m = holders seatTo := List.mem_singleton.mp (List.mem_of_find?_eq_some hfind)
    rw [hm]
    rfl

end CambrianLang.Ghost
