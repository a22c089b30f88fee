/-
  **The order a map is iterated in** (`hashmap_keys_list`, `resolve_chain_source` in
  `codegen/lean/core/iter.rs`; the `_keys` arrays of `gen_mapping_transform_split`).

  The Solidity of an iterated map takes a key out by moving the last one into its
  place; the key list of the Lean model drops it where it stands.  The two stay in
  step as long as no key is taken out that has two keys after it
  (`listAfter_eq_iff`).  A pure function is given the pair list itself, whose order
  is that of the last writes, latest first.
-/
import CambrianLang.Ghost.KeyLists
import CambrianLang.Solidity.MapTransforms

namespace CambrianLang.Ghost

open Ast Prelude Analysis Solidity
open EnumerableMap

variable {Val : Type} [DecidableEq Val] [Inhabited Val]

/-! ### One write -/

section Writes

def writeGhost (ks : List Val) : EntryWrite Val → List Val
  | .put k _ => AddressMap.pushKeyIfNew ks k
  | .del k => AddressMap.removeKey ks k

def writePairs (ps : AddressMap Val Val) : EntryWrite Val → AddressMap Val Val
  | .put k v => ps.insert k v
  | .del k => ps.remove k

/-- The array of keys after a write. -/
def listAfter (l : List Val) : EntryWrite Val → List Val
  | .put k _ => push l k
  | .del k => swapRemove k l

/-- A key that is taken out has at most one key after it. -/
def KeepsOrder (l : List Val) : EntryWrite Val → Prop
  | .put _ _ => True
  | .del k => NearEnd k l

def AllKeepOrder : List Val → List (EntryWrite Val) → Prop
  | _, [] => True
  | l, w :: ws => KeepsOrder l w ∧ AllKeepOrder (listAfter l w) ws

omit [Inhabited Val] in
/-- **Array and key list agree after a write exactly when it keeps the order.** -/
theorem listAfter_eq_iff {l : List Val} (h : l.Nodup) (w : EntryWrite Val) :
    listAfter l w = writeGhost l w ↔ KeepsOrder l w := by
  cases w with
  | put k v =>
    refine iff_of_true ?_ trivial
    simp only [listAfter, writeGhost, push, AddressMap.pushKeyIfNew, List.contains_iff_mem]
  | del k => exact swapRemove_eq_filter_iff h

/-- The table holds what the pair list holds. -/
structure Mirrors (t : EnumerableMap Val Val) (ps : AddressMap Val Val) : Prop where
  wf : t.Wf
  mem_iff : ∀ x, x ∈ t.keys ↔ x ∈ ps.keys
  lookup_eq : ∀ x, ps.lookup x = some (t.value x)

omit [Inhabited Val] in
theorem find_remove {ps : AddressMap Val Val} {k x : Val} (h : x ≠ k) :
    (ps.remove k).find? (fun p => p.1 = x) = ps.find? fun p => p.1 = x := by
  rw [AddressMap.remove, List.find?_filter]
  congr 1
  funext p
  by_cases hp : p.1 = x
  · simp [hp, h]
  · simp [hp]

theorem lookup_insert (ps : AddressMap Val Val) (k v x : Val) :
    (ps.insert k v).lookup x = if x = k then some v else ps.lookup x := by
  by_cases h : x = k
  · subst h
    simp [AddressMap.lookup, AddressMap.insert]
  · have hfind : (ps.remove k).find? (fun p => p.1 = x) = ps.find? fun p => p.1 = x :=
      find_remove h
    rw [AddressMap.remove] at hfind
    rw [if_neg h, AddressMap.lookup, AddressMap.insert,
      List.find?_cons_of_neg (by simpa using Ne.symm h), hfind, AddressMap.lookup]

theorem lookup_remove (ps : AddressMap Val Val) (k x : Val) :
    (ps.remove k).lookup x = if x = k then some default else ps.lookup x := by
  by_cases h : x = k
  · subst h
    have hnone : (ps.remove x).find? (fun p => p.1 = x) = none := by
      rw [List.find?_eq_none]
      intro p hp
      have hne := (List.mem_filter.mp hp).2
      simpa using hne
    rw [AddressMap.lookup, hnone, if_pos rfl]
    rfl
  · rw [AddressMap.lookup, find_remove h, if_neg h, AddressMap.lookup]

theorem mirrors_empty : Mirrors (EnumerableMap.empty : EnumerableMap Val Val) AddressMap.empty where
  wf := wf_empty
  mem_iff _ := Iff.rfl
  lookup_eq _ := rfl

/-- **A write is made on the table as on the pair list**, without panic. -/
theorem mirrors_exec {t : EnumerableMap Val Val} {ps : AddressMap Val Val} (h : Mirrors t ps)
    (w : EntryWrite Val) : ∃ t', w.exec t = some t' ∧ Mirrors t' (writePairs ps w) ∧
      t'.keys = listAfter t.keys w := by
  cases w with
  | put k v =>
    have hkeys : (t.put k v).keys = push t.keys k := keys_put h.wf k v
    refine ⟨t.put k v, rfl, ⟨wf_put h.wf k v, ?_, ?_⟩, hkeys⟩
    · intro x
      rw [hkeys, writePairs, AddressMap.mem_keys_insert, ← h.mem_iff, push]
      split
      · next hk =>
        constructor
        · exact Or.inl
        · rintro (hx | rfl)
          · exact hx
          · exact hk
      · rw [List.mem_append, List.mem_singleton]
    · intro x
      rw [writePairs, lookup_insert, value_put, Function.update_apply, h.lookup_eq]
      split <;> rfl
  | del k =>
    obtain ⟨t', hdel, hwf, hkeys, hvalue⟩ := del_spec h.wf k
    refine ⟨t', hdel, ⟨hwf, ?_, ?_⟩, hkeys⟩
    · intro x
      rw [hkeys, mem_swapRemove h.wf.nodup, writePairs, AddressMap.mem_keys_remove, h.mem_iff]
    · intro x
      rw [writePairs, lookup_remove, hvalue, Function.update_apply, h.lookup_eq]
      split <;> rfl

theorem mirrors_execWrites (ws : List (EntryWrite Val)) : ∀ {t : EnumerableMap Val Val}
    {ps : AddressMap Val Val}, Mirrors t ps → ∃ t', execWrites ws t = some t' ∧
      Mirrors t' (ws.foldl writePairs ps) ∧
        (AllKeepOrder t.keys ws → t'.keys = ws.foldl writeGhost t.keys) := by
  induction ws with
  | nil =>
    intro t ps h
    exact ⟨t, rfl, h, fun _ => rfl⟩
  | cons w ws ih =>
    intro t ps h
    obtain ⟨t₁, hexec, h₁, hkeys⟩ := mirrors_exec h w
    obtain ⟨t', hrest, h', hlist⟩ := ih h₁
    refine ⟨t', ?_, h', ?_⟩
    · rw [execWrites, List.foldlM_cons, hexec]
      exact hrest
    · rintro ⟨hw, hws⟩
      have hstep : t₁.keys = writeGhost t.keys w :=
        hkeys.trans ((listAfter_eq_iff h.wf.nodup w).mpr hw)
      rw [List.foldl_cons, ← hstep]
      apply hlist
      rw [hkeys]
      exact hws

end Writes

/-! ### One body -/

section Bodies

variable (M : Meaning Val) (entity : Entity) (s : State Val) (ρ₀ : Scope Val) (listed : Bool)
variable (read : Reading Val) (member : String)

/-- A key is the same in the storage write, in the pair list and, for a map with a key list,
    in the scope the list is updated in. -/
def KeyAlike (place : List Nat) (ρ : Scope Val) (k : Expr) : Prop :=
  read place ρ k = M.expr s ρ k ∧ (listed = true → M.expr s ρ₀ k = M.expr s ρ k)

mutual
/-- Along the branch it takes, the body is the member, a chain of insertions into it or one
    removal from it, and reads the same everywhere. -/
def SameWrites : List Nat → Scope Val → Expr → Prop
  | _, ρ, .ident name => name = member ∧ ρ name = none
  | place, ρ, .methodCall base method args =>
      match mapOp method args with
      | some (.put _ _) =>
          stripInserts (.methodCall base method args) = .ident member ∧
            ∃ kvs, collectUpdateChain member (.methodCall base method args) = some kvs ∧
              ∀ kv ∈ kvs, KeyAlike M s ρ₀ listed read place ρ kv.1 ∧
                read place ρ kv.2 = M.expr s ρ kv.2
      | some (.del k) => base = .ident member ∧ KeyAlike M s ρ₀ listed read place ρ k
      | none => False
  | place, ρ, .ifE c t (some e) =>
      M.truth (read place ρ c) = M.truth (M.expr s ρ c) ∧
        (listed = true → M.truth (M.expr s ρ₀ c) = M.truth (M.expr s ρ c) ∨
          (keysUpdateTerm member t = none ∧ keysUpdateTerm member e = none)) ∧
        if M.truth (M.expr s ρ c) then SameWrites (place ++ [0]) ρ t
        else SameWrites (place ++ [1]) ρ e
  | place, ρ, .letE (.ident x) v b =>
      letKind entity x v = .bound ∧ read place ρ v = M.expr s ρ v ∧
        SameWrites place (M.bind (.ident x) (M.expr s ρ v) ρ) b
  | place, ρ, .block items => OnlySameWrites place ρ items
  | _, _, _ => False
def OnlySameWrites : List Nat → Scope Val → List Expr → Prop
  | place, ρ, [e] => SameWrites (place ++ [0]) ρ e
  | _, _, _ => False
end

variable {M entity s ρ₀ listed read member}

omit [Inhabited Val] in
/-- A chain of insertions into the member, on the pair list and on the key list. -/
theorem chain_writes (hmem : isMapMember entity member = true) {ρ : Scope Val} (e : Expr) :
    ∀ kvs, stripInserts e = .ident member → collectUpdateChain member e = some kvs →
      mapMemberName e = some member ∧ collectInsertKeys member e = kvs.map Prod.fst ∧
        receiverValue M entity s ρ e =
          kvs.foldl (fun ps kv => ps.insert (M.expr s ρ kv.1) (M.expr s ρ kv.2))
            (s.maps member) := by
  induction hr : e.rank using Nat.strongRecOn generalizing e with
  | ind n ih =>
    intro kvs hstrip hchain
    cases e with
    | ident name =>
      cases hstrip
      simp only [collectUpdateChain, beq_self_eq_true, if_true, Option.some.injEq] at hchain
      subst hchain
      refine ⟨rfl, rfl, ?_⟩
      simp [receiverValue, mapMemberName, hmem]
    | methodCall base method args =>
      cases hop : mapOp method args with
      | none => simp [stripInserts, hop] at hstrip
      | some op =>
        cases op with
        | del k => simp [stripInserts, hop] at hstrip
        | put k v =>
          simp only [stripInserts, hop] at hstrip
          simp only [collectUpdateChain, hop] at hchain
          split at hchain
          · cases hchain
          obtain ⟨rest, hrest, rfl⟩ := Option.map_eq_some_iff.mp hchain
          have hlt : base.rank < n := by
            rw [← hr, Expr.rank]
            omega
          obtain ⟨hname, hkeys, hvalue⟩ := ih base.rank hlt base rfl rest hstrip hrest
          refine ⟨hname, ?_, ?_⟩
          · simp only [collectInsertKeys, hop, hkeys, if_pos hname, List.map_append, List.map_cons,
              List.map_nil]
          · simp only [receiverValue, hop, hvalue, List.foldl_append, List.foldl_cons,
              List.foldl_nil]
    | _ => simp [stripInserts] at hstrip

omit [Inhabited Val] in
/-- The update of an `if` is that of the branch the condition selects where it is written. -/
theorem keysAfter_ifE (c t e : Expr) : keysAfter M s ρ₀ member (.ifE c t (some e)) =
    if M.truth (M.expr s ρ₀ c) then keysAfter M s ρ₀ member t else keysAfter M s ρ₀ member e := by
  unfold keysAfter
  rw [keysUpdateTerm]
  cases keysUpdateTerm member t <;> cases keysUpdateTerm member e <;> simp [KeysTerm.eval]

omit [Inhabited Val] in
theorem foldl_push_eval (kvs : List (Expr × Expr)) : ∀ term : KeysTerm,
    ((kvs.map Prod.fst).foldl KeysTerm.push term).eval M s ρ₀ (s.keys member) =
      kvs.foldl (fun ks kv => AddressMap.pushKeyIfNew ks (M.expr s ρ₀ kv.1))
        (term.eval M s ρ₀ (s.keys member)) := by
  induction kvs with
  | nil => exact fun _ => rfl
  | cons kv kvs ih => exact fun term => ih (.push term kv.1)

omit [Inhabited Val] in
/-- **What the storage is written for, the pair list and the key list are written for.** -/
theorem writes_of_same (hmem : isMapMember entity member = true) (e : Expr) :
    ∀ place ρ, SameWrites M entity s ρ₀ listed read member place ρ e →
      ∃ ws, mapWrites M entity read member place ρ e = some ws ∧
        mapValue M entity s ρ e = ws.foldl writePairs (s.maps member) ∧
          (listed = true →
            keysAfter M s ρ₀ member e = ws.foldl writeGhost (s.keys member)) := by
  induction hr : e.rank using Nat.strongRecOn generalizing e with
  | ind n ih =>
    intro place ρ h
    cases e with
    | ident name =>
      obtain ⟨rfl, hfree⟩ := h
      refine ⟨[], by simp [mapWrites], ?_, fun _ => rfl⟩
      simp [mapValue, hfree, hmem]
    | methodCall base method args =>
      cases hop : mapOp method args with
      | none => simp [SameWrites, hop] at h
      | some op =>
        cases op with
        | put k v =>
          simp only [SameWrites, hop] at h
          obtain ⟨hstrip, kvs, hchain, hall⟩ := h
          obtain ⟨hname, hkeys, hvalue⟩ := @chain_writes _ _ M entity s _ hmem ρ _ kvs hstrip hchain
          refine ⟨kvs.map fun kv => .put (read place ρ kv.1) (read place ρ kv.2), ?_, ?_, ?_⟩
          · simp only [mapWrites, hop, hchain, Option.map_some]
          · rw [mapValue, hvalue, List.foldl_map]
            refine List.foldl_ext _ _ _ fun ps kv hkv => ?_
            obtain ⟨⟨hk, -⟩, hv⟩ := hall kv hkv
            rw [writePairs, hk, hv]
          · intro hl
            have hbase : mapMemberName base = some member := mapMemberName_base hname
            have hterm : keysUpdateTerm member (.methodCall base method args) =
                some ((kvs.map Prod.fst).foldl .push .ghost) := by
              rw [keysUpdateTerm, chainUpdate, if_pos hbase, hop, hkeys]
            rw [keysAfter, hterm]
            change KeysTerm.eval M s ρ₀ (s.keys member) _ = _
            rw [foldl_push_eval, KeysTerm.eval, List.foldl_map]
            refine List.foldl_ext _ _ _ fun ks kv hkv => ?_
            obtain ⟨⟨hk, hk₀⟩, -⟩ := hall kv hkv
            rw [writeGhost, hk, hk₀ hl]
        | del k =>
          simp only [SameWrites, hop] at h
          obtain ⟨rfl, hk, hk₀⟩ := h
          refine ⟨[.del (read place ρ k)], by simp [mapWrites, hop], ?_, ?_⟩
          · simp [mapValue, receiverValue, hop, mapMemberName, hmem, writePairs, hk]
          · intro hl
            have hroot : mapMemberName (.ident member) = some member := rfl
            have hterm : keysUpdateTerm member (.methodCall (.ident member) method args) =
                some (.drop .ghost k) := by
              rw [keysUpdateTerm, chainUpdate, if_pos hroot, hop]
            rw [keysAfter, hterm]
            simp only [KeysTerm.eval, List.foldl_cons, List.foldl_nil, writeGhost]
            rw [hk, hk₀ hl]
    | ifE c t els =>
      cases els with
      | none => exact absurd h (by simp [SameWrites])
      | some e =>
        have hltT : t.rank < n := by
          rw [← hr, Expr.rank]
          omega
        have hltE : e.rank < n := by
          rw [← hr, Expr.rank, rankOption]
          omega
        simp only [SameWrites] at h
        obtain ⟨hread, hlisted, hbranch⟩ := h
        -- where the update is written the condition selects the same branch, or none matters
        have hkeys : listed = true → keysAfter M s ρ₀ member (.ifE c t (some e)) =
            if M.truth (M.expr s ρ c) then keysAfter M s ρ₀ member t
            else keysAfter M s ρ₀ member e := by
          intro hl
          rw [keysAfter_ifE]
          rcases hlisted hl with heq | ⟨hnt, hne⟩
          · rw [heq]
          · have hsame : keysAfter M s ρ₀ member t = keysAfter M s ρ₀ member e := by
              unfold keysAfter
              rw [hnt, hne]
            rw [hsame, ite_self, ite_self]
        by_cases hc : M.truth (M.expr s ρ c) = true
        · rw [if_pos hc] at hbranch hkeys
          obtain ⟨ws, hws, hpairs, hghost⟩ := ih t.rank hltT t rfl _ _ hbranch
          refine ⟨ws, ?_, ?_, fun hl => (hkeys hl).trans (hghost hl)⟩
          · rw [mapWrites, hread, if_pos hc]
            exact hws
          · rw [mapValue, if_pos hc]
            exact hpairs
        · rw [if_neg hc] at hbranch hkeys
          obtain ⟨ws, hws, hpairs, hghost⟩ := ih e.rank hltE e rfl _ _ hbranch
          refine ⟨ws, ?_, ?_, fun hl => (hkeys hl).trans (hghost hl)⟩
          · rw [mapWrites, hread, if_neg hc]
            exact hws
          · rw [mapValue, if_neg hc]
            exact hpairs
    | letE p v b =>
      cases p with
      | ident x =>
        simp only [SameWrites] at h
        obtain ⟨hkind, hread, hbody⟩ := h
        have hlt : b.rank < n := by
          rw [← hr, Expr.rank]
          omega
        obtain ⟨ws, hws, hpairs, hghost⟩ := ih b.rank hlt b rfl _ _ hbody
        refine ⟨ws, ?_, ?_, hghost⟩
        · simp only [mapWrites, hkind, hread]
          exact hws
        · rw [mapValue]
          exact hpairs
      | _ => exact absurd h (by simp [SameWrites])
    | block items =>
      obtain ⟨e, rfl⟩ : ∃ e, items = [e] := by
        cases items with
        | nil => exact absurd h (by simp [SameWrites, OnlySameWrites])
        | cons e rest =>
          cases rest with
          | nil => exact ⟨e, rfl⟩
          | cons _ _ => exact absurd h (by simp [SameWrites, OnlySameWrites])
      have hlt : e.rank < n := by
        rw [← hr, Expr.rank, rankList]
        omega
      have hone : SameWrites M entity s ρ₀ listed read member (place ++ [0]) ρ e := by
        simpa only [SameWrites, OnlySameWrites] using h
      obtain ⟨ws, hws, hpairs, hghost⟩ := ih e.rank hlt e rfl _ _ hone
      refine ⟨ws, ?_, ?_, ?_⟩
      · simp only [mapWrites, itemWrites, hws, List.append_nil]
      · simp only [mapValue, lastValue]
        exact hpairs
      · intro hl
        rw [← hghost hl]
        simp only [keysAfter, keysUpdateTerm, lastUpdate]
    | _ => exact absurd h (by simp [SameWrites])

end Bodies

/-! ### Runs -/

/-- A call with what its transforms read when the Solidity runs. -/
structure EvmCall (Val : Type) extends Call Val where
  read : MemberTransform → Reading Val

/-- The tables of the maps. -/
abbrev Tables (Val : Type) := String → EnumerableMap Val Val

section Runs

variable (M : Meaning Val) (entity : Entity) (checked : Expr → Bool)

/-- The transforms of a member that a call applies. -/
def transformsOf (c : Call Val) (name : String) : List (Member × MemberTransform) :=
  (collectTransforms entity c.route.name c.phase).filter (·.1.name == name)

/-- What the call writes to the table of a map, transform after transform. -/
def callWrites (c : EvmCall Val) (name : String) : Option (List (EntryWrite Val)) :=
  (transformsOf entity c.toCall name).foldr
    (fun rt rest =>
      match mapWrites M entity (c.read rt.2) name [] (transformScope c.toCall rt.2) rt.2.body, rest with
      | some ws, some ws' => some (ws ++ ws')
      | _, _ => none)
    (some [])

/-- The Solidity side of a call that does not revert. -/
def EvmStep (c : EvmCall Val) (τ τ' : Tables Val) : Prop :=
  ∀ name, isMapMember entity name = true →
    ∀ ws, callWrites M entity c name = some ws → execWrites ws (τ name) = some (τ' name)

/-- An entity run on both sides from construction. -/
inductive Joint : State Val → Tables Val → Prop
  | default (vals : String → Val) : Joint (defaultState M entity vals) fun _ => .empty
  | step {s : State Val} {τ τ' : Tables Val} {c : EvmCall Val} : Joint s τ →
      c.route ∈ entity.routes → EvmStep M entity c τ τ' →
      Joint (applyTransforms M entity checked c.toCall s) τ'

/-- In this state each map is written by at most one transform of the call, which does the same
    everywhere; for a map with a key list no transform of the call is checked, and no key is
    taken out that has two keys after it. -/
def InOrder (c : EvmCall Val) (s : State Val) (τ : Tables Val) : Prop :=
  ∀ name rt, isMapMember entity name = true → rt ∈ transformsOf entity c.toCall name →
    transformsOf entity c.toCall name = [rt] ∧ memberIsHashmap rt.1 = true ∧
      SameWrites M entity s (routeScope c.toCall) (memberNeedsKeysList entity name) (c.read rt.2)
        name [] (transformScope c.toCall rt.2) rt.2.body ∧
      (memberNeedsKeysList entity name = true →
        transformsUseCheckedArith entity checked c.toCall = false ∧
          ∀ ws, callWrites M entity c name = some ws → AllKeepOrder (τ name).keys ws)

/-- The runs from empty maps whose calls are all in order. -/
inductive Ordered : State Val → Tables Val → Prop
  | default (vals : String → Val) :
      (∀ name, isMapMember entity name = true →
        (defaultState M entity vals).maps name = AddressMap.empty) →
      Ordered (defaultState M entity vals) fun _ => .empty
  | step {s : State Val} {τ τ' : Tables Val} {c : EvmCall Val} : Ordered s τ →
      c.route ∈ entity.routes → InOrder M entity checked c s τ → EvmStep M entity c τ τ' →
      Ordered (applyTransforms M entity checked c.toCall s) τ'

/-! ### What is read -/

/-- `hashmap_keys_list`. -/
def leanKeys (s : State Val) (name : String) : List Val :=
  match hashmapKeysList entity name with
  | .ghost => s.keys name
  | .pairs => (s.maps name).keys

/-- `hashmap_values_list`. -/
def leanValues (s : State Val) (name : String) : List Val :=
  (leanKeys entity s name).map fun k => ((s.maps name).lookup k).get!

/-- `hashmap_iter_pairs`. -/
def leanPairs (s : State Val) (name : String) : List (Val × Val) :=
  (leanKeys entity s name).map fun k => (k, ((s.maps name).lookup k).get!)

/-- The values and entries the loops over `_keys` read. -/
def tableValues (t : EnumerableMap Val Val) : List Val := t.keys.map t.value

def tableEntries (t : EnumerableMap Val Val) : List (Val × Val) := t.keys.map fun k => (k, t.value k)

variable {M entity checked}

/-- The joint invariant of a map. -/
structure InStep (entity : Entity) (s : State Val) (t : EnumerableMap Val Val) (name : String) :
    Prop where
  mirrors : Mirrors t (s.maps name)
  listed : memberNeedsKeysList entity name = true → t.keys = s.keys name

omit [Inhabited Val] in
theorem callWrites_single {c : EvmCall Val} {name : String} {rt : Member × MemberTransform}
    (h : transformsOf entity c.toCall name = [rt]) : callWrites M entity c name =
      mapWrites M entity (c.read rt.2) name [] (transformScope c.toCall rt.2) rt.2.body := by
  rw [callWrites, h, List.foldr_cons, List.foldr_nil]
  cases mapWrites M entity (c.read rt.2) name [] (transformScope c.toCall rt.2) rt.2.body with
  | none => rfl
  | some ws => simp

/-- A call in order makes its writes, and both sides stay in step. -/
theorem inStep_call {c : EvmCall Val} {s : State Val} {τ : Tables Val}
    (hc : InOrder M entity checked c s τ) {name : String} (hmem : isMapMember entity name = true)
    (h : InStep entity s (τ name) name) : ∃ ws t', callWrites M entity c name = some ws ∧
      execWrites ws (τ name) = some t' ∧
        InStep entity (applyTransforms M entity checked c.toCall s) t' name := by
  have hfind : transformOf entity c.toCall name = (transformsOf entity c.toCall name).head? :=
    List.head?_filter.symm
  cases hof : transformsOf entity c.toCall name with
  | nil =>
    rw [hof] at hfind
    refine ⟨[], τ name, by rw [callWrites, hof]; rfl, rfl, ?_, ?_⟩
    · simp only [applyTransforms, hfind, List.head?_nil]
      exact h.mirrors
    · intro hneeds
      simp only [applyTransforms, hfind, List.head?_nil]
      exact h.listed hneeds
  | cons rt rts =>
    rw [hof] at hfind
    obtain ⟨hone, hmap, hsame, hlisted⟩ := hc name rt hmem (by rw [hof]; exact List.mem_cons_self)
    obtain ⟨ws, hws, hpairs, hghost⟩ := writes_of_same hmem rt.2.body [] _ hsame
    obtain ⟨t', hexec, hmirrors, hkeys⟩ := mirrors_execWrites ws h.mirrors
    have hcall : callWrites M entity c name = some ws := (callWrites_single hone).trans hws
    refine ⟨ws, t', hcall, hexec, ?_, ?_⟩
    · simp only [applyTransforms, hfind, List.head?_cons, hmap, if_true]
      rw [hpairs]
      exact hmirrors
    · intro hneeds
      obtain ⟨hchecked, horder⟩ := hlisted hneeds
      simp only [applyTransforms, hfind, List.head?_cons, hmap, hneeds, hchecked, Bool.not_false,
        Bool.and_true, if_true]
      rw [hghost hneeds, hkeys (horder ws hcall), h.listed hneeds]

/-- **In a run whose calls are in order the two sides stay in step.** -/
theorem inStep_of_ordered {s : State Val} {τ : Tables Val} (h : Ordered M entity checked s τ)
    {name : String} (hmem : isMapMember entity name = true) : InStep entity s (τ name) name := by
  induction h with
  | default vals hempty =>
    refine ⟨?_, fun _ => rfl⟩
    rw [hempty name hmem]
    exact mirrors_empty
  | step _ _ hc hstep ih =>
    obtain ⟨ws, t', hcall, hexec, hin⟩ := inStep_call hc hmem ih
    have hsame := hstep name hmem ws hcall
    rw [hexec, Option.some.injEq] at hsame
    rw [← hsame]
    exact hin

theorem get_lookup {t : EnumerableMap Val Val} {ps : AddressMap Val Val} (h : Mirrors t ps) :
    (fun k => (ps.lookup k).get!) = t.value := by
  funext k
  rw [h.lookup_eq]
  rfl

/-- A pair list with at most one key is in no other order. -/
theorem pairs_of_short {t : EnumerableMap Val Val} {ps : AddressMap Val Val} (h : Mirrors t ps)
    (hshort : ps.length ≤ 1) : ps = tableEntries t := by
  match ps, h, hshort with
  | [], h, _ =>
    have hnil : t.keys = [] := List.eq_nil_iff_forall_not_mem.mpr fun x hx =>
      absurd ((h.mem_iff x).mp hx) List.not_mem_nil
    rw [tableEntries, hnil]
    rfl
  | [(k, v)], h, _ =>
    have hkeys : t.keys = [k] := by
      have hperm : t.keys.Perm [k] :=
        (List.perm_ext_iff_of_nodup h.wf.nodup (List.nodup_singleton k)).mpr h.mem_iff
      exact List.perm_singleton.mp hperm
    have hvalue := h.lookup_eq k
    simp only [AddressMap.lookup, List.find?_cons_of_pos, decide_true, Option.map_some,
      Option.getD_some, Option.some.injEq] at hvalue
    rw [tableEntries, hkeys, hvalue]
    rfl

/-- **Iterations run over the same sequence on both sides**, in every state of a run whose
    calls are in order: keys, values and entries of every map that is iterated where it stands,
    and those of a map given to a pure function while it has at most one key; and a call in
    order never panics. -/
theorem iteration_order (M : Meaning Val) (entity : Entity) (checked : Expr → Bool)
    (s : State Val) (τ : Tables Val) (h : Ordered M entity checked s τ) :
    (∀ name, isMapMember entity name = true →
      (memberNeedsKeysList entity name = true →
        leanKeys entity s name = (τ name).keys ∧ leanValues entity s name = tableValues (τ name) ∧
          leanPairs entity s name = tableEntries (τ name)) ∧
      ((s.maps name).length ≤ 1 →
        (s.maps name).keys = (τ name).keys ∧ (s.maps name).values = tableValues (τ name) ∧
          s.maps name = tableEntries (τ name))) ∧
    ∀ c, InOrder M entity checked c s τ → ∀ name, isMapMember entity name = true →
      ∃ ws t', callWrites M entity c name = some ws ∧ execWrites ws (τ name) = some t' := by
  constructor
  · intro name hmem
    have hin := inStep_of_ordered h hmem
    have hget := get_lookup hin.mirrors
    constructor
    · intro hneeds
      have hkeys : leanKeys entity s name = (τ name).keys := by
        rw [leanKeys, hashmapKeysList, if_pos hneeds]
        exact (hin.listed hneeds).symm
      refine ⟨hkeys, ?_, ?_⟩
      · rw [leanValues, hkeys, hget, tableValues]
      · rw [leanPairs, hkeys, tableEntries]
        refine List.map_congr_left fun k _ => ?_
        rw [← hget]
    · intro hshort
      have hpairs := pairs_of_short hin.mirrors hshort
      refine ⟨?_, ?_, hpairs⟩
      · rw [hpairs, AddressMap.keys, tableEntries, List.map_map]
        exact List.map_id _
      · rw [hpairs, AddressMap.values, tableEntries, List.map_map, tableValues]
        rfl
  · intro c hc name hmem
    obtain ⟨ws, t', hcall, hexec, -⟩ := inStep_call hc hmem (inStep_of_ordered h hmem)
    exact ⟨ws, t', hcall, hexec⟩

end Runs

/-! ### The first of three keys -/

def putRoute : Route := { swapRoute with name := "put", params := [⟨"k", .simple "u64"⟩] }

def dropRoute : Route := { putRoute with name := "drop" }

/-- `return(m.keys().fold(0, |acc, k| if acc == 0 \x7b k \x7d else \x7b acc \x7d))`. -/
def firstKeyRoute : Route :=
  { countRoute with
    name := "firstKey"
    body := .unphased [.ret [.methodCall (.methodCall (.ident "m") "keys" []) "fold"
      [.intLiteral .zero, .closure [.ident "acc", .ident "k"]
        (.ifE (.binOp (.ident "acc") .eq (.intLiteral .zero)) (.ident "k")
          (some (.ident "acc")))]]] }

/-- `m: HashMap<u64, u64>` with `in put(k) => m.insert(k, k)` and `in drop(k) => m.remove(k)`. -/
def keyOrderProbe : Entity :=
  { seats seatTo with
    name := "KeyOrderProbe"
    routes := [putRoute, dropRoute, firstKeyRoute]
    members := [{ holders seatTo with
      name := "m"
      transforms := [
        ⟨"put", [.ident "k"], .methodCall (.ident "m") "insert" [.ident "k", .ident "k"], none⟩,
        ⟨"drop", [.ident "k"], .methodCall (.ident "m") "remove" [.ident "k"], none⟩] }] }

def probeCall (route : Route) (k : Nat) : EvmCall Nat where
  route := route
  phase := none
  args := [k]
  captured := []
  vals _ := 0
  read _ _ ρ e := natMeaning.expr (defaultState natMeaning keyOrderProbe fun _ => 0) ρ e

theorem probe_step {c : EvmCall Nat} {ws : List (EntryWrite Nat)} {t t' : EnumerableMap Nat Nat}
    (hws : callWrites natMeaning keyOrderProbe c "m" = some ws) (ht : execWrites ws t = some t') :
    EvmStep natMeaning keyOrderProbe c (fun _ => t) fun _ => t' := by
  intro name hname ws' hws'
  have hm : "m" = name := by
    simpa [isMapMember, keyOrderProbe, holders, memberIsHashmap] using hname
  subst hm
  rw [hws, Option.some.injEq] at hws'
  rw [← hws']
  exact ht

/-- After `put(1)`, `put(2)`, `put(3)` and `drop(1)` the Lean model iterates `2, 3` and the
    Solidity `3, 2`. -/
theorem first_key_differs : ∃ s τ, Joint natMeaning keyOrderProbe (fun _ => false) s τ ∧
    leanKeys keyOrderProbe s "m" = [2, 3] ∧ (τ "m").keys = [3, 2] := by
  refine ⟨_, fun _ => _, .step (c := probeCall dropRoute 1) (.step (c := probeCall putRoute 3)
    (.step (c := probeCall putRoute 2) (.step (c := probeCall putRoute 1)
      (.default fun _ => 0) ?_ (probe_step rfl rfl)) ?_ (probe_step rfl rfl)) ?_
        (probe_step rfl rfl)) ?_ (probe_step rfl rfl), ?_, ?_⟩
  · exact List.mem_cons_self
  · exact List.mem_cons_self
  · exact List.mem_cons_self
  · exact List.mem_cons_of_mem _ List.mem_cons_self
  · decide
  · decide

theorem probe_inOrder {route : Route} {t : MemberTransform} {k : Nat} (s : State Nat)
    (τ : Tables Nat)
    (hone : transformsOf keyOrderProbe (probeCall route k).toCall "m" =
      [(keyOrderProbe.members.head (by decide), t)])
    (hsame : SameWrites natMeaning keyOrderProbe s (routeScope (probeCall route k).toCall) true
      ((probeCall route k).read t) "m" [] (transformScope (probeCall route k).toCall t) t.body)
    (horder : ∀ ws, callWrites natMeaning keyOrderProbe (probeCall route k) "m" = some ws →
      AllKeepOrder (τ "m").keys ws) :
    InOrder natMeaning keyOrderProbe (fun _ => false) (probeCall route k) s τ := by
  intro name rt hname hrt
  have hm : "m" = name := by
    simpa [isMapMember, keyOrderProbe, holders, memberIsHashmap] using hname
  subst hm
  rw [hone, List.mem_singleton] at hrt
  subst hrt
  have hneeds : memberNeedsKeysList keyOrderProbe "m" = true := by decide
  refine ⟨hone, rfl, ?_, fun _ => ⟨?_, horder⟩⟩
  · rw [hneeds]
    exact hsame
  · rw [transformsUseCheckedArith, List.any_eq_false]
    exact fun _ _ => Bool.false_ne_true

/-- `put(1)`, `put(2)`, `drop(1)`: only one key stands after the one taken out. -/
theorem second_key_moves_up : ∃ s τ, Ordered natMeaning keyOrderProbe (fun _ => false) s τ ∧
    leanKeys keyOrderProbe s "m" = (τ "m").keys ∧ (τ "m").keys = [2] := by
  have hput : ∀ k s (τ : Tables Nat),
      InOrder natMeaning keyOrderProbe (fun _ => false) (probeCall putRoute k) s τ := by
    intro k s τ
    refine probe_inOrder s τ rfl ⟨rfl, _, rfl, ?_⟩ ?_
    · intro kv hkv
      rw [List.mem_singleton.mp hkv]
      exact ⟨⟨rfl, fun _ => rfl⟩, rfl⟩
    · intro ws hws
      cases hws
      exact ⟨trivial, trivial⟩
  have hdrop : ∀ k s (τ : Tables Nat), NearEnd k (τ "m").keys →
      InOrder natMeaning keyOrderProbe (fun _ => false) (probeCall dropRoute k) s τ := by
    intro k s τ hnear
    refine probe_inOrder s τ rfl ⟨rfl, rfl, fun _ => rfl⟩ ?_
    intro ws hws
    cases hws
    exact ⟨hnear, trivial⟩
  have hrun : ∃ s τ, Ordered natMeaning keyOrderProbe (fun _ => false) s τ ∧
      (τ "m").keys = [2] := by
    refine ⟨_, fun _ => _, .step (c := probeCall dropRoute 1)
      (.step (c := probeCall putRoute 2) (.step (c := probeCall putRoute 1)
        (.default (fun _ => 0) ?_) ?_ (hput _ _ _) (probe_step rfl rfl)) ?_ (hput _ _ _)
          (probe_step rfl rfl)) ?_ (hdrop _ _ _ ?_) (probe_step rfl rfl), ?_⟩
    · intro name hname
      have hm : "m" = name := by
        simpa [isMapMember, keyOrderProbe, holders, memberIsHashmap] using hname
      subst hm
      rfl
    · exact List.mem_cons_self
    · exact List.mem_cons_self
    · exact List.mem_cons_of_mem _ List.mem_cons_self
    · decide
    · decide
  obtain ⟨s, τ, hordered, hkeys⟩ := hrun
  have hall := iteration_order natMeaning keyOrderProbe (fun _ => false) s τ hordered
  exact ⟨s, τ, hordered, ((hall.1 "m" (by decide)).1 (by decide)).1, hkeys⟩

end CambrianLang.Ghost
