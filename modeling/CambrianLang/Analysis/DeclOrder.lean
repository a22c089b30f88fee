/-
  **The order of declarations** (`analysis/types.rs`, `analysis/pure_order.rs`).

  Records and enums come after the types they mention and pure functions after the functions
  they call, except on cycles.  Both orders are the depth-first order of the places of the
  declarations; the names a declaration depends on are collected by a recursion over its
  types or its body.
-/
import CambrianLang.Analysis.EntityOrder
import CambrianLang.Lib.DepthFirst

namespace CambrianLang.Analysis

open Ast DepthFirst Traversal Relation

/-! ### Declarations ordered by name -/

section ByName

variable {ι : Type} (name : ι → String) (items : List ι) (edges : ι → List String)

/-- The places that the item at a place depends on. -/
def indexDeps (idx : Nat) : List Nat :=
  match items[idx]? with
  | some item => (edges item).filterMap fun n => (indexMap (items.map name)).lookup n
  | none => []

/-- From the name of an item to the name of another that it depends on. -/
def NameEdge (a b : String) : Prop :=
  b ∈ items.map name ∧ ∃ item ∈ items, name item = a ∧ b ∈ edges item

variable {name items edges}

theorem indexMap_lookup {names : List String} (hnodup : names.Nodup) {n : String} {i : Nat} :
    (indexMap names).lookup n = some i ↔ names[i]? = some n := by
  have hzip : names[i]? = some n ↔ (n, i) ∈ names.zipIdx := by
    rw [List.mem_zipIdx_iff_getElem?]
  rw [hzip, indexMap]
  constructor
  · intro hlookup
    obtain ⟨l₁, l₂, hsplit, -⟩ := List.lookup_eq_some_iff.mp hlookup
    rw [← List.mem_reverse, hsplit]
    exact List.mem_append_right _ List.mem_cons_self
  · intro hmem
    refine lookup_of_once ?_ (List.mem_reverse.mpr hmem)
    rw [List.map_reverse, List.nodup_reverse, List.zipIdx_map_fst]
    exact hnodup

theorem filterMap_range_getElem? (items : List ι) :
    (List.range items.length).filterMap (items[·]?) = items := by
  induction items with
  | nil => rfl
  | cons item items ih =>
    rw [List.length_cons, List.range_succ_eq_map, List.filterMap_cons_some List.getElem?_cons_zero,
      List.filterMap_map]
    simp only [Function.comp_def, Nat.succ_eq_add_one, List.getElem?_cons_succ, ih]

/-- An edge between places is one between the names there. -/
theorem nameEdge_of_edge (hnodup : (items.map name).Nodup) {i j : Nat} {a b : ι}
    (ha : items[i]? = some a) (hb : items[j]? = some b)
    (h : Edge (indexDeps name items edges) items.length i j) : NameEdge name items edges (name a) (name b) := by
  have hdep := h.1
  rw [indexDeps, ha] at hdep
  obtain ⟨n, hn, hlook⟩ := List.mem_filterMap.mp hdep
  rw [indexMap_lookup hnodup, List.getElem?_map, hb, Option.map_some, Option.some.injEq] at hlook
  exact ⟨List.mem_map_of_mem (List.mem_of_getElem? hb), a, List.mem_of_getElem? ha, rfl, hlook ▸ hn⟩

theorem edge_of_name (hnodup : (items.map name).Nodup) {i j : Nat} {a b : ι}
    (ha : items[i]? = some a) (hb : items[j]? = some b) (h : name b ∈ edges a) :
    Edge (indexDeps name items edges) items.length i j := by
  refine ⟨?_, (List.getElem?_eq_some_iff.mp hb).1⟩
  rw [indexDeps, ha]
  refine List.mem_filterMap.mpr ⟨name b, h, ?_⟩
  rw [indexMap_lookup hnodup, List.getElem?_map, hb, Option.map_some]

theorem nameReach_of_reach (hnodup : (items.map name).Nodup) {i j : Nat}
    (h : Reach (indexDeps name items edges) items.length i j) :
    ∀ {a b : ι}, items[i]? = some a → items[j]? = some b →
      ReflTransGen (NameEdge name items edges) (name a) (name b) := by
  induction h with
  | refl =>
    intro a b ha hb
    rw [ha, Option.some.injEq] at hb
    rw [hb]
  | @tail k j hpath hedge ih =>
    intro a b ha hb
    cases hk : items[k]? with
    | none =>
      -- a place without an item depends on nothing
      have hdep := hedge.1
      rw [indexDeps, hk] at hdep
      exact absurd hdep List.not_mem_nil
    | some c => exact (ih ha hk).tail (nameEdge_of_edge hnodup hk hb hedge)

/-- The items in depth-first order: each once, and after those it depends on and that do
    not reach it. -/
theorem dfsTopo_byName (edges : ι → List String) (hnodup : (items.map name).Nodup) {fuel : Nat}
    (hfuel : items.length < fuel) :
    ∃ order, dfsTopo fuel items.length (indexDeps name items edges) = some order ∧
      order.Perm (List.range items.length) ∧ (order.filterMap (items[·]?)).Perm items ∧
      ∀ a ∈ items, ∀ b ∈ items, name b ∈ edges a →
        ¬ ReflTransGen (NameEdge name items edges) (name b) (name a) →
        Before (order.filterMap (items[·]?)) b a := by
  obtain ⟨order, hrun, hperm, hbefore⟩ :=
    dfsTopo_spec items.length (indexDeps name items edges) hfuel
  refine ⟨order, hrun, hperm, ?_, ?_⟩
  · have hall := hperm.filterMap (items[·]?)
    rwa [filterMap_range_getElem?] at hall
  · intro a ha b hb hdep hno
    obtain ⟨i, hi⟩ := List.mem_iff_getElem?.mp ha
    obtain ⟨j, hj⟩ := List.mem_iff_getElem?.mp hb
    have hlt : i < items.length := (List.getElem?_eq_some_iff.mp hi).1
    have hpos := hbefore i hlt j (edge_of_name hnodup hi hj hdep)
      fun hreach => hno (nameReach_of_reach hnodup hreach hj hi)
    exact hpos.filterMap hj hi

end ByName

/-! ### Records and enums -/

inductive TypeItem where
  | record (r : Record)
  | enum (e : EnumDecl)

/-- `TypeItem::name`. -/
def TypeItem.name : TypeItem → String
  | .record r => r.name
  | .enum e => e.name

/-- The types of the fields, or of what the variants carry. -/
def TypeItem.types : TypeItem → List Ty
  | .record r => r.fields.map (·.ty)
  | .enum e => e.variants.flatMap (·.fields)

mutual
/-- `collect_type_names`. -/
def collectTypeNames : Ty → List String
  | .simple n | .typedAddress n => [n]
  | .generic n params => n :: collectTypeNamesAll params
  | .tuple parts => collectTypeNamesAll parts
def collectTypeNamesAll : List Ty → List String
  | [] => []
  | t :: ts => collectTypeNames t ++ collectTypeNamesAll ts
end

/-- `TypeItem::deps`. -/
def TypeItem.deps (siblings : List String) (item : TypeItem) : List String :=
  sortedSet ((item.types.flatMap collectTypeNames).filter fun n =>
    siblings.contains n && n != item.name)

def typeItems (records : List Record) (enums : List EnumDecl) : List TypeItem :=
  records.map .record ++ enums.map .enum

/-- `src[idx].take().expect(..)`, for each place in turn. -/
def takeEach {ι : Type} : List (Option ι) → List Nat → Option (List ι)
  | _, [] => some []
  | src, idx :: order =>
      match src[idx]? with
      | some (some item) => (takeEach (src.set idx none) order).map (item :: ·)
      | _ => none

/-- `order_type_items`. -/
def orderTypeItems (fuel : Nat) (records : List Record) (enums : List EnumDecl) :
    Option (List TypeItem) := do
  let items := typeItems records enums
  let siblings := items.map TypeItem.name
  let ordered ← dfsTopo fuel items.length (indexDeps TypeItem.name items (TypeItem.deps siblings))
  takeEach (items.map some) ordered

/-- The parts of a type. -/
def tyParts : Ty → List Ty
  | .generic _ params => params
  | .tuple parts => parts
  | .simple _ | .typedAddress _ => []

def tyHead : Ty → Option String
  | .simple n | .typedAddress n | .generic n _ => some n
  | .tuple _ => none

/-- The type mentions the name, at whatever depth. -/
def TyMentions (ty : Ty) (n : String) : Prop :=
  ∃ t, ReflTransGen (fun a b => b ∈ tyParts a) ty t ∧ tyHead t = some n

/-- A field or payload type of the item mentions the name. -/
def TypeItem.Mentions (item : TypeItem) (n : String) : Prop := ∃ ty ∈ item.types, TyMentions ty n

/-- From a declaration to a sibling that it mentions. -/
def TypeEdge (items : List TypeItem) (a b : String) : Prop :=
  b ∈ items.map TypeItem.name ∧ ∃ item ∈ items, item.name = a ∧ item.Mentions b

theorem collectTypeNamesAll_eq (tys : List Ty) :
    collectTypeNamesAll tys = tys.flatMap collectTypeNames := by
  induction tys with
  | nil => rfl
  | cons t ts ih => rw [collectTypeNamesAll, ih, List.flatMap_cons]

theorem collectTypeNames_eq (ty : Ty) :
    collectTypeNames ty = (tyHead ty).toList ++ (tyParts ty).flatMap collectTypeNames := by
  cases ty with
  | simple n | typedAddress n => rfl
  | generic n params => rw [collectTypeNames, collectTypeNamesAll_eq]; rfl
  | tuple parts => rw [collectTypeNames, collectTypeNamesAll_eq]; rfl

theorem sizeOf_tyParts {ty t : Ty} (h : t ∈ tyParts ty) : sizeOf t < sizeOf ty := by
  cases ty with
  | simple n | typedAddress n => exact absurd h List.not_mem_nil
  | generic n params | tuple params =>
    have hlt : sizeOf t < sizeOf params := List.sizeOf_lt_of_mem h
    simp only [Ty.generic.sizeOf_spec, Ty.tuple.sizeOf_spec]
    omega

theorem mem_collectTypeNames {ty : Ty} {n : String} :
    n ∈ collectTypeNames ty ↔ TyMentions ty n := by
  constructor
  · intro hn
    induction hsize : sizeOf ty using Nat.strongRecOn generalizing ty with
    | ind size ih =>
      rw [collectTypeNames_eq, List.mem_append, List.mem_flatMap, Option.mem_toList] at hn
      rcases hn with hhead | ⟨t, ht, hn⟩
      · exact ⟨ty, .refl, hhead⟩
      · obtain ⟨u, hpath, hu⟩ := ih (sizeOf t) (hsize ▸ sizeOf_tyParts ht) hn rfl
        exact ⟨u, .head ht hpath, hu⟩
  · rintro ⟨t, hpath, ht⟩
    induction hpath using ReflTransGen.head_induction_on with
    | refl =>
      rw [collectTypeNames_eq, List.mem_append, Option.mem_toList]
      exact Or.inl ht
    | head hpart _ ih =>
      rw [collectTypeNames_eq, List.mem_append, List.mem_flatMap]
      exact Or.inr ⟨_, hpart, ih⟩

theorem mem_deps {siblings : List String} {item : TypeItem} {n : String} :
    n ∈ item.deps siblings ↔ item.Mentions n ∧ n ∈ siblings ∧ n ≠ item.name := by
  rw [TypeItem.deps, mem_sortedSet, List.mem_filter, List.mem_flatMap, Bool.and_eq_true,
    List.contains_iff_mem, bne_iff_ne, TypeItem.Mentions]
  simp only [mem_collectTypeNames]

/-- Taking each item once gives the items in that order. -/
theorem takeEach_eq {ι : Type} {items : List ι} (order : List Nat) (src : List (Option ι))
    (hlength : src.length = items.length) (hnodup : order.Nodup)
    (hsrc : ∀ i ∈ order, i < items.length ∧ src[i]? = some items[i]?) :
    takeEach src order = some (order.filterMap (items[·]?)) := by
  induction order generalizing src with
  | nil => rfl
  | cons i order ih =>
    obtain ⟨⟨hlt, hi⟩, hrest⟩ := List.forall_mem_cons.mp hsrc
    obtain ⟨hnew, hnodup⟩ := List.nodup_cons.mp hnodup
    have hitem : items[i]? = some items[i] := List.getElem?_eq_getElem hlt
    have htail := ih (src.set i none) (by rw [List.length_set, hlength]) hnodup (by
      intro j hj
      have hne : i ≠ j := fun heq => hnew (heq ▸ hj)
      rw [List.getElem?_set_ne hne]
      exact hrest j hj)
    rw [takeEach, hi, hitem, List.filterMap_cons_some hitem]
    simp only [htail, Option.map_some]

theorem orderTypeItems_spec (records : List Record) (enums : List EnumDecl)
    (hnodup : ((typeItems records enums).map TypeItem.name).Nodup) {fuel : Nat}
    (hfuel : (typeItems records enums).length < fuel) :
    ∃ out, orderTypeItems fuel records enums = some out ∧ out.Perm (typeItems records enums) ∧
      ∀ a ∈ typeItems records enums, ∀ b ∈ typeItems records enums, a.Mentions b.name →
        ¬ ReflTransGen (TypeEdge (typeItems records enums)) b.name a.name → Before out b a := by
  obtain ⟨order, hrun, hperm, hall, hbefore⟩ := dfsTopo_byName
    (TypeItem.deps ((typeItems records enums).map TypeItem.name)) hnodup hfuel
  have htake : takeEach ((typeItems records enums).map some) order =
      some (order.filterMap ((typeItems records enums)[·]?)) := by
    refine takeEach_eq order _ (List.length_map _) (hperm.nodup_iff.mpr List.nodup_range) ?_
    intro i hi
    have hlt := List.mem_range.mp (hperm.mem_iff.mp hi)
    refine ⟨hlt, ?_⟩
    rw [List.getElem?_map, List.getElem?_eq_getElem hlt, Option.map_some]
  refine ⟨order.filterMap ((typeItems records enums)[·]?), ?_, hall, ?_⟩
  · rw [orderTypeItems]
    simp only [hrun, Option.bind_eq_bind, Option.bind_some, htake]
  · intro a ha b hb hmention hno
    have hne : b.name ≠ a.name := by
      intro heq
      exact hno (heq ▸ .refl)
    refine hbefore a ha b hb (mem_deps.mpr ⟨hmention, List.mem_map_of_mem hb, hne⟩) ?_
    intro hreach
    refine hno (ReflTransGen.mono (fun x y hedge => ?_) _ _ hreach)
    obtain ⟨hy, item, hitem, hname, hdep⟩ := hedge
    exact ⟨hy, item, hitem, hname, (mem_deps.mp hdep).1⟩

/-! ### Pure functions -/

def calleeName : Expr → List String
  | .fnCall name _ => [name]
  | _ => []

/-- The names called in an expression, in the order `collect` comes to them. -/
def calleeWalker : Walker Expr String where
  own := calleeName
  visited := Expr.children
  rank := Expr.rank
  rank_lt := rank_child_lt

/-- The line of `collect` that pushes a name. -/
def pushCallee (siblings : List String) (selfName : String) (out : List String) (name : String) :
    List String :=
  if siblings.contains name && name != selfName && !out.contains name then out ++ [name] else out

/-- `pure_fn_callees`. -/
def pureFnCallees (siblings : List String) (f : PureFn) : List String :=
  (calleeWalker.walk f.body).foldl (pushCallee siblings f.name) []

/-- `order_pure_fns`. -/
def orderPureFns (fuel : Nat) (pureFns : List PureFn) : Option (List PureFn) := do
  let siblings := pureFns.map (·.name)
  let ordered ← dfsTopo fuel pureFns.length
    (indexDeps PureFn.name pureFns (pureFnCallees siblings))
  return ordered.filterMap (pureFns[·]?)

/-- The function is called somewhere in the expression. -/
def CallsIn (e : Expr) (n : String) : Prop :=
  ∃ args, ReflTransGen (fun a b => b ∈ a.children) e (.fnCall n args)

/-- From a function to another that it calls. -/
def CalleeEdge (pureFns : List PureFn) (a b : String) : Prop :=
  b ∈ pureFns.map PureFn.name ∧ ∃ f ∈ pureFns, f.name = a ∧ CallsIn f.body b

theorem mem_calleeWalker {e : Expr} {n : String} : n ∈ calleeWalker.walk e ↔ CallsIn e n := by
  rw [calleeWalker.mem_walk]
  constructor
  · rintro ⟨x, hpath, hown⟩
    change n ∈ calleeName x at hown
    cases x with
    | fnCall name args =>
      rw [List.mem_singleton.mp hown]
      exact ⟨args, hpath⟩
    | _ => exact absurd hown List.not_mem_nil
  · rintro ⟨args, hpath⟩
    exact ⟨_, hpath, List.mem_singleton.mpr rfl⟩

theorem mem_foldl_pushCallee {siblings : List String} {selfName n : String} (names out : List String) :
    n ∈ names.foldl (pushCallee siblings selfName) out ↔
      n ∈ out ∨ n ∈ names ∧ n ∈ siblings ∧ n ≠ selfName := by
  induction names generalizing out with
  | nil => simp
  | cons name names ih =>
    rw [List.foldl_cons, ih, pushCallee]
    by_cases hpush : (siblings.contains name && name != selfName && !out.contains name) = true
    · rw [if_pos hpush]
      simp only [Bool.and_eq_true, List.contains_iff_mem, bne_iff_ne] at hpush
      rw [List.mem_append, List.mem_singleton, List.mem_cons]
      grind
    · rw [if_neg hpush]
      simp only [Bool.and_eq_true, bne_iff_ne, Bool.not_eq_true', List.contains_eq_mem,
        decide_eq_false_iff_not, not_and, not_not] at hpush
      rw [List.mem_cons]
      grind

theorem mem_pureFnCallees {siblings : List String} {f : PureFn} {n : String} :
    n ∈ pureFnCallees siblings f ↔ CallsIn f.body n ∧ n ∈ siblings ∧ n ≠ f.name := by
  rw [pureFnCallees, mem_foldl_pushCallee, mem_calleeWalker]
  simp

theorem orderPureFns_spec (pureFns : List PureFn) (hnodup : (pureFns.map PureFn.name).Nodup)
    {fuel : Nat} (hfuel : pureFns.length < fuel) :
    ∃ out, orderPureFns fuel pureFns = some out ∧ out.Perm pureFns ∧
      ∀ f ∈ pureFns, ∀ g ∈ pureFns, CallsIn f.body g.name →
        ¬ ReflTransGen (CalleeEdge pureFns) g.name f.name → Before out g f := by
  obtain ⟨order, hrun, -, hall, hbefore⟩ := dfsTopo_byName
    (pureFnCallees (pureFns.map PureFn.name)) hnodup hfuel
  refine ⟨order.filterMap (pureFns[·]?), ?_, hall, ?_⟩
  · rw [orderPureFns]
    simp only [hrun, Option.bind_eq_bind, Option.bind_some, Option.pure_def]
  · intro f hf g hg hcall hno
    have hne : g.name ≠ f.name := by
      intro heq
      exact hno (heq ▸ .refl)
    refine hbefore f hf g hg (mem_pureFnCallees.mpr ⟨hcall, List.mem_map_of_mem hg, hne⟩) ?_
    intro hreach
    refine hno (ReflTransGen.mono (fun x y hedge => ?_) _ _ hreach)
    obtain ⟨hy, f', hf', hname, hdep⟩ := hedge
    exact ⟨hy, f', hf', hname, (mem_pureFnCallees.mp hdep).1⟩

/-- **Declarations come after what they depend on**, except on cycles: the depth-first order
    of any graph, and with it the order of the types and of the pure functions. -/
theorem declarations_ordered :
    (∀ (n : Nat) (deps : Nat → List Nat), ∀ fuel > n, ∃ order, dfsTopo fuel n deps = some order ∧
      order.Perm (List.range n) ∧ ∀ i < n, ∀ j, Edge deps n i j → ¬ Reach deps n j i →
        Before order j i) ∧
    (∀ (records : List Record) (enums : List EnumDecl),
      ((typeItems records enums).map TypeItem.name).Nodup →
      ∀ fuel > (typeItems records enums).length, ∃ out, orderTypeItems fuel records enums = some out ∧
        out.Perm (typeItems records enums) ∧
        ∀ a ∈ typeItems records enums, ∀ b ∈ typeItems records enums, a.Mentions b.name →
          ¬ ReflTransGen (TypeEdge (typeItems records enums)) b.name a.name → Before out b a) ∧
    ∀ pureFns : List PureFn, (pureFns.map PureFn.name).Nodup → ∀ fuel > pureFns.length,
      ∃ out, orderPureFns fuel pureFns = some out ∧ out.Perm pureFns ∧
        ∀ f ∈ pureFns, ∀ g ∈ pureFns, CallsIn f.body g.name →
          ¬ ReflTransGen (CalleeEdge pureFns) g.name f.name → Before out g f :=
  ⟨fun n deps _ hfuel => dfsTopo_spec n deps hfuel,
    fun records enums hnodup _ hfuel => orderTypeItems_spec records enums hnodup hfuel,
    fun pureFns hnodup _ hfuel => orderPureFns_spec pureFns hnodup hfuel⟩

/-- `record Order { item: Item }` and `record Item { }`. -/
def orderAndItem : List Record :=
  [{ name := "Order", fields := [{ name := "item", ty := .simple "Item" }] },
    { name := "Item", fields := [] }]

theorem declarations_ordered_item :
    ∃ out, orderTypeItems 3 orderAndItem [] = some out ∧ out.Perm (typeItems orderAndItem []) ∧
      ∀ a ∈ typeItems orderAndItem [], ∀ b ∈ typeItems orderAndItem [], a.Mentions b.name →
        ¬ ReflTransGen (TypeEdge (typeItems orderAndItem [])) b.name a.name → Before out b a :=
  declarations_ordered.2.1 orderAndItem [] (by decide) 3 (by decide)

end CambrianLang.Analysis
