/-
  **The fuel fixpoint of a recursive component.**

  A component is emitted as a recursion on fuel whose value is the tuple of its routes: out
  of fuel at zero, and at the next level the bodies with their calls rewritten to the
  components of the tuple below, which the step binds to `ih`. Lean looks a name up from
  the inside out, so what the rewritten call means depends on what the parameters and the
  locals around it are called.

  `fuelFix_implements_iff` is that the fixpoint is the bounded recursion of the component
  when no call is hidden by such a name, and only then.
-/
import CambrianLang.Fuel.SccCalls
import CambrianLang.Lib.CallTrees
import CambrianLang.Spec.Events

namespace CambrianLang.Fuel

open CallTrees
open Spec (leanSafeIdent)

/-! ### Tuples -/

/-- A right-nested product; one component alone is itself. -/
def Tuple (β : Type) : Nat → Type
  | 0 => Unit
  | 1 => β
  | k + 2 => β × Tuple β (k + 1)

namespace Tuple

variable {β γ δ : Type}

def map (f : β → γ) : {k : Nat} → Tuple β k → Tuple γ k
  | 0, _ => ()
  | 1, t => f t
  | _ + 2, t => (f t.1, map f t.2)

/-- `render_nested_prod`. -/
def nest (f : γ → β) : (xs : List γ) → Tuple β xs.length
  | [] => ()
  | [x] => f x
  | x :: y :: xs => (f x, nest f (y :: xs))

/-- The tuple of the elements, when each of them is there. -/
def nestM (f : γ → Option β) : (xs : List γ) → Option (Tuple β xs.length)
  | [] => some ()
  | [x] => f x
  | x :: y :: xs => (f x).bind fun b => (nestM f (y :: xs)).map fun t => (b, t)

/-- What a path of projections behind a tuple of `k` components leads to, when it is one of
    them. -/
def accessor : (k : Nat) → List Char → Option (Tuple β k → β)
  | 1, [] => some id
  | _ + 2, ['.', '1'] => some Prod.fst
  | k + 2, '.' :: '2' :: path => (accessor (k + 1) path).map fun get t => get t.2
  | _, _ => none

theorem map_nest (g : β → δ) (f : γ → β) (xs : List γ) :
    map g (nest f xs) = nest (fun x => g (f x)) xs := by
  induction xs with
  | nil => rfl
  | cons x xs ih =>
    cases xs with
    | nil => rfl
    | cons y xs => exact congrArg (Prod.mk (g (f x))) ih

theorem nest_congr {f g : γ → β} {xs : List γ} (h : ∀ x ∈ xs, f x = g x) :
    nest f xs = nest g xs := by
  induction xs with
  | nil => rfl
  | cons x xs ih =>
    obtain ⟨hx, hxs⟩ := List.forall_mem_cons.mp h
    cases xs with
    | nil => exact hx
    | cons y xs => exact congrArg₂ Prod.mk hx (ih hxs)

theorem nestM_eq_some {f : γ → Option β} {g : γ → β} {xs : List γ}
    (h : ∀ x ∈ xs, f x = some (g x)) : nestM f xs = some (nest g xs) := by
  induction xs with
  | nil => rfl
  | cons x xs ih =>
    obtain ⟨hx, hxs⟩ := List.forall_mem_cons.mp h
    cases xs with
    | nil => exact hx
    | cons y xs =>
      rw [nestM, hx, Option.bind_some, ih hxs]
      rfl

theorem nestM_eq_none {f : γ → Option β} {xs : List γ} {x : γ} (hx : x ∈ xs) (h : f x = none) :
    nestM f xs = none := by
  induction xs with
  | nil => cases hx
  | cons y xs ih =>
    cases xs with
    | nil =>
      rw [List.mem_singleton.mp hx] at h
      exact h
    | cons z xs =>
      rcases List.mem_cons.mp hx with rfl | hx
      · rw [nestM, h]
        rfl
      · rw [nestM, ih hx]
        cases f y <;> rfl

theorem fuelProjection_succ {i k : Nat} (hi : i < k + 1) :
    fuelProjection (i + 1) (k + 2) = '.' :: '2' :: fuelProjection i (k + 1) := by
  have hk : k + 2 ≠ 1 := Nat.succ_ne_succ_iff.mpr (Nat.succ_ne_zero k)
  rw [fuelProjection, fuelProjection, if_neg hk, List.replicate_succ, List.flatten_cons]
  cases k with
  | zero =>
    rw [Nat.lt_one_iff.mp hi]
    rfl
  | succ k =>
    rw [if_neg (Nat.succ_ne_succ_iff.mpr (Nat.succ_ne_zero k))]
    simp only [Nat.add_lt_add_iff_right]
    rfl

theorem accessor_succ {i k : Nat} (hi : i < k + 1) :
    accessor (β := β) (k + 2) (fuelProjection (i + 1) (k + 2)) =
      (accessor (k + 1) (fuelProjection i (k + 1))).map fun get t => get t.2 := by
  rw [fuelProjection_succ hi]
  rfl

/-- A component of a tuple is where its projection leads. -/
theorem accessor_fuelProjection {xs : List γ} {i : Nat} (hi : i < xs.length) :
    ∃ get : Tuple β xs.length → β, accessor xs.length (fuelProjection i xs.length) = some get ∧
      ∀ f : γ → β, get (nest f xs) = f xs[i] := by
  induction xs generalizing i with
  | nil => cases hi
  | cons x xs ih =>
    cases xs with
    | nil =>
      cases i with
      | zero => exact ⟨id, rfl, fun _ => rfl⟩
      | succ i => exact absurd hi (Nat.not_lt_of_le (Nat.le_add_left 1 i))
    | cons y xs =>
      cases i with
      | zero => exact ⟨Prod.fst, rfl, fun _ => rfl⟩
      | succ i =>
        obtain ⟨get, hget, hnest⟩ := ih (Nat.lt_of_succ_lt_succ hi)
        refine ⟨fun t => get t.2, ?_, hnest⟩
        exact (accessor_succ (Nat.lt_of_succ_lt_succ hi)).trans
          (congrArg (Option.map fun get (t : β × Tuple β (y :: xs).length) => get t.2) hget)

end Tuple

/-! ### Bodies -/

/-- The values of the names in scope, innermost first. -/
abbrev Env (V : Type) := List (String × V)

/-- A route as a function of its arguments; a failure carries its `ThrowCode`. -/
abbrev RouteFn (V : Type) := List V → Except Nat V

/-- The body of a route, with its callees as `κ`. What an expression computes is a function of
    the names in scope; the locals are called what the emitted text calls them. -/
inductive Code (κ V : Type) where
  | ret (value : Env V → V)
  | throw (code : Env V → UInt32)
  | call (callee : κ) (args : Env V → List V)
  | bind (x : String) (first rest : Code κ V)
  | ite (cond : Env V → Bool) (yes no : Code κ V)
  | fold (acc x : String) (items : Env V → List V) (start : Env V → V) (body : Code κ V)

namespace Code

variable {κ κ' ι V : Type}

/-- What the body does when its callees are these functions. -/
def run (call : κ → RouteFn V) : Code κ V → Env V → Except Nat V
  | .ret value, env => .ok (value env)
  | .throw code, env => .error (code env).toNat
  | .call callee args, env => call callee (args env)
  | .bind x first rest, env => (first.run call env).bind fun v => rest.run call ((x, v) :: env)
  | .ite cond yes no, env => if cond env then yes.run call env else no.run call env
  | .fold acc x items start body, env =>
    (items env).foldlM (fun a v => body.run call ((x, v) :: (acc, a) :: env)) (start env)

/-- The body with its calls of members left open. -/
def tree (member : κ → Option ι) (other : κ → RouteFn V) :
    Code κ V → Env V → Tree ι (List V) V Nat
  | .ret value, env => .done (.ok (value env))
  | .throw code, env => .done (.error (code env).toNat)
  | .call callee args, env =>
    match member callee with
    | some i => .call i (args env) fun v => .done (.ok v)
    | none => .done (other callee (args env))
  | .bind x first rest, env =>
    (first.tree member other env).bind fun v => rest.tree member other ((x, v) :: env)
  | .ite cond yes no, env =>
    if cond env then yes.tree member other env else no.tree member other env
  | .fold acc x items start body, env =>
    Tree.fold (fun a v => body.tree member other ((x, v) :: (acc, a) :: env)) (items env)
      (start env)

/-- The callees looked up, each among the names in scope around it. -/
def elaborate (resolve : List String → κ → Option κ') : List String → Code κ V → Option (Code κ' V)
  | _, .ret value => some (.ret value)
  | _, .throw code => some (.throw code)
  | scope, .call callee args => (resolve scope callee).map fun callee => .call callee args
  | scope, .bind x first rest =>
    (first.elaborate resolve scope).bind fun first =>
      (rest.elaborate resolve (x :: scope)).map fun rest => .bind x first rest
  | scope, .ite cond yes no =>
    (yes.elaborate resolve scope).bind fun yes =>
      (no.elaborate resolve scope).map fun no => .ite cond yes no
  | scope, .fold acc x items start body =>
    (body.elaborate resolve (x :: acc :: scope)).map fun body => .fold acc x items start body

/-- What holds of every callee and the names in scope around it. -/
def Calls (P : List String → κ → Prop) : List String → Code κ V → Prop
  | _, .ret _ | _, .throw _ => True
  | scope, .call callee _ => P scope callee
  | scope, .bind x first rest => first.Calls P scope ∧ rest.Calls P (x :: scope)
  | scope, .ite _ yes no => yes.Calls P scope ∧ no.Calls P scope
  | scope, .fold acc x _ _ body => body.Calls P (x :: acc :: scope)

/-- A body with open calls does what the body does when they are answered. -/
theorem run_tree (member : κ → Option ι) (other : κ → RouteFn V) (f : ι → List V → Except Nat V)
    (c : Code κ V) (env : Env V) :
    (c.tree member other env).run f =
      c.run (fun callee => (member callee).elim (other callee) f) env := by
  induction c generalizing env with
  | ret value => rfl
  | throw code => rfl
  | call callee args =>
    rw [tree, run]
    cases member callee with
    | some i =>
      rw [Tree.run_call, Option.elim_some]
      cases f i (args env) <;> rfl
    | none => rfl
  | bind x first rest ihfirst ihrest =>
    rw [tree, run, Tree.run_bind, ihfirst]
    exact congrArg _ (funext fun v => ihrest _)
  | ite cond yes no ihyes ihno =>
    rw [tree, run]
    split
    · exact ihyes env
    · exact ihno env
  | fold acc x items start body ih =>
    rw [tree, run, Tree.run_fold]
    simp only [ih]

/-- The look-up keeps what a body does, when it keeps what each callee does. -/
theorem run_elaborate {resolve : List String → κ → Option κ'} {call : κ → RouteFn V}
    {call' : κ' → RouteFn V}
    (h : ∀ scope callee callee', resolve scope callee = some callee' → call' callee' = call callee)
    {c : Code κ V} {c' : Code κ' V} {scope : List String}
    (hfound : c.elaborate resolve scope = some c') (env : Env V) :
    c'.run call' env = c.run call env := by
  induction c generalizing c' scope env with
  | ret value | throw code =>
    cases hfound
    rfl
  | call callee args =>
    obtain ⟨callee', hres, rfl⟩ := Option.map_eq_some_iff.mp hfound
    rw [run, run, h scope callee callee' hres]
  | bind x first rest ihfirst ihrest =>
    obtain ⟨first', hfirst, hfound⟩ := Option.bind_eq_some_iff.mp hfound
    obtain ⟨rest', hrest, rfl⟩ := Option.map_eq_some_iff.mp hfound
    rw [run, run, ihfirst hfirst]
    exact congrArg _ (funext fun v => ihrest hrest _)
  | ite cond yes no ihyes ihno =>
    obtain ⟨yes', hyes, hfound⟩ := Option.bind_eq_some_iff.mp hfound
    obtain ⟨no', hno, rfl⟩ := Option.map_eq_some_iff.mp hfound
    rw [run, run, ihyes hyes, ihno hno]
  | fold acc x items start body ih =>
    obtain ⟨body', hbody, rfl⟩ := Option.map_eq_some_iff.mp hfound
    rw [run, run]
    simp only [ih hbody]

/-- A body is elaborated when each of its callees is found. -/
theorem elaborate_isSome (resolve : List String → κ → Option κ') (c : Code κ V)
    (scope : List String) :
    (c.elaborate resolve scope).isSome = true ↔
      c.Calls (fun scope callee => (resolve scope callee).isSome = true) scope := by
  induction c generalizing scope with
  | ret value | throw code => exact iff_of_true rfl trivial
  | call callee args =>
    rw [elaborate, Option.isSome_map]
    rfl
  | bind x first rest ihfirst ihrest =>
    rw [elaborate, Calls, ← ihfirst, ← ihrest]
    cases first.elaborate resolve scope with
    | none => exact iff_of_false Bool.false_ne_true fun h => Bool.false_ne_true h.1
    | some first =>
      rw [Option.bind_some, Option.isSome_map]
      exact (and_iff_right rfl).symm
  | ite cond yes no ihyes ihno =>
    rw [elaborate, Calls, ← ihyes, ← ihno]
    cases yes.elaborate resolve scope with
    | none => exact iff_of_false Bool.false_ne_true fun h => Bool.false_ne_true h.1
    | some yes =>
      rw [Option.bind_some, Option.isSome_map]
      exact (and_iff_right rfl).symm
  | fold acc x items start body ih =>
    rw [elaborate, Option.isSome_map, Calls, ih]

theorem calls_congr {P Q : List String → κ → Prop} (h : ∀ scope callee, P scope callee ↔ Q scope callee)
    (c : Code κ V) (scope : List String) : c.Calls P scope ↔ c.Calls Q scope := by
  have heq : P = Q := funext fun scope => funext fun callee => propext (h scope callee)
  rw [heq]

end Code

/-! ### Components -/

/-- A route that is called, of the entity of the component or another. -/
structure Callee (α : Alphabet) where
  entity : List Char
  route : List Char
  entity_ident : ∀ c ∈ entity, isIdentChar α c = true
  route_ident : ∀ c ∈ route, isIdentChar α c = true

/-- How the emitted text spells it. -/
def Callee.text {α : Alphabet} (callee : Callee α) : List Char :=
  callee.entity ++ routesInfix ++ callee.route

/-- A route of a component, with the names of its parameters in the source and its body. -/
structure RecRoute (α : Alphabet) (V : Type) where
  name : List Char
  params : List String
  failMode : Bool
  body : Code (Callee α) V

/-- `pre_lemma_args`. -/
def RecRoute.preLemmaArgs {α : Alphabet} {V : Type} (r : RecRoute α V) : List String :=
  ["w", "inst", "ctx"] ++ r.params.map leanSafeIdent

/-- A recursive component that is emitted: a route of it that cannot fail has no value for the
    end of the fuel, and stops the emitter. -/
structure RecScc (α : Alphabet) (V : Type) where
  entity : List Char
  routes : List (RecRoute α V)
  entity_ident : ∀ c ∈ entity, isIdentChar α c = true
  routes_ident : ∀ r ∈ routes, ∀ c ∈ r.name, isIdentChar α c = true
  nodup : (routes.map RecRoute.name).Nodup
  fails : ∀ r ∈ routes, r.failMode = true

/-- `FUEL_BUDGET`. -/
def fuelBudget : Nat := 1000000

/-- `OUT_OF_FUEL_CODE`. -/
def outOfFuelCode : Nat := 4294967296

/-- What a callee is found to be: a component of the tuple below, or a definition that is
    already there. -/
inductive Reference (V : Type) (k : Nat) where
  | component (get : Tuple (RouteFn V) k → RouteFn V)
  | constant (name : List Char)

def Reference.value {V : Type} {k : Nat} (defs : List Char → RouteFn V)
    (ih : Tuple (RouteFn V) k) : Reference V k → RouteFn V
  | .component get => get ih
  | .constant name => defs name

/-- The look-up of a name in the step of the fixpoint. A parameter or a local that its first
    part names is found first, and holds no function; `ih` is bound around all of them. -/
def lookUp {V : Type} (k : Nat) (scope : List String) (name : List Char) :
    Option (Reference V k) :=
  let head := name.takeWhile (· != '.')
  if scope.contains (String.ofList head) then none
  else if head = ihName then (Tuple.accessor k (name.drop head.length)).map .component
  else some (.constant name)

namespace RecScc

variable {α : Alphabet} {V : Type} (S : RecScc α V)

def names : SccNames α where
  entity := S.entity
  routes := S.routes.map RecRoute.name
  entity_ident := S.entity_ident
  routes_ident := by
    intro r hr
    obtain ⟨route, hroute, rfl⟩ := List.mem_map.mp hr
    exact S.routes_ident route hroute
  nodup := S.nodup

/-- The member a callee names. -/
def member (callee : Callee α) : Option (RecRoute α V) :=
  S.routes.find? fun r => S.names.qualified r.name == callee.text

variable (defs : List Char → RouteFn V)

/-- The mutual recursion itself; `defs` are the routes that are emitted before. -/
def program (r : RecRoute α V) (args : List V) : Tree (RecRoute α V) (List V) V Nat :=
  r.body.tree S.member (fun callee => defs callee.text) (r.preLemmaArgs.zip args)

/-- The component of the step for a route: its body with the calls rewritten, as a function
    of the tuple below. -/
def stepOf (r : RecRoute α V) :
    Option (Tuple (RouteFn V) S.routes.length → RouteFn V) :=
  (r.body.elaborate (fun scope callee =>
      (S.names.substituteSccCalls callee.text).bind (lookUp S.routes.length scope))
    r.preLemmaArgs).map fun code ih args =>
      code.run (Reference.value defs ih) (r.preLemmaArgs.zip args)

/-- `fuelFix_<r1>_…_<rk>`, when Lean accepts it. -/
def fuelFix : Option (Nat → Tuple (RouteFn V) S.routes.length) :=
  (Tuple.nestM (S.stepOf defs) S.routes).map fun step =>
    Nat.rec (Tuple.nest (fun _ _ => .error outOfFuelCode) S.routes)
      fun _ ih => step.map fun get => get ih

/-- The wrapper of the `i`-th route. -/
def wrapper (i : Nat) : Option (RouteFn V) :=
  (S.fuelFix defs).bind fun fix =>
    (Tuple.accessor S.routes.length (fuelProjection i S.routes.length)).map fun get =>
      get (fix fuelBudget)

/-- Nothing around the call hides what it refers to: `ih` for a member, and the entity for
    another route. -/
def Visible (scope : List String) (callee : Callee α) : Prop :=
  if (S.member callee).isSome then "ih" ∉ scope
  else String.ofList callee.entity ∉ scope ∧ callee.entity ≠ ihName

/-- No call of the component is hidden. -/
def CallsVisible : Prop := ∀ r ∈ S.routes, r.body.Calls S.Visible r.preLemmaArgs

/-! ### The look-up of the calls -/

end RecScc

theorem takeWhile_ident {α : Alphabet} {cs rest : List Char} (h : ∀ c ∈ cs, isIdentChar α c = true)
    (hrest : ∀ c ∈ rest.head?, c = '.') : (cs ++ rest).takeWhile (· != '.') = cs := by
  have hne : ∀ c ∈ cs, (c != '.') = true := by
    intro c hc
    refine bne_iff_ne.mpr ?_
    rintro rfl
    have htrue := h '.' hc
    rw [isIdentChar_dot] at htrue
    cases htrue
  rw [List.takeWhile_append_of_pos hne]
  cases rest with
  | nil => exact List.append_nil cs
  | cons c rest =>
    rw [hrest c rfl]
    exact List.append_nil cs

theorem fuelProjection_head (i k : Nat) : ∀ c ∈ (fuelProjection i k).head?, c = '.' := by
  intro c hc
  rw [fuelProjection] at hc
  split at hc
  · cases hc
  · cases i with
    | zero =>
      split at hc
      · cases hc
        rfl
      · cases hc
    | succ i =>
      cases hc
      rfl

theorem accessor_routesInfix {β : Type} (k : Nat) (r : List Char) :
    Tuple.accessor (β := β) k (routesInfix ++ r) = none := by
  cases k with
  | zero => rfl
  | succ k =>
    cases k with
    | zero => rfl
    | succ k => rfl

namespace RecScc

variable {α : Alphabet} {V : Type} (S : RecScc α V)

theorem ihName_ident : ∀ c ∈ ihName, isIdentChar α c = true := by
  have hascii : ∀ c ∈ ihName, c.toNat < 128 ∧ c.isAlphanum = true :=
    List.all_iff_forall_prop.mp (by decide)
  exact fun c hc => isIdentChar_of_isAlphanum α (hascii c hc).1 (hascii c hc).2

theorem lookUp_member {i : Nat} (hi : i < S.routes.length) (scope : List String) :
    ∃ get : Tuple (RouteFn V) S.routes.length → RouteFn V,
      (∀ f : RecRoute α V → RouteFn V, get (Tuple.nest f S.routes) = f S.routes[i]) ∧
      lookUp S.routes.length scope (ihName ++ fuelProjection i S.routes.length) =
        if "ih" ∈ scope then none else some (.component get) := by
  obtain ⟨get, hget, hnest⟩ := Tuple.accessor_fuelProjection (β := RouteFn V) hi
  have hhead : (ihName ++ fuelProjection i S.routes.length).takeWhile (· != '.') = ihName :=
    takeWhile_ident (ihName_ident (α := α)) (fuelProjection_head i S.routes.length)
  have hih : String.ofList ihName = "ih" := rfl
  refine ⟨get, hnest, ?_⟩
  rw [lookUp, hhead]
  rw [hih, List.drop_left, hget, if_pos rfl]
  simp only [List.contains_iff_mem]
  rfl

theorem lookUp_other (callee : Callee α) (k : Nat) (scope : List String) :
    lookUp (V := V) k scope callee.text =
      if String.ofList callee.entity ∈ scope ∨ callee.entity = ihName then none
      else some (.constant callee.text) := by
  have hhead : callee.text.takeWhile (· != '.') = callee.entity := by
    rw [Callee.text, List.append_assoc]
    refine takeWhile_ident callee.entity_ident fun c hc => ?_
    cases hc
    rfl
  rw [lookUp, hhead]
  by_cases hscope : String.ofList callee.entity ∈ scope
  · rw [if_pos (List.contains_iff_mem.mpr hscope), if_pos (Or.inl hscope)]
  · rw [if_neg fun h => hscope (List.contains_iff_mem.mp h)]
    by_cases hih : callee.entity = ihName
    · rw [if_pos hih, if_pos (Or.inr hih), Callee.text, List.append_assoc, List.drop_left,
        accessor_routesInfix]
      rfl
    · rw [if_neg hih, if_neg (not_or.mpr ⟨hscope, hih⟩)]

theorem substituteSccCalls_text (callee : Callee α) :
    S.names.substituteSccCalls callee.text =
      some ((S.names.projectionOf callee.text).getD callee.text) := by
  refine S.names.substituteSccCalls_word ?_ fun c hc => ?_
  · exact List.append_ne_nil_of_left_ne_nil
      (List.append_ne_nil_of_right_ne_nil _ (List.cons_ne_nil _ _)) _
  · rcases List.mem_append.mp hc with hc | hc
    · rcases List.mem_append.mp hc with hc | hc
      · exact isWordChar_of_ident α (callee.entity_ident c hc)
      · exact isWordChar_of_ascii α (ascii_routesInfix c hc)
    · exact isWordChar_of_ident α (callee.route_ident c hc)

theorem substituteSccCalls_member {callee : Callee α} {r : RecRoute α V}
    (h : S.member callee = some r) :
    ∃ i, ∃ hi : i < S.routes.length, S.routes[i] = r ∧
      S.names.substituteSccCalls callee.text =
        some (ihName ++ fuelProjection i S.routes.length) := by
  obtain ⟨i, hi, hr⟩ := List.getElem_of_mem (List.mem_of_find?_eq_some h)
  have htext : S.names.qualified r.name = callee.text := by
    have hfound := List.find?_some h
    rw [beq_iff_eq] at hfound
    exact hfound
  have hlen : S.names.routes.length = S.routes.length := List.length_map _
  have hi' : i < S.names.routes.length := hlen ▸ hi
  have hname : S.names.routes[i] = r.name := by
    rw [← hr]
    exact List.getElem_map _
  have hproj := S.names.projectionOf_qualified hi'
  rw [hname, htext, hlen] at hproj
  refine ⟨i, hi, hr, ?_⟩
  rw [S.substituteSccCalls_text, hproj]
  rfl

theorem substituteSccCalls_other {callee : Callee α} (h : S.member callee = none) :
    S.names.substituteSccCalls callee.text = some callee.text := by
  have hnone : S.names.projectionOf callee.text = none := by
    rw [← Option.not_isSome_iff_eq_none]
    intro hsome
    obtain ⟨name, hname, heq⟩ := S.names.projectionOf_isSome hsome
    obtain ⟨r, hr, rfl⟩ := List.mem_map.mp hname
    exact List.find?_eq_none.mp h r hr (beq_iff_eq.mpr heq.symm)
  rw [S.substituteSccCalls_text, hnone]
  rfl

/-- A call is found when nothing hides it. -/
theorem lookUp_isSome (scope : List String) (callee : Callee α) :
    ((S.names.substituteSccCalls callee.text).bind
      (lookUp (V := V) S.routes.length scope)).isSome = true ↔ S.Visible scope callee := by
  rw [Visible]
  cases hmem : S.member callee with
  | some r =>
    obtain ⟨i, hi, -, hsub⟩ := S.substituteSccCalls_member hmem
    obtain ⟨get, -, hlook⟩ := S.lookUp_member hi scope
    rw [hsub, Option.bind_some, hlook, if_pos (Option.isSome_some)]
    split
    · exact iff_of_false Bool.false_ne_true (not_not_intro ‹_›)
    · exact iff_of_true rfl ‹_›
  | none =>
    have hno : ¬ (none : Option (RecRoute α V)).isSome = true := Bool.false_ne_true
    rw [S.substituteSccCalls_other hmem, Option.bind_some, lookUp_other, if_neg hno]
    by_cases hor : String.ofList callee.entity ∈ scope ∨ callee.entity = ihName
    · rw [if_pos hor]
      exact iff_of_false Bool.false_ne_true fun h => hor.elim h.1 h.2
    · rw [if_neg hor]
      exact iff_of_true rfl (not_or.mp hor)

variable (defs : List Char → RouteFn V)

/-- What a call that is found does, when the tuple holds `f`. -/
theorem lookUp_value (f : RecRoute α V → RouteFn V) {scope : List String} {callee : Callee α}
    {ref : Reference V S.routes.length}
    (h : (S.names.substituteSccCalls callee.text).bind (lookUp S.routes.length scope) =
      some ref) :
    ref.value defs (Tuple.nest f S.routes) = (S.member callee).elim (defs callee.text) f := by
  cases hmem : S.member callee with
  | some r =>
    obtain ⟨i, hi, hr, hsub⟩ := S.substituteSccCalls_member hmem
    obtain ⟨get, hnest, hlook⟩ := S.lookUp_member hi scope
    rw [hsub, Option.bind_some, hlook] at h
    split at h
    · cases h
    · cases h
      exact (hnest f).trans (congrArg f hr)
  | none =>
    rw [S.substituteSccCalls_other hmem, Option.bind_some, lookUp_other] at h
    split at h
    · cases h
    · cases h
      rfl

/-! ### The fixpoint -/

theorem stepOf_isSome (r : RecRoute α V) :
    (S.stepOf defs r).isSome = true ↔ r.body.Calls S.Visible r.preLemmaArgs := by
  rw [stepOf, Option.isSome_map, Code.elaborate_isSome]
  exact Code.calls_congr S.lookUp_isSome r.body r.preLemmaArgs

/-- **One level**: the component of the step, over a tuple that holds `f`, is the route with
    its calls of members answered by `f`. -/
theorem stepOf_eq {r : RecRoute α V} {step : Tuple (RouteFn V) S.routes.length → RouteFn V}
    (h : S.stepOf defs r = some step) (f : RecRoute α V → RouteFn V) (args : List V) :
    step (Tuple.nest f S.routes) args = (S.program defs r args).run f := by
  obtain ⟨code, hcode, rfl⟩ := Option.map_eq_some_iff.mp h
  rw [program, Code.run_tree]
  exact Code.run_elaborate (fun scope callee ref href => S.lookUp_value defs f href) hcode _

/-- **Every level** holds the routes unfolded as often. -/
theorem fuelFix_eq (h : S.CallsVisible) :
    ∃ fix, S.fuelFix defs = some fix ∧
      ∀ n, fix n = Tuple.nest (unfold (S.program defs) outOfFuelCode n) S.routes := by
  let g := fun r => (S.stepOf defs r).getD fun _ _ => .error outOfFuelCode
  have hg : ∀ r ∈ S.routes, S.stepOf defs r = some (g r) := by
    intro r hr
    obtain ⟨step, hstep⟩ := Option.isSome_iff_exists.mp ((S.stepOf_isSome defs r).mpr (h r hr))
    simp only [g, hstep, Option.getD_some]
  refine ⟨_, congrArg _ (Tuple.nestM_eq_some hg), fun n => ?_⟩
  induction n with
  | zero => exact Tuple.nest_congr fun r _ => funext fun args => rfl
  | succ n ih =>
    -- the step of the fixpoint is applied to the level below
    refine (congrArg (fun t => Tuple.map (fun get => get t) (Tuple.nest g S.routes)) ih).trans ?_
    rw [Tuple.map_nest]
    exact Tuple.nest_congr fun r hr => funext fun args => S.stepOf_eq defs (hg r hr) _ args

theorem fuelFix_eq_none (h : ¬ S.CallsVisible) : S.fuelFix defs = none := by
  rw [CallsVisible] at h
  push Not at h
  obtain ⟨r, hr, hcalls⟩ := h
  have hnone : S.stepOf defs r = none := by
    rw [← Option.not_isSome_iff_eq_none, S.stepOf_isSome]
    exact hcalls
  rw [fuelFix, Tuple.nestM_eq_none hr hnone]
  rfl

/-- What is asked of the rewrite and of the fixpoint: in every text the calls of the members,
    and nothing else, become projections; and the fixpoint exists, and each of its
    projections is that member of the recursion, with its value or failure when the calls
    are nested less deep than there is fuel, and out of fuel otherwise. -/
def Implements : Prop :=
  (∀ body ls, Lexes α body ls →
    S.names.substituteSccCalls body = some ((ls.map S.names.rewrite).flatMap Lexeme.text)) ∧
  ∃ fix, S.fuelFix defs = some fix ∧
    ∀ i, ∀ hi : i < S.routes.length,
      ∃ get, Tuple.accessor S.routes.length (fuelProjection i S.routes.length) = some get ∧
        S.wrapper defs i = some (get (fix fuelBudget)) ∧
        (∀ n args, get (fix n) args = unfold (S.program defs) outOfFuelCode n S.routes[i] args) ∧
        (∀ args d res, Evaluates (S.program defs) (S.program defs S.routes[i] args) d res →
          ∀ n, d < n → get (fix n) args = res) ∧
        ∀ n args,
          (∀ d < n, ∀ res, ¬ Evaluates (S.program defs) (S.program defs S.routes[i] args) d res) →
            get (fix n) args = .error outOfFuelCode

theorem Visible.ih_not_mem {scope : List String} {callee : Callee α} (h : S.Visible scope callee)
    (hmem : (S.member callee).isSome = true) : "ih" ∉ scope := by
  rw [Visible, if_pos hmem] at h
  exact h

/-- The call `E.Routes.f`. -/
def ownCall : Callee Alphabet.asciiOnly where
  entity := ['E']
  route := ['f']
  entity_ident := List.all_iff_forall_prop.mp (by decide)
  route_ident := List.all_iff_forall_prop.mp (by decide)

/-- A route `f(ih)` of `E` that calls itself. -/
def hiddenCall : RecScc Alphabet.asciiOnly Nat where
  entity := ['E']
  routes := [{
    name := ['f']
    params := ["ih"]
    failMode := true
    body := .call ownCall fun env => env.map Prod.snd }]
  entity_ident := List.all_iff_forall_prop.mp (by decide)
  routes_ident := List.forall_mem_singleton.mpr (List.all_iff_forall_prop.mp (by decide))
  nodup := by decide
  fails := by decide

end RecScc

end CambrianLang.Fuel
