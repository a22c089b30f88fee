/-
  **What running a route can change**: the storage of every instance, the balances,
  the deployed entities and the event log.

  Values are left open.  A condition goes either way, a loop runs any number of
  rounds, a transform writes any value to its member, a message reaches any instance
  whose entity has the route, and a run may end early at a `return`.  Every run of a
  compiled route is one of these.
-/
import CambrianLang.Ast.Entity

namespace CambrianLang.Semantics

open Ast Relation

/-! ### Worlds -/

structure World (V : Type) where
  storage : Nat → String → V
  entityAt : Nat → Option Entity
  balance : Nat → Nat
  log : List (Nat × String × List V)

/-- A phase of a route body with its actions; the unphased part has no name. -/
def segments : RouteBody → List (Option String × List RouteAction)
  | .unphased actions => [(none, actions)]
  | .phased phases => phases.map fun p => (some p.name, p.actions)
  | .mixed phases actions => (phases.map fun p => (some p.name, p.actions)) ++ [(none, actions)]

/-- A member has a transform for the route and phase. -/
def Transformed (e : Entity) (routeName : String) (phase : Option String) (member : String) : Prop :=
  ∃ m ∈ e.members, m.name = member ∧ ∃ t ∈ m.transforms, t.routeName = routeName ∧ t.phase = phase

/-- The send options carry a value; options that are no record literal may. -/
def attachesValue : Option Expr → Bool
  | none => false
  | some (.recordConstruct _ fields) => fields.any (·.1 == "value")
  | some _ => true

/-! ### Runs -/

inductive Task where
  | action (a : RouteAction)
  | actions (as : List RouteAction)
  | message (name : String) (opts : Option Expr)
  | segments (routeName : String) (segs : List (Option String × List RouteAction))
  | route (r : Route)

variable {V : Type}

/-- The task, run by the instance `self` of an entity, takes one world to another. -/
inductive Exec (program : Program) : Nat → Entity → Task → World V → World V → Prop
  | letA {self e p v w} : Exec program self e (.action (.letA p v)) w w
  | ret {self e vs w} : Exec program self e (.action (.ret vs)) w w
  | thenBranch {self e c ts es w w'} (h : Exec program self e (.actions ts) w w') :
      Exec program self e (.action (.conditional c ts es)) w w'
  | elseBranch {self e c ts es w w'} (h : Exec program self e (.actions es) w w') :
      Exec program self e (.action (.conditional c ts es)) w w'
  | loopEnd {self e p it body w} : Exec program self e (.action (.forA p it body)) w w
  | loopRound {self e p it body w w₁ w'} (h : Exec program self e (.actions body) w w₁)
      (hrest : Exec program self e (.action (.forA p it body)) w₁ w') :
      Exec program self e (.action (.forA p it body)) w w'
  | rescueOk {self e tag a w w'} (h : Exec program self e (.action a) w w') :
      Exec program self e (.action (.rescue tag a)) w w'
  -- a rescued failure leaves the world as it was
  | rescueFailed {self e tag a w} : Exec program self e (.action (.rescue tag a)) w w
  | emit {self e name args w} (vs : List V) :
      Exec program self e (.action (.emit name args)) w { w with log := w.log ++ [(self, name, vs)] }
  | transfer {self e args dest opts w} (b : Nat → Nat) :
      Exec program self e (.action (.send none args dest opts)) w { w with balance := b }
  | deploy {self e name opts args w} (d : Nat) (e' : Entity) (st : String → V) (b : Nat → Nat)
      (he : e' ∈ program.entities) (hname : e'.name = name) :
      Exec program self e (.action (.deploy name opts args)) w
        { w with storage := Function.update w.storage d st
                 entityAt := Function.update w.entityAt d (some e'), balance := b }
  | effect {self e ns name args w} (w' : World V) :
      Exec program self e (.action (.effect ns name args)) w w'
  | updateCode {self e args cb cbArgs w} (w' : World V) :
      Exec program self e (.action (.updateCode args cb cbArgs)) w w'
  | send {self e m args dest opts w w'} (h : Exec program self e (.message m opts) w w') :
      Exec program self e (.action (.send (some m) args dest opts)) w w'
  | varCall {self e x m args dest opts w w'} (h : Exec program self e (.message m opts) w w') :
      Exec program self e (.action (.varCall x m args dest opts)) w w'
  | callRoute {self e name args r w w'} (hr : e.routes.find? (·.name == name) = some r)
      (h : Exec program self e (.route r) w w') :
      Exec program self e (.action (.callRoute name args)) w w'
  -- a message is run by the instance it reaches, with the value already moved
  | deliver {self e m opts d e' r w w'} (b : Nat → Nat) (he : e' ∈ program.entities)
      (hd : w.entityAt d = some e') (hr : e'.routes.find? (·.name == m) = some r)
      (hb : attachesValue opts = false → b = w.balance)
      (h : Exec program d e' (.route r) { w with balance := b } w') :
      Exec program self e (.message m opts) w w'
  -- foreign code changes what it likes, unless the route is declared `view`
  | foreign {self e m opts x xr w} (w' : World V) (hx : x ∈ program.externEntities)
      (hr : xr ∈ x.routes) (hname : xr.name = m)
      (hview : xr.isView = true → attachesValue opts = false → w' = w) :
      Exec program self e (.message m opts) w w'
  | actionsEnd {self e as w} : Exec program self e (.actions as) w w
  | actionsCons {self e a as w w₁ w'} (h : Exec program self e (.action a) w w₁)
      (hrest : Exec program self e (.actions as) w₁ w') : Exec program self e (.actions (a :: as)) w w'
  | segmentsEnd {self e name w} : Exec program self e (.segments name []) w w
  | segmentsCons {self e name phase as segs w w₁ w'} (st : String → V)
      (hst : ∀ m, ¬ Transformed e name phase m → st m = w.storage self m)
      (h : Exec program self e (.actions as)
        { w with storage := Function.update w.storage self st } w₁)
      (hrest : Exec program self e (.segments name segs) w₁ w') :
      Exec program self e (.segments name ((phase, as) :: segs)) w w'
  | route {self e r w w'} (h : Exec program self e (.segments r.name (segments r.body)) w w') :
      Exec program self e (.route r) w w'

/-! ### Harmless actions and routes -/

section Static

variable (program : Program)

def HarmlessMessage (m : String) (opts : Option Expr) : Prop :=
  attachesValue opts = false ∧
    ∀ x ∈ program.externEntities, ∀ xr ∈ x.routes, xr.name = m → xr.isView = true

/-- The action itself changes nothing, apart from what the routes it targets do. -/
def HarmlessAction : RouteAction → Prop
  | .send (some m) _ _ opts => HarmlessMessage program m opts
  | .varCall _ m _ _ opts => HarmlessMessage program m opts
  | .send none .. | .deploy .. | .effect .. | .emit .. | .updateCode .. => False
  | .conditional .. | .ret _ | .letA .. | .rescue .. | .throw _ | .throwCustom .. | .callRoute ..
  | .forA .. => True

/-- A route that an action runs. -/
inductive Target : Entity → RouteAction → Entity × Route → Prop
  | call {e : Entity} {name : String} {args : List Expr} {r : Route}
      (hr : e.routes.find? (·.name == name) = some r) : Target e (.callRoute name args) (e, r)
  | send {e e' : Entity} {m : String} {args : List Expr} {dest : Expr} {opts : Option Expr} {r : Route}
      (he : e' ∈ program.entities) (hr : e'.routes.find? (·.name == m) = some r) :
      Target e (.send (some m) args dest opts) (e', r)
  | varCall {e e' : Entity} {x m : String} {args : List Expr} {dest : Expr} {opts : Option Expr}
      {r : Route} (he : e' ∈ program.entities) (hr : e'.routes.find? (·.name == m) = some r) :
      Target e (.varCall x m args dest opts) (e', r)

/-- An action of a route body, at any depth. -/
def NestedIn (r : Route) (a : RouteAction) : Prop := ∃ b ∈ r.body.allActions, Subaction b a

/-- From a route to one that it runs. -/
def Runs (n n' : Entity × Route) : Prop := ∃ a, NestedIn n.2 a ∧ Target program n.1 a n'

def hasTransforms (e : Entity) (routeName : String) : Bool :=
  e.members.any fun m => m.transforms.any (·.routeName == routeName)

structure HarmlessRoute (n : Entity × Route) : Prop where
  transforms : hasTransforms n.1 n.2.name = false
  actions : ∀ a, NestedIn n.2 a → HarmlessAction program a

/-- Every route reached from this one is harmless. -/
def Quiet (n : Entity × Route) : Prop :=
  ∀ n', ReflTransGen (Runs program) n n' → HarmlessRoute program n'

def QuietAction (e : Entity) (a : RouteAction) : Prop :=
  ∀ b, Subaction a b → HarmlessAction program b ∧ ∀ n, Target program e b n → Quiet program n

def QuietTask (e : Entity) : Task → Prop
  | .action a => QuietAction program e a
  | .actions as => ∀ a ∈ as, QuietAction program e a
  | .message m opts => HarmlessMessage program m opts ∧
      ∀ e' ∈ program.entities, ∀ r, e'.routes.find? (·.name == m) = some r → Quiet program (e', r)
  | .segments name segs => hasTransforms e name = false ∧
      ∀ s ∈ segs, ∀ a ∈ s.2, QuietAction program e a
  | .route r => Quiet program (e, r)

end Static

/-! ### Quiet tasks change nothing -/

variable {program : Program}

theorem Quiet.step {n n' : Entity × Route} (h : Quiet program n) (hstep : Runs program n n') :
    Quiet program n' := fun n'' hreach => h n'' (.head hstep hreach)

theorem Quiet.action {e : Entity} {r : Route} (h : Quiet program (e, r)) {a : RouteAction}
    (ha : a ∈ r.body.allActions) : QuietAction program e a := by
  intro b hb
  refine ⟨(h _ .refl).actions b ⟨a, ha, hb⟩, ?_⟩
  intro n hn
  exact h.step ⟨b, ⟨a, ha, hb⟩, hn⟩

theorem QuietAction.child {e : Entity} {a b : RouteAction} (h : QuietAction program e a)
    (hb : b ∈ a.children) : QuietAction program e b := fun c hc => h c (.head hb hc)

theorem QuietAction.self {e : Entity} {a : RouteAction} (h : QuietAction program e a) :
    HarmlessAction program a ∧ ∀ n, Target program e a n → Quiet program n := h a .refl

theorem not_transformed {e : Entity} {routeName : String} (h : hasTransforms e routeName = false)
    (phase : Option String) (m : String) : ¬ Transformed e routeName phase m := by
  rintro ⟨mem, hmem, -, t, ht, hroute, -⟩
  rw [hasTransforms, List.any_eq_false] at h
  exact h mem hmem (List.any_eq_true.mpr ⟨t, ht, beq_iff_eq.mpr hroute⟩)

theorem mem_allActions_of_segments {body : RouteBody} {s : Option String × List RouteAction}
    (hs : s ∈ segments body) {a : RouteAction} (ha : a ∈ s.2) : a ∈ body.allActions := by
  cases body with
  | unphased actions =>
    rw [List.mem_singleton.mp hs] at ha
    exact ha
  | phased phases =>
    obtain ⟨p, hp, rfl⟩ := List.mem_map.mp hs
    exact List.mem_flatMap.mpr ⟨p, hp, ha⟩
  | mixed phases actions =>
    rcases List.mem_append.mp hs with hphase | hlast
    · obtain ⟨p, hp, rfl⟩ := List.mem_map.mp hphase
      exact List.mem_append_left _ (List.mem_flatMap.mpr ⟨p, hp, ha⟩)
    · rw [List.mem_singleton.mp hlast] at ha
      exact List.mem_append_right _ ha

/-- **A quiet task leaves the world as it is.** -/
theorem exec_quiet {self : Nat} {e : Entity} {task : Task} {w w' : World V}
    (h : Exec program self e task w w') : QuietTask program e task → w' = w := by
  induction h with
  | letA | ret | loopEnd | rescueFailed | actionsEnd | segmentsEnd => exact fun _ => rfl
  | thenBranch _ ih =>
    exact fun hq => ih fun a ha => QuietAction.child hq (List.mem_append_left _ ha)
  | elseBranch _ ih =>
    exact fun hq => ih fun a ha => QuietAction.child hq (List.mem_append_right _ ha)
  | loopRound _ _ ih ihrest =>
    intro hq
    rw [ihrest hq, ih fun a ha => QuietAction.child hq ha]
  | rescueOk _ ih => exact fun hq => ih (QuietAction.child hq (List.mem_singleton.mpr rfl))
  | emit | transfer | deploy | effect | updateCode => exact fun hq => absurd hq.self.1 id
  | send _ ih => exact fun hq => ih ⟨hq.self.1, fun e' he r hr => hq.self.2 _ (.send he hr)⟩
  | varCall _ ih => exact fun hq => ih ⟨hq.self.1, fun e' he r hr => hq.self.2 _ (.varCall he hr)⟩
  | callRoute hr _ ih => exact fun hq => ih (hq.self.2 _ (.call hr))
  | deliver b he hd hr hb _ ih =>
    rintro ⟨⟨hvalue, -⟩, hquiet⟩
    rw [ih (hquiet _ he _ hr), hb hvalue]
  | foreign w' hx hr hname hview =>
    rintro ⟨⟨hvalue, hforeign⟩, -⟩
    exact hview (hforeign _ hx _ hr hname) hvalue
  | actionsCons _ _ ih ihrest =>
    intro hq
    obtain ⟨ha, has⟩ := List.forall_mem_cons.mp hq
    rw [ihrest has, ih ha]
  | @segmentsCons self e name phase as segs w w₁ w' st hst _ _ ih ihrest =>
    rintro ⟨hnone, hsegs⟩
    obtain ⟨hhead, htail⟩ := List.forall_mem_cons.mp hsegs
    have hsame : Function.update w.storage self st = w.storage := by
      rw [Function.update_eq_self_iff]
      exact funext fun m => hst m (not_transformed hnone phase m)
    rw [ihrest ⟨hnone, htail⟩, ih hhead, hsame]
  | route _ ih =>
    intro hq
    exact ih ⟨(hq _ .refl).transforms, fun s hs a ha => hq.action (mem_allActions_of_segments hs ha)⟩

end CambrianLang.Semantics
