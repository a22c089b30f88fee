/-
  **Names that stand for terms, resolved through scopes.**

  A definition is written in some scope, and the names in it mean what they mean there.
  Replacing names through one map in which the inner definitions hide the outer ones
  reads an outer definition in the inner scope.  The main result says when this makes
  no difference.
-/
import Mathlib.Logic.Relation
import Mathlib.Data.List.Basic

namespace CambrianLang.NameScopes

open Relation

inductive Term (N F : Type) where
  | name (x : N)
  | node (head : F) (args : List (Term N F))

variable {N F C : Type}

mutual
def Term.names : Term N F → List N
  | .name x => [x]
  | .node _ args => namesAll args
def namesAll : List (Term N F) → List N
  | [] => []
  | t :: ts => t.names ++ namesAll ts
end

theorem mem_namesAll {x : N} {ts : List (Term N F)} : x ∈ namesAll ts ↔ ∃ t ∈ ts, x ∈ t.names := by
  induction ts with
  | nil => simp [namesAll]
  | cons t ts ih => simp [namesAll, ih]

/-! ### Meanings -/

/-- A name seen from a context stands for a term written in some context, or for itself. -/
abbrev Binding (N F C : Type) := C → N → Option (C × Term N F)

section Meaning

variable (find : Binding N F C)

mutual
/-- The term with every name replaced by what it stands for. -/
inductive Means : C → Term N F → Term N F → Prop
  | bound {c c' : C} {x : N} {b u : Term N F} (h : find c x = some (c', b)) (hb : Means c' b u) :
      Means c (.name x) u
  | free {c : C} {x : N} (h : find c x = none) : Means c (.name x) (.name x)
  | node {c : C} {f : F} {ts us : List (Term N F)} (h : MeansAll c ts us) :
      Means c (.node f ts) (.node f us)
inductive MeansAll : C → List (Term N F) → List (Term N F) → Prop
  | nil {c : C} : MeansAll c [] []
  | cons {c : C} {t u : Term N F} {ts us : List (Term N F)} (h : Means c t u)
      (hs : MeansAll c ts us) : MeansAll c (t :: ts) (u :: us)
end

/-- No name in the term stands for something else. -/
def Bare (c : C) (t : Term N F) : Prop := ∀ x ∈ t.names, find c x = none

/-- Replacing a name, or going into an argument. -/
inductive Step : C × Term N F → C × Term N F → Prop
  | bound {c c' : C} {x : N} {b : Term N F} (h : find c x = some (c', b)) :
      Step (c, .name x) (c', b)
  | arg {c : C} {f : F} {ts : List (Term N F)} {t : Term N F} (h : t ∈ ts) :
      Step (c, .node f ts) (c, t)

/-- `n` steps lead from one to the other. -/
def After : Nat → C × Term N F → C × Term N F → Prop
  | 0, p, q => p = q
  | n + 1, p, q => ∃ m, Step find p m ∧ After n m q

/-- Replacing names down to a depth and leaving what is below. -/
def cut : Nat → C → Term N F → Term N F
  | 0, _, t => t
  | n + 1, c, .name x =>
      match find c x with
      | some (c', b) => cut n c' b
      | none => .name x
  | n + 1, c, .node f ts => .node f (ts.map (cut n c))

variable {find}

mutual
theorem Means.unique {c : C} {t u v : Term N F} (h : Means find c t u) (h' : Means find c t v) :
    u = v := by
  match h, h' with
  | .bound hx hb, .bound hx' hb' =>
    rw [hx] at hx'
    cases hx'
    exact Means.unique hb hb'
  | .bound hx _, .free hx' =>
    rw [hx] at hx'
    cases hx'
  | .free hx, .bound hx' _ =>
    rw [hx] at hx'
    cases hx'
  | .free _, .free _ => rfl
  | .node hs, .node hs' => rw [MeansAll.unique hs hs']
theorem MeansAll.unique {c : C} {ts us vs : List (Term N F)} (h : MeansAll find c ts us)
    (h' : MeansAll find c ts vs) : us = vs := by
  match h, h' with
  | .nil, .nil => rfl
  | .cons h hs, .cons h' hs' => rw [Means.unique h h', MeansAll.unique hs hs']
end

theorem bare_node {c : C} {f : F} {ts : List (Term N F)} :
    Bare find c (.node f ts) ↔ ∀ t ∈ ts, Bare find c t := by
  constructor
  · intro h t ht x hx
    exact h x (mem_namesAll.mpr ⟨t, ht, hx⟩)
  · intro h x hx
    obtain ⟨t, ht, hx⟩ := mem_namesAll.mp hx
    exact h t ht x hx

mutual
theorem means_of_bare {c : C} : ∀ {t : Term N F}, Bare find c t → Means find c t t
  | .name x, h => .free (h x (List.mem_singleton.mpr rfl))
  | .node _ _, h => .node (meansAll_of_bare (bare_node.mp h))
theorem meansAll_of_bare {c : C} : ∀ {ts : List (Term N F)}, (∀ t ∈ ts, Bare find c t) →
    MeansAll find c ts ts
  | [], _ => .nil
  | t :: _, h => .cons (means_of_bare (h t List.mem_cons_self))
      (meansAll_of_bare fun s hs => h s (List.mem_cons_of_mem _ hs))
end

theorem meansAll_map {c : C} {g : Term N F → Term N F} {ts : List (Term N F)}
    (h : ∀ t ∈ ts, Means find c t (g t)) : MeansAll find c ts (ts.map g) := by
  induction ts with
  | nil => exact .nil
  | cons t ts ih =>
    refine .cons (h t List.mem_cons_self) (ih fun s hs => ?_)
    exact h s (List.mem_cons_of_mem _ hs)

/-- Cutting off reaches the meaning if nothing is left to replace where it stops. -/
theorem means_cut {n : Nat} {c : C} {t : Term N F}
    (h : ∀ d u, After find n (c, t) (d, u) → Bare find d u) : Means find c t (cut find n c t) := by
  induction n generalizing c t with
  | zero => exact means_of_bare (h c t rfl)
  | succ n ih =>
    cases t with
    | name x =>
      rw [cut]
      cases hx : find c x with
      | none => exact .free hx
      | some p =>
        obtain ⟨c', b⟩ := p
        refine .bound hx (ih fun d u hafter => ?_)
        exact h d u ⟨_, .bound hx, hafter⟩
    | node f ts =>
      rw [cut]
      refine .node (meansAll_map fun t ht => ih fun d u hafter => ?_)
      exact h d u ⟨_, .arg ht, hafter⟩

end Meaning

/-! ### One map for all scopes -/

/-- Only one context. -/
def flat (own : N → Option (Term N F)) : Binding N F Unit := fun _ x => (own x).map ((), ·)

theorem bare_of_cut {own : N → Option (Term N F)} {n : Nat} {t u : Term N F}
    (h : Bare (flat own) () (cut (flat own) n () t)) (hafter : After (flat own) n ((), t) ((), u)) :
    Bare (flat own) () u := by
  induction n generalizing t with
  | zero =>
    cases hafter
    exact h
  | succ n ih =>
    obtain ⟨m, hstep, hafter⟩ := hafter
    cases hstep with
    | bound hx =>
      rw [cut, hx] at h
      exact ih h hafter
    | arg ht =>
      rw [cut] at h
      exact ih (bare_node.mp h _ (List.mem_map_of_mem ht)) hafter

theorem flat_eq_some {own : N → Option (Term N F)} {c c' : Unit} {x : N} {b : Term N F}
    (h : flat own c x = some (c', b)) : own x = some b := by
  obtain ⟨b', hb', heq⟩ := Option.map_eq_some_iff.mp h
  cases heq
  exact hb'

mutual
theorem Means.bare {own : N → Option (Term N F)} {c : Unit} {t u : Term N F}
    (h : Means (flat own) c t u) : ∀ x ∈ u.names, flat own c x = none := by
  match h with
  | .bound _ hb => exact Means.bare hb
  | .free hx =>
    intro y hy
    rw [List.mem_singleton.mp hy]
    exact hx
  | .node hs => exact MeansAll.bare hs
theorem MeansAll.bare {own : N → Option (Term N F)} {c : Unit} {ts us : List (Term N F)}
    (h : MeansAll (flat own) c ts us) : ∀ x ∈ namesAll us, flat own c x = none := by
  match h with
  | .nil => exact fun x hx => absurd hx List.not_mem_nil
  | .cons h hs =>
    intro x hx
    rcases List.mem_append.mp hx with hx | hx
    · exact Means.bare h x hx
    · exact MeansAll.bare hs x hx
end

/-! ### Two scopes -/

inductive Layer where
  | inner
  | outer

section Scopes

variable (own outer : N → Option (Term N F))

/-- Inner definitions are written in the inner scope and outer ones in the outer. -/
def lexical : Binding N F Layer
  | .inner, x => ((own x).map (.inner, ·)).or ((outer x).map (.outer, ·))
  | .outer, x => (outer x).map (.outer, ·)

/-- The outer definitions with the inner ones put over them. -/
def hide (x : N) : Option (Term N F) := (own x).or (outer x)

/-- A step of the lexical reading that does not replace a name of the outer scope that
    is hidden in the inner one. -/
inductive PlainStep : Layer × Term N F → Layer × Term N F → Prop
  | own {x : N} {b : Term N F} (h : own x = some b) : PlainStep (.inner, .name x) (.inner, b)
  | outer {l : Layer} {x : N} {b : Term N F} (hown : own x = none) (h : outer x = some b) :
      PlainStep (l, .name x) (.outer, b)
  | arg {l : Layer} {f : F} {ts : List (Term N F)} {t : Term N F} (h : t ∈ ts) :
      PlainStep (l, .node f ts) (l, t)

/-- Reading a term of the inner scope comes to a name written in the outer scope that the
    inner one defines. -/
def Captured (t : Term N F) (x : N) : Prop :=
  ReflTransGen (PlainStep own outer) (.inner, t) (.outer, .name x) ∧ own x ≠ none

/-- What the name means in the inner scope it also means in the outer one. -/
def SameMeaning (x : N) : Prop :=
  ∃ u, Means (lexical own outer) .inner (.name x) u ∧ Means (lexical own outer) .outer (.name x) u

variable {own outer}

theorem flat_hide_own {x : N} {b : Term N F} (h : own x = some b) :
    flat (hide own outer) () x = some ((), b) := by
  rw [flat, hide, h, Option.some_or]
  rfl

theorem flat_hide_outer {x : N} {b : Term N F} (hown : own x = none) (h : outer x = some b) :
    flat (hide own outer) () x = some ((), b) := by
  rw [flat, hide, hown, Option.none_or, h]
  rfl

theorem lexical_own {x : N} {b : Term N F} (h : own x = some b) :
    lexical own outer .inner x = some (.inner, b) := by
  rw [lexical, h]
  rfl

theorem lexical_outer {l : Layer} {x : N} {b : Term N F} (hown : own x = none)
    (h : outer x = some b) : lexical own outer l x = some (.outer, b) := by
  cases l with
  | inner =>
    rw [lexical, hown, h]
    rfl
  | outer =>
    rw [lexical, h]
    rfl

theorem lexical_none {l : Layer} {x : N} (hown : own x = none) (h : outer x = none) :
    lexical own outer l x = none := by
  cases l with
  | inner =>
    rw [lexical, hown, h]
    rfl
  | outer =>
    rw [lexical, h]
    rfl

/-- A name without any definition is none in either reading. -/
theorem means_of_bare_flat {l : Layer} {t : Term N F} (h : Bare (flat (hide own outer)) () t) :
    Means (lexical own outer) l t t := by
  apply means_of_bare
  intro x hx
  have hnone : (hide own outer x).map ((), ·) = none := h x hx
  rw [Option.map_eq_none_iff, hide, Option.or_eq_none_iff] at hnone
  exact lexical_none hnone.1 hnone.2

/-- The terms read in the inner scope: `roots`, among them its own definitions. -/
structure Roots (own : N → Option (Term N F)) (roots : Term N F → Prop) : Prop where
  own : ∀ x b, own x = some b → roots b

/-- Reading a root comes here without replacing a hidden name. -/
def Visited (own outer : N → Option (Term N F)) (roots : Term N F → Prop) (p : Layer × Term N F) :
    Prop :=
  ∃ t, roots t ∧ ReflTransGen (PlainStep own outer) (.inner, t) p

variable {roots : Term N F → Prop}

theorem Visited.step {p q : Layer × Term N F} (h : Visited own outer roots p)
    (hstep : PlainStep own outer p q) : Visited own outer roots q := by
  obtain ⟨t, ht, hpath⟩ := h
  exact ⟨t, ht, hpath.tail hstep⟩

mutual
theorem lexical_of_flat (hroots : Roots own roots)
    (hsame : ∀ t, roots t → ∀ x, Captured own outer t x → SameMeaning own outer x) {l : Layer}
    {c : Unit} {t u : Term N F} (hvisited : Visited own outer roots (l, t))
    (h : Means (flat (hide own outer)) c t u) : Means (lexical own outer) l t u := by
  match h with
  | .node hs =>
    refine .node (lexicalAll_of_flat hroots hsame (fun t ht => ?_) hs)
    exact hvisited.step (.arg ht)
  | .free hx =>
    refine means_of_bare_flat fun y hy => ?_
    rw [List.mem_singleton.mp hy]
    exact hx
  | @Means.bound _ _ _ _ _ _ x b _ hx hb =>
    have hdef : hide own outer x = some b := flat_eq_some hx
    cases hown : own x with
    | none =>
      rw [hide, hown, Option.none_or] at hdef
      exact .bound (lexical_outer hown hdef)
        (lexical_of_flat hroots hsame (hvisited.step (.outer hown hdef)) hb)
    | some b' =>
      have hb' : own x = some b := by
        rw [hide, hown, Option.some_or] at hdef
        rw [hown, hdef]
      have hinner : Means (lexical own outer) .inner (.name x) u := by
        refine .bound (lexical_own hb') (lexical_of_flat hroots hsame ?_ hb)
        exact ⟨b, hroots.own x b hb', .refl⟩
      cases l with
      | inner => exact hinner
      | outer =>
        -- the name is read in the inner scope although it is written in the outer
        obtain ⟨t, ht, hpath⟩ := hvisited
        obtain ⟨v, hv, hv'⟩ := hsame t ht x ⟨hpath, by rw [hb']; exact Option.some_ne_none b⟩
        rwa [hinner.unique hv]
theorem lexicalAll_of_flat (hroots : Roots own roots)
    (hsame : ∀ t, roots t → ∀ x, Captured own outer t x → SameMeaning own outer x) {l : Layer}
    {c : Unit} {ts us : List (Term N F)} (hvisited : ∀ t ∈ ts, Visited own outer roots (l, t))
    (h : MeansAll (flat (hide own outer)) c ts us) : MeansAll (lexical own outer) l ts us := by
  match h with
  | .nil => exact .nil
  | .cons h hs =>
    refine .cons (lexical_of_flat hroots hsame (hvisited _ List.mem_cons_self) h) ?_
    exact lexicalAll_of_flat hroots hsame (fun t ht => hvisited t (List.mem_cons_of_mem _ ht)) hs
end

/-- Both readings end with the same term. -/
def Agree (own outer : N → Option (Term N F)) (p : Layer × Term N F) : Prop :=
  ∃ u, Means (flat (hide own outer)) () p.2 u ∧ Means (lexical own outer) p.1 p.2 u

theorem agree_arg {l : Layer} {ts us : List (Term N F)}
    (h : MeansAll (flat (hide own outer)) () ts us) (h' : MeansAll (lexical own outer) l ts us) :
    ∀ t ∈ ts, Agree own outer (l, t) := by
  induction ts generalizing us with
  | nil => exact fun t ht => absurd ht List.not_mem_nil
  | cons t ts ih =>
    cases h with
    | cons h hs =>
      cases h' with
      | cons h' hs' =>
        intro s hs''
        rcases List.mem_cons.mp hs'' with rfl | hmem
        · exact ⟨_, h, h'⟩
        · exact ih hs hs' s hmem

theorem Agree.step (hroots : Roots own roots) (hagree : ∀ t, roots t → Agree own outer (.inner, t))
    {p q : Layer × Term N F} (h : Agree own outer p) (hstep : PlainStep own outer p q) :
    Agree own outer q := by
  obtain ⟨u, hflat, hlex⟩ := h
  cases hstep with
  | own hx => exact hagree _ (hroots.own _ _ hx)
  | outer hown hx =>
    cases hflat with
    | free hnone =>
      rw [flat_hide_outer hown hx] at hnone
      cases hnone
    | bound hbound hb =>
      rw [flat_hide_outer hown hx] at hbound
      cases hbound
      cases hlex with
      | free hnone =>
        rw [lexical_outer hown hx] at hnone
        cases hnone
      | bound hbound hb' =>
        rw [lexical_outer hown hx] at hbound
        cases hbound
        exact ⟨u, hb, hb'⟩
  | arg ht =>
    cases hflat with
    | node hs =>
      cases hlex with
      | node hs' => exact agree_arg hs hs' _ ht

/-- **When one map is as good as two scopes.**  If the flat reading of every root ends, it
    is the lexical one exactly when every captured name means the same in both scopes. -/
theorem agree_iff (hroots : Roots own roots)
    (htotal : ∀ t, roots t → ∃ u, Means (flat (hide own outer)) () t u) :
    (∀ t, roots t → Agree own outer (.inner, t)) ↔
      ∀ t, roots t → ∀ x, Captured own outer t x → SameMeaning own outer x := by
  constructor
  · intro hagree t ht x hcaptured
    obtain ⟨hpath, hown⟩ := hcaptured
    have hx : Agree own outer (.outer, .name x) := by
      clear hown
      generalize (Layer.outer, Term.name x) = q at hpath
      induction hpath with
      | refl => exact hagree t ht
      | tail _ hstep ih => exact ih.step hroots hagree hstep
    obtain ⟨u, hflat, hlex⟩ := hx
    obtain ⟨b, hb⟩ := Option.ne_none_iff_exists'.mp hown
    cases hflat with
    | free hnone =>
      rw [flat_hide_own hb] at hnone
      cases hnone
    | bound hbound hbu =>
      rw [flat_hide_own hb] at hbound
      cases hbound
      obtain ⟨v, hv, hv'⟩ := hagree b (hroots.own x b hb)
      rw [hbu.unique hv] at hlex
      exact ⟨v, .bound (lexical_own hb) hv', hlex⟩
  · intro hsame t ht
    obtain ⟨u, hu⟩ := htotal t ht
    exact ⟨u, hu, lexical_of_flat hroots hsame ⟨t, ht, .refl⟩ hu⟩

end Scopes

end CambrianLang.NameScopes
