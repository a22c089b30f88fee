/-
  **Rebound names of pure functions** (`rename_rebound_lets`, `codegen/solidity/core/pure.rs`).

  A `let` that rebinds a parameter or an earlier `let` of the same spine gets a fresh name,
  innermost first.  The candidates are tested against the expression as it was written, so a
  name that an inner rebinding has just been given can be taken again, and a name that is
  bound without being mentioned is not seen.
-/
import CambrianLang.Semantics.Binding
import CambrianLang.Project.Desugar
import Mathlib.Data.Set.Finite.Basic

namespace CambrianLang.Solidity

open Ast Semantics

/-! ### The pass -/

/-- `expr_mentions_ident`. -/
def mentionsIdent (e : Expr) (name : String) : Bool := (idents e).contains name

/-- `expr_binds_name`. -/
def exprBindsName (e : Expr) (name : String) : Bool := (binders e).contains name

/-- `x_<n>`. -/
def candidate (x : String) (n : Nat) : String := x ++ "_" ++ Nat.repr n

theorem candidate_injective (x : String) : Function.Injective (candidate x) := by
  intro m n h
  have hrepr : Nat.repr m = Nat.repr n := by
    simpa [candidate] using h
  exact Authored.natRepr_injective hrepr

/-- A name that is neither bound above nor mentioned. -/
def Unused (bound : List String) (e : Expr) (c : String) : Prop :=
  c ∉ bound ∧ mentionsIdent e c = false

instance (bound : List String) (e : Expr) (c : String) : Decidable (Unused bound e c) :=
  inferInstanceAs (Decidable (_ ∧ _))

theorem exists_candidate (bound : List String) (e : Expr) (x : String) :
    ∃ n, Unused bound e (candidate x (n + 1)) := by
  have hinj : Function.Injective fun n => candidate x (n + 1) :=
    fun m n h => Nat.succ_injective (candidate_injective x h)
  obtain ⟨_, ⟨n, rfl⟩, hn⟩ := (Set.infinite_range_of_injective hinj).exists_notMem_finset
    (bound ++ idents e).toFinset
  rw [List.mem_toFinset, List.mem_append, not_or] at hn
  refine ⟨n, hn.1, ?_⟩
  rw [mentionsIdent, List.contains_eq_mem]
  exact decide_eq_false hn.2

/-- The first of `x_1`, `x_2`, … that is unused. -/
def freshLocal (bound : List String) (e : Expr) (x : String) : String :=
  candidate x (Nat.find (exists_candidate bound e x) + 1)

/-- `rename_rebound_lets`. -/
def renameReboundLets (bound : List String) : Expr → Expr
  | .letE (.ident x) value body =>
      let inner := renameReboundLets (x :: bound) body
      if x ∉ bound || exprBindsName inner x then .letE (.ident x) value inner
      else
        let fresh := freshLocal bound (.letE (.ident x) value body) x
        .letE (.ident fresh) value (renameIdent inner x fresh)
  | e => e

/-! ### The spine -/

/-- The names bound along the `let` spine. -/
def spine : Expr → List String
  | .letE (.ident x) _ body => x :: spine body
  | _ => []

/-- The names bound by the binders that are not `let`s of the spine. -/
def nested : Expr → List String
  | .letE (.ident _) value body => binders value ++ nested body
  | e => binders e

/-- A `let` of the spine whose name is bound above. -/
structure Rebinding where
  bound : List String
  name : String
  value : Expr
  body : Expr

def Rebinding.site (r : Rebinding) : Expr := .letE (.ident r.name) r.value r.body

/-- The first `x_<n>` that is neither bound above nor mentioned from the `let` on. -/
def Rebinding.fresh (r : Rebinding) : String := freshLocal r.bound r.site r.name

def rebindings (bound : List String) : Expr → List Rebinding
  | .letE (.ident x) value body =>
      (if x ∈ bound then [⟨bound, x, value, body⟩] else []) ++ rebindings (x :: bound) body
  | _ => []

def isRenamed (names : String × String) : Bool := names.1 != names.2

/-- The names that are new along the spine. -/
def introduced (params : List String) (body : Expr) : List String :=
  (((spine body).zip (spine (renameReboundLets params body))).filter isRenamed).map Prod.snd

/-- What the pass is for: the value is kept, the spine declares every name once and no
    parameter, and a new name is neither free in the body nor bound by it. -/
structure KeepsMeaning (params : List String) (body : Expr) : Prop where
  value : ∀ (V R : Type) (M : Computes V R) (ρ : String → V),
    M.eval (renameReboundLets params body) ρ = M.eval body ρ
  distinct : (spine (renameReboundLets params body)).Nodup
  apart : ∀ p ∈ params, p ∉ spine (renameReboundLets params body)
  fresh : ∀ c ∈ introduced params body, ¬ OccursFree c body ∧ c ∉ binders body

/-- No nested binder binds a rebound name below, the names that are to be introduced are
    neither free in the body nor bound by it, and no two of them are the same. -/
structure Renamable (params : List String) (body : Expr) : Prop where
  alone : ∀ r ∈ rebindings params body, r.name ∉ nested r.body
  unused : ∀ r ∈ rebindings params body, ¬ OccursFree r.fresh body ∧ r.fresh ∉ binders body
  distinct : ((rebindings params body).map Rebinding.fresh).Nodup

/-! ### What the pass does to one `let` -/

theorem freshLocal_unused (bound : List String) (e : Expr) (x : String) :
    freshLocal bound e x ∉ bound ∧ freshLocal bound e x ∉ idents e := by
  obtain ⟨hbound, hmention⟩ := Nat.find_spec (exists_candidate bound e x)
  rw [mentionsIdent, List.contains_eq_mem] at hmention
  exact ⟨hbound, of_decide_eq_false hmention⟩

/-- The first candidate is taken when it is unused. -/
theorem freshLocal_of_first {bound : List String} {e : Expr} {x : String}
    (h : Unused bound e (candidate x 1)) : freshLocal bound e x = candidate x 1 := by
  have hzero : Nat.find (exists_candidate bound e x) = 0 := (Nat.find_eq_zero _).mpr h
  rw [freshLocal, hzero]

section OneLet

variable {bound : List String} {x : String} {value body : Expr}

theorem renameReboundLets_keep
    (h : x ∉ bound ∨ x ∈ binders (renameReboundLets (x :: bound) body)) :
    renameReboundLets bound (.letE (.ident x) value body) =
      .letE (.ident x) value (renameReboundLets (x :: bound) body) := by
  rw [renameReboundLets, if_pos]
  rw [Bool.or_eq_true, exprBindsName, List.contains_iff_mem]
  exact h.imp_left decide_eq_true

theorem renameReboundLets_rename (hx : x ∈ bound)
    (hinner : x ∉ binders (renameReboundLets (x :: bound) body)) :
    renameReboundLets bound (.letE (.ident x) value body) =
      .letE (.ident (freshLocal bound (.letE (.ident x) value body) x)) value
        (renameIdent (renameReboundLets (x :: bound) body) x
          (freshLocal bound (.letE (.ident x) value body) x)) := by
  rw [renameReboundLets, if_neg]
  rw [Bool.or_eq_true, exprBindsName, List.contains_iff_mem, not_or]
  exact ⟨fun h => of_decide_eq_true h hx, hinner⟩

theorem rebindings_of_notMem (hx : x ∉ bound) :
    rebindings bound (.letE (.ident x) value body) = rebindings (x :: bound) body := by
  rw [rebindings, if_neg hx, List.nil_append]

theorem rebindings_of_mem (hx : x ∈ bound) :
    rebindings bound (.letE (.ident x) value body) =
      ⟨bound, x, value, body⟩ :: rebindings (x :: bound) body := by
  rw [rebindings, if_pos hx, List.singleton_append]

end OneLet

/-! ### Spines -/

/-- The expression is not a `let` of a plain name. -/
def EndsSpine (e : Expr) : Prop := ∀ x v b, e ≠ .letE (.ident x) v b

theorem spine_induction {P : List String → Expr → Prop} (hend : ∀ bound e, EndsSpine e → P bound e)
    (hlet : ∀ bound x v b, P (x :: bound) b → P bound (.letE (.ident x) v b)) (bound : List String)
    (e : Expr) : P bound e := by
  induction hr : e.rank using Nat.strongRecOn generalizing bound e with
  | ind n ih =>
    by_cases h : ∃ x v b, e = .letE (.ident x) v b
    · obtain ⟨x, v, b, rfl⟩ := h
      have hlt : b.rank < n := by
        rw [← hr, Expr.rank]
        omega
      exact hlet bound x v b (ih b.rank hlt (x :: bound) b rfl)
    · exact hend bound e fun x v b heq => h ⟨x, v, b, heq⟩

section End

variable {bound : List String} {e : Expr}

theorem EndsSpine.rename_eq (h : EndsSpine e) : renameReboundLets bound e = e := by
  unfold renameReboundLets
  split
  · exact absurd rfl (h _ _ _)
  · rfl

theorem EndsSpine.spine_eq (h : EndsSpine e) : spine e = [] := by
  unfold spine
  split
  · exact absurd rfl (h _ _ _)
  · rfl

theorem EndsSpine.nested_eq (h : EndsSpine e) : nested e = binders e := by
  unfold nested
  split
  · exact absurd rfl (h _ _ _)
  · rfl

theorem EndsSpine.rebindings_eq (h : EndsSpine e) : rebindings bound e = [] := by
  unfold rebindings
  split
  · exact absurd rfl (h _ _ _)
  · rfl

end End

theorem mem_binders_letE {x y : String} {v b : Expr} :
    y ∈ binders (.letE (.ident x) v b) ↔ y ∈ binders v ∨ y = x ∨ y ∈ binders b := by
  rw [mem_binders]
  simp [Expr.slots, inOperand, Slot.names, Pattern.names]

theorem mem_idents_letE {x y : String} {v b : Expr} :
    y ∈ idents (.letE (.ident x) v b) ↔ y ∈ idents v ∨ y ∈ idents b := by
  rw [mem_idents_node (fun z => (nofun : Expr.letE (.ident x) v b ≠ .ident z))]
  simp [Expr.slots, inOperand]

/-- A binder stands on the spine or not. -/
theorem mem_binders_iff (e : Expr) (y : String) : y ∈ binders e ↔ y ∈ nested e ∨ y ∈ spine e := by
  induction ([] : List String), e using spine_induction with
  | hend _ e h => simp [h.nested_eq, h.spine_eq]
  | hlet _ x v b ih =>
    rw [mem_binders_letE, ih, nested, spine, List.mem_append, List.mem_cons]
    tauto

/-! ### The binders of the renamed body -/

theorem renameIdent_letE (x : String) (v b : Expr) (old new : String) :
    renameIdent (.letE (.ident x) v b) old new =
      .letE (.ident x) (renameIdent v old new) (renameIdent b old new) := by
  have hne : ∀ y, Expr.letE (.ident x) v b ≠ .ident y := fun _ h => nomatch h
  rw [renameIdent_node hne]
  rfl

theorem endsSpine_renameIdent {e : Expr} (h : EndsSpine e) (old new : String) :
    EndsSpine (renameIdent e old new) := by
  rcases eq_ident_or e with ⟨y, rfl⟩ | hne
  · exact fun x v b heq => nomatch (renameIdent_ident y old new ▸ heq)
  · rw [renameIdent_node hne]
    intro x v b heq
    cases e with
    | letE p v' b' =>
      cases heq
      exact h x v' b' rfl
    | _ => cases heq

theorem spine_renameIdent (e : Expr) (old new : String) : spine (renameIdent e old new) = spine e := by
  induction ([] : List String), e using spine_induction with
  | hend _ e h => rw [(endsSpine_renameIdent h old new).spine_eq, h.spine_eq]
  | hlet _ x v b ih => rw [renameIdent_letE, spine, spine, ih]

theorem mem_nested_renameIdent (e : Expr) (old new y : String) :
    y ∈ nested (renameIdent e old new) ↔ y ∈ nested e := by
  induction ([] : List String), e using spine_induction with
  | hend _ e h =>
    rw [(endsSpine_renameIdent h old new).nested_eq, h.nested_eq, mem_binders_renameIdent]
  | hlet _ x v b ih =>
    rw [renameIdent_letE, nested, nested, List.mem_append, List.mem_append, ih, mem_binders_renameIdent]

theorem mem_nested_rename (bound : List String) (e : Expr) (y : String) :
    y ∈ nested (renameReboundLets bound e) ↔ y ∈ nested e := by
  induction bound, e using spine_induction with
  | hend bound e h => rw [h.rename_eq]
  | hlet bound x v b ih =>
    rw [nested, List.mem_append, ← ih]
    by_cases hkeep : x ∉ bound ∨ x ∈ binders (renameReboundLets (x :: bound) b)
    · rw [renameReboundLets_keep hkeep, nested, List.mem_append]
    · rw [not_or, not_not] at hkeep
      rw [renameReboundLets_rename hkeep.1 hkeep.2, nested, List.mem_append, mem_nested_renameIdent]

/-- The names that the rebindings of an expression would get. -/
abbrev freshNames (bound : List String) (e : Expr) : List String :=
  (rebindings bound e).map Rebinding.fresh

theorem freshNames_sub (bound : List String) (x : String) (v b : Expr) {y : String}
    (hy : y ∈ freshNames (x :: bound) b) : y ∈ freshNames bound (.letE (.ident x) v b) := by
  by_cases hx : x ∈ bound
  · rw [freshNames, rebindings_of_mem hx]
    exact List.mem_cons_of_mem _ hy
  · rwa [freshNames, rebindings_of_notMem hx]

theorem fresh_mem_freshNames {bound : List String} {x : String} (hx : x ∈ bound) (v b : Expr) :
    freshLocal bound (.letE (.ident x) v b) x ∈ freshNames bound (.letE (.ident x) v b) := by
  rw [freshNames, rebindings_of_mem hx]
  exact List.mem_cons_self

theorem mem_spine_rename {bound : List String} {e : Expr} {y : String}
    (hy : y ∈ spine (renameReboundLets bound e)) : y ∈ spine e ∨ y ∈ freshNames bound e := by
  induction bound, e using spine_induction with
  | hend bound e h => exact Or.inl (h.rename_eq ▸ hy)
  | hlet bound x v b ih =>
    rw [spine, List.mem_cons]
    by_cases hkeep : x ∉ bound ∨ x ∈ binders (renameReboundLets (x :: bound) b)
    · rw [renameReboundLets_keep hkeep, spine, List.mem_cons] at hy
      rcases hy with rfl | hy
      · exact Or.inl (Or.inl rfl)
      · exact (ih hy).imp Or.inr (freshNames_sub bound x v b)
    · rw [not_or, not_not] at hkeep
      rw [renameReboundLets_rename hkeep.1 hkeep.2, spine, List.mem_cons, spine_renameIdent] at hy
      rcases hy with rfl | hy
      · exact Or.inr (fresh_mem_freshNames hkeep.1 v b)
      · exact (ih hy).imp Or.inr (freshNames_sub bound x v b)

theorem mem_idents_rename {bound : List String} {e : Expr} {y : String}
    (hy : y ∈ idents (renameReboundLets bound e)) : y ∈ idents e ∨ y ∈ freshNames bound e := by
  induction bound, e using spine_induction with
  | hend bound e h => exact Or.inl (h.rename_eq ▸ hy)
  | hlet bound x v b ih =>
    rw [mem_idents_letE]
    by_cases hkeep : x ∉ bound ∨ x ∈ binders (renameReboundLets (x :: bound) b)
    · rw [renameReboundLets_keep hkeep, mem_idents_letE] at hy
      rcases hy with hy | hy
      · exact Or.inl (Or.inl hy)
      · exact (ih hy).imp Or.inr (freshNames_sub bound x v b)
    · rw [not_or, not_not] at hkeep
      rw [renameReboundLets_rename hkeep.1 hkeep.2, mem_idents_letE] at hy
      rcases hy with hy | hy
      · exact Or.inl (Or.inl hy)
      · rcases mem_idents_renameIdent hy with hy | rfl
        · exact (ih hy).imp Or.inr (freshNames_sub bound x v b)
        · exact Or.inr (fresh_mem_freshNames hkeep.1 v b)

/-! ### When every rebinding is renamed -/

/-- No nested binder binds a rebound name below it. -/
def Alone (bound : List String) (e : Expr) : Prop := ∀ r ∈ rebindings bound e, r.name ∉ nested r.body

section Alone

variable {bound : List String} {e : Expr}

theorem Alone.body {x : String} {v b : Expr} (h : Alone bound (.letE (.ident x) v b)) :
    Alone (x :: bound) b := by
  intro r hr
  by_cases hx : x ∈ bound
  · refine h r ?_
    rw [rebindings_of_mem hx]
    exact List.mem_cons_of_mem _ hr
  · refine h r ?_
    rwa [rebindings_of_notMem hx]

theorem Alone.head {x : String} {v b : Expr} (h : Alone bound (.letE (.ident x) v b)) (hx : x ∈ bound) :
    x ∉ nested b := by
  refine h ⟨bound, x, v, b⟩ ?_
  rw [rebindings_of_mem hx]
  exact List.mem_cons_self

/-- Then no name that is bound above is left on the spine. -/
theorem Alone.apart (h : Alone bound e) {p : String} (hp : p ∈ bound) :
    p ∉ spine (renameReboundLets bound e) := by
  induction bound, e using spine_induction generalizing p with
  | hend bound e hend =>
    rw [hend.rename_eq, hend.spine_eq]
    exact List.not_mem_nil
  | hlet bound x v b ih =>
    by_cases hx : x ∈ bound
    · have hinner : x ∉ binders (renameReboundLets (x :: bound) b) := by
        rw [mem_binders_iff, mem_nested_rename, not_or]
        exact ⟨h.head hx, ih h.body List.mem_cons_self⟩
      rw [renameReboundLets_rename hx hinner, spine, List.mem_cons, spine_renameIdent, not_or]
      refine ⟨fun heq => ?_, ih h.body (List.mem_cons_of_mem _ hp)⟩
      exact (freshLocal_unused bound (.letE (.ident x) v b) x).1 (heq ▸ hp)
    · rw [renameReboundLets_keep (Or.inl hx), spine, List.mem_cons, not_or]
      exact ⟨fun heq => hx (heq ▸ hp), ih h.body (List.mem_cons_of_mem _ hp)⟩

theorem Alone.renamed {x : String} {v b : Expr} (h : Alone bound (.letE (.ident x) v b))
    (hx : x ∈ bound) : x ∉ binders (renameReboundLets (x :: bound) b) := by
  rw [mem_binders_iff, mem_nested_rename, not_or]
  exact ⟨h.head hx, h.body.apart List.mem_cons_self⟩

/-- What is new along the spine are the names of the rebindings. -/
theorem Alone.introduced_eq (h : Alone bound e) : introduced bound e = freshNames bound e := by
  rw [introduced]
  induction bound, e using spine_induction with
  | hend bound e hend =>
    rw [hend.spine_eq, freshNames, hend.rebindings_eq]
    rfl
  | hlet bound x v b ih =>
    have hrest := ih h.body
    by_cases hx : x ∈ bound
    · have hne : isRenamed (x, freshLocal bound (.letE (.ident x) v b) x) = true :=
        bne_iff_ne.mpr fun heq : x = _ => (freshLocal_unused bound _ x).1 (heq ▸ hx)
      rw [renameReboundLets_rename hx (h.renamed hx), spine, spine, spine_renameIdent, freshNames,
        rebindings_of_mem hx, List.zip_cons_cons, List.filter_cons_of_pos hne,
        List.map_cons, List.map_cons, hrest]
      rfl
    · rw [renameReboundLets_keep (Or.inl hx), spine, spine, freshNames, rebindings_of_notMem hx,
        List.zip_cons_cons, List.filter_cons_of_neg (by simp [isRenamed]), hrest]

theorem Alone.sublist (h : Alone bound e) :
    (freshNames bound e).Sublist (spine (renameReboundLets bound e)) := by
  induction bound, e using spine_induction with
  | hend bound e hend =>
    rw [freshNames, hend.rebindings_eq]
    exact List.nil_sublist _
  | hlet bound x v b ih =>
    by_cases hx : x ∈ bound
    · rw [renameReboundLets_rename hx (h.renamed hx), spine, spine_renameIdent, freshNames,
        rebindings_of_mem hx, List.map_cons]
      exact (ih h.body).cons_cons _
    · rw [renameReboundLets_keep (Or.inl hx), spine, freshNames, rebindings_of_notMem hx]
      exact (ih h.body).cons _

end Alone

/-- **Distinct names leave no rebinding as it was.** -/
theorem alone_of_distinct {bound : List String} {e : Expr}
    (hdistinct : (spine (renameReboundLets bound e)).Nodup)
    (hapart : ∀ p ∈ bound, p ∉ spine (renameReboundLets bound e)) : Alone bound e := by
  induction bound, e using spine_induction with
  | hend bound e hend =>
    intro r hr
    rw [hend.rebindings_eq] at hr
    exact absurd hr List.not_mem_nil
  | hlet bound x v b ih =>
    by_cases hkeep : x ∉ bound ∨ x ∈ binders (renameReboundLets (x :: bound) b)
    · rw [renameReboundLets_keep hkeep, spine] at hdistinct hapart
      have hx : x ∉ bound := fun hmem => hapart x hmem List.mem_cons_self
      obtain ⟨hnot, hrest⟩ := List.nodup_cons.mp hdistinct
      have hbody := ih hrest fun p hp => by
        rcases List.mem_cons.mp hp with rfl | hp
        · exact hnot
        · exact fun hmem => hapart p hp (List.mem_cons_of_mem _ hmem)
      intro r hr
      rw [rebindings_of_notMem hx] at hr
      exact hbody r hr
    · rw [not_or, not_not] at hkeep
      obtain ⟨hx, hinner⟩ := hkeep
      rw [renameReboundLets_rename hx hinner, spine, spine_renameIdent] at hdistinct hapart
      rw [mem_binders_iff, mem_nested_rename, not_or] at hinner
      have hbody := ih (List.nodup_cons.mp hdistinct).2 fun p hp => by
        rcases List.mem_cons.mp hp with rfl | hp
        · exact hinner.2
        · exact fun hmem => hapart p hp (List.mem_cons_of_mem _ hmem)
      intro r hr
      rw [rebindings_of_mem hx] at hr
      rcases List.mem_cons.mp hr with rfl | hr
      · exact hinner.1
      · exact hbody r hr

/-! ### Distinct names and kept values -/

/-- Each rebinding gets a name of its own that nothing in the expression binds. -/
structure OwnNames (bound : List String) (e : Expr) : Prop where
  alone : Alone bound e
  unbound : ∀ c ∈ freshNames bound e, c ∉ binders e
  distinct : (freshNames bound e).Nodup

section OwnNames

variable {bound : List String} {e : Expr}

theorem OwnNames.body {x : String} {v b : Expr} (h : OwnNames bound (.letE (.ident x) v b)) :
    OwnNames (x :: bound) b where
  alone := h.alone.body
  unbound := fun c hc hmem =>
    h.unbound c (freshNames_sub bound x v b hc) (mem_binders_letE.mpr (Or.inr (Or.inr hmem)))
  distinct := by
    have hdistinct := h.distinct
    by_cases hx : x ∈ bound
    · rw [freshNames, rebindings_of_mem hx] at hdistinct
      exact (List.nodup_cons.mp hdistinct).2
    · rwa [freshNames, rebindings_of_notMem hx] at hdistinct

/-- The name of the first rebinding does not come up behind it. -/
theorem OwnNames.fresh_notMem {x : String} {v b : Expr} (h : OwnNames bound (.letE (.ident x) v b))
    (hx : x ∈ bound) :
    freshLocal bound (.letE (.ident x) v b) x ∉ freshNames (x :: bound) b := by
  have hdistinct := h.distinct
  rw [freshNames, rebindings_of_mem hx] at hdistinct
  exact (List.nodup_cons.mp hdistinct).1

theorem OwnNames.fresh_notMem_spine {x : String} {v b : Expr}
    (h : OwnNames bound (.letE (.ident x) v b)) (hx : x ∈ bound) :
    freshLocal bound (.letE (.ident x) v b) x ∉ spine (renameReboundLets (x :: bound) b) := by
  intro hmem
  rcases mem_spine_rename hmem with hold | hnew
  · refine h.unbound _ (fresh_mem_freshNames hx v b) (mem_binders_letE.mpr (Or.inr (Or.inr ?_)))
    exact (mem_binders_iff b _).mpr (Or.inr hold)
  · exact h.fresh_notMem hx hnew

theorem OwnNames.nodup (h : OwnNames bound e) : (spine (renameReboundLets bound e)).Nodup := by
  induction bound, e using spine_induction with
  | hend bound e hend =>
    rw [hend.rename_eq, hend.spine_eq]
    exact List.nodup_nil
  | hlet bound x v b ih =>
    by_cases hx : x ∈ bound
    · rw [renameReboundLets_rename hx (h.alone.renamed hx), spine, spine_renameIdent]
      exact List.nodup_cons.mpr ⟨h.fresh_notMem_spine hx, ih h.body⟩
    · rw [renameReboundLets_keep (Or.inl hx), spine]
      exact List.nodup_cons.mpr ⟨h.alone.body.apart List.mem_cons_self, ih h.body⟩

theorem renamed_bindNames {V : Type} {old new : String} (vs : Nat → V) (ρ : String → V) :
    Renamed old new (bindNames [new] vs ρ) (bindNames [old] vs ρ) where
  moved := by rw [bindNames_singleton_self, bindNames_singleton_self]
  other := by
    intro y hold hnew
    rw [bindNames_of_notMem (by simpa using hnew), bindNames_of_notMem (by simpa using hold)]

/-- **The renamed expression has the value of the original one.** -/
theorem OwnNames.eval_eq (h : OwnNames bound e) {V R : Type} (M : Computes V R) (ρ : String → V) :
    M.eval (renameReboundLets bound e) ρ = M.eval e ρ := by
  induction bound, e using spine_induction generalizing ρ with
  | hend bound e hend => rw [hend.rename_eq]
  | hlet bound x v b ih =>
    by_cases hx : x ∈ bound
    · have hinner := h.alone.renamed hx
      have hunused := freshLocal_unused bound (.letE (.ident x) v b) x
      set c := freshLocal bound (.letE (.ident x) v b) x with hc
      have hbinders : c ∉ binders (renameReboundLets (x :: bound) b) := by
        rw [mem_binders_iff, mem_nested_rename, not_or]
        refine ⟨fun hmem => ?_, h.fresh_notMem_spine hx⟩
        refine h.unbound c (fresh_mem_freshNames hx v b) (mem_binders_letE.mpr (Or.inr (Or.inr ?_)))
        exact (mem_binders_iff b c).mpr (Or.inl hmem)
      have hidents : c ∉ idents (renameReboundLets (x :: bound) b) := by
        intro hmem
        rcases mem_idents_rename hmem with hold | hnew
        · exact hunused.2 (mem_idents_letE.mpr (Or.inr hold))
        · exact h.fresh_notMem hx hnew
      rw [renameReboundLets_rename hx hinner, ← hc, eval_letE, eval_letE]
      congr 2
      refine congrArg (List.cons · []) (funext fun vs => ?_)
      rw [eval_renameIdent hinner hbinders hidents (renamed_bindNames vs ρ), ih h.body]
    · rw [renameReboundLets_keep (Or.inl hx), eval_letE, eval_letE]
      congr 2
      refine congrArg (List.cons · []) (funext fun vs => ?_)
      exact ih h.body _

end OwnNames

/-- **When renaming rebound names is faithful.**  The value is kept, the spine binds pairwise
distinct names other than the parameters and no new name is free or bound elsewhere in the
body exactly when no nested binder binds a rebound name below it and every rebinding gets a
name of its own that is neither free in the body nor bound by it. -/
theorem keepsMeaning_iff (params : List String) (body : Expr) :
    KeepsMeaning params body ↔ Renamable params body := by
  constructor
  · intro h
    have halone := alone_of_distinct h.distinct h.apart
    have hintroduced := halone.introduced_eq
    refine ⟨halone, fun r hr => h.fresh r.fresh ?_, h.distinct.sublist halone.sublist⟩
    rw [hintroduced]
    exact List.mem_map.mpr ⟨r, hr, rfl⟩
  · intro h
    have hown : OwnNames params body := by
      refine ⟨h.alone, fun c hc => ?_, h.distinct⟩
      obtain ⟨r, hr, rfl⟩ := List.mem_map.mp hc
      exact (h.unused r hr).2
    have halone : Alone params body := h.alone
    refine ⟨fun V R M ρ => hown.eval_eq M ρ, hown.nodup, fun p hp => halone.apart hp, ?_⟩
    intro c hc
    rw [halone.introduced_eq] at hc
    obtain ⟨r, hr, rfl⟩ := List.mem_map.mp hc
    exact h.unused r hr

/-- `{ let x = a; let x = b; x }`. -/
def reboundTwice : Expr :=
  .letE (.ident "x") (.ident "a") (.letE (.ident "x") (.ident "b") (.ident "x"))

theorem mem_idents_reboundTwice {y : String} (hy : y ∈ idents reboundTwice) :
    y = "a" ∨ y = "b" ∨ y = "x" := by
  simpa [reboundTwice, mem_idents_letE, idents_ident] using hy

/-- A parameter that is rebound twice: both rebindings are called `x_1`. -/
theorem not_keepsMeaning_reboundTwice : ¬ KeepsMeaning ["x", "a", "b"] reboundTwice := by
  intro h
  have hdistinct := ((keepsMeaning_iff ["x", "a", "b"] reboundTwice).mp h).distinct
  have houter : freshLocal ["x", "a", "b"] reboundTwice "x" = candidate "x" 1 := by
    refine freshLocal_of_first ⟨by decide, ?_⟩
    rw [mentionsIdent, List.contains_eq_mem, decide_eq_false_iff_not]
    intro hmem
    exact absurd (mem_idents_reboundTwice hmem) (by decide)
  have hinner : freshLocal ["x", "x", "a", "b"] (.letE (.ident "x") (.ident "b") (.ident "x")) "x" =
      candidate "x" 1 := by
    refine freshLocal_of_first ⟨by decide, ?_⟩
    rw [mentionsIdent, List.contains_eq_mem, decide_eq_false_iff_not]
    intro hmem
    exact absurd (mem_idents_reboundTwice (mem_idents_letE.mpr (Or.inr hmem))) (by decide)
  have hnames : (rebindings ["x", "a", "b"] reboundTwice).map Rebinding.fresh =
      [freshLocal ["x", "a", "b"] reboundTwice "x",
        freshLocal ["x", "x", "a", "b"] (.letE (.ident "x") (.ident "b") (.ident "x")) "x"] := by
    rw [reboundTwice, rebindings_of_mem (by decide), rebindings_of_mem (by decide)]
    rfl
  rw [hnames, houter, hinner] at hdistinct
  exact (List.nodup_cons.mp hdistinct).1 (List.mem_singleton_self _)

end CambrianLang.Solidity
