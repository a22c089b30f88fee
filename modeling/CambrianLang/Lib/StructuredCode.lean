/-
  **What structured code can change.**

  Code writes keys of a store, calls out, branches, loops and may leave early.  Which
  branch is taken, how often a loop runs and what a call does is left open, so what
  holds of every execution holds whatever the conditions and callees are.
-/
import Mathlib.Logic.Relation
import Mathlib.Data.List.Basic

namespace CambrianLang.StructuredCode

open Relation

inductive Code (K C : Type) where
  | skip
  | write (key : K)
  | call (callee : C)
  | leave
  /-- undoes the whole run, so there is no store to run to -/
  | fail
  | seq (first rest : Code K C)
  | branch (thenC elseC : Code K C)
  | loop (body : Code K C)

variable {K C V : Type}

/-- The keys the code writes itself. -/
def Code.writes : Code K C → List K
  | .skip | .call _ | .leave | .fail => []
  | .write k => [k]
  | .seq a b | .branch a b => a.writes ++ b.writes
  | .loop a => a.writes

def Code.calls : Code K C → List C
  | .skip | .write _ | .leave | .fail => []
  | .call c => [c]
  | .seq a b | .branch a b => a.calls ++ b.calls
  | .loop a => a.calls

def sequence : List (Code K C) → Code K C
  | [] => .skip
  | a :: as => .seq a (sequence as)

/-- The code run from one store to another; the flag says whether it was left. -/
inductive Exec (callee : C → (K → V) → (K → V) → Prop) :
    Code K C → (K → V) → (K → V) → Bool → Prop
  | skip {s} : Exec callee .skip s s false
  | write {k s s'} (h : ∀ j, j ≠ k → s' j = s j) : Exec callee (.write k) s s' false
  | call {c s s'} (h : callee c s s') : Exec callee (.call c) s s' false
  | leave {s} : Exec callee .leave s s true
  | seq {a b s m s' left} (ha : Exec callee a s m false) (hb : Exec callee b m s' left) :
      Exec callee (.seq a b) s s' left
  | seqLeft {a b s s'} (ha : Exec callee a s s' true) : Exec callee (.seq a b) s s' true
  | thenB {a b s s' left} (h : Exec callee a s s' left) : Exec callee (.branch a b) s s' left
  | elseB {a b s s' left} (h : Exec callee b s s' left) : Exec callee (.branch a b) s s' left
  | done {a s} : Exec callee (.loop a) s s false
  | again {a s m s' left} (ha : Exec callee a s m false) (hb : Exec callee (.loop a) m s' left) :
      Exec callee (.loop a) s s' left
  | loopLeft {a s s'} (ha : Exec callee a s s' true) : Exec callee (.loop a) s s' true

/-- A change by one of the calls, or of one of the written keys. -/
def Change (callee : C → (K → V) → (K → V) → Prop) (calls : List C) (writes : List K)
    (s s' : K → V) : Prop :=
  (∃ c ∈ calls, callee c s s') ∨ ∃ k ∈ writes, ∀ j, j ≠ k → s' j = s j

theorem changes_mono {callee : C → (K → V) → (K → V) → Prop} {cs cs' : List C} {ks ks' : List K}
    (hc : cs ⊆ cs') (hk : ks ⊆ ks') {s s' : K → V}
    (h : ReflTransGen (Change callee cs ks) s s') : ReflTransGen (Change callee cs' ks') s s' := by
  refine ReflTransGen.mono ?_ _ _ h
  rintro a b (⟨c, hmem, h⟩ | ⟨k, hmem, h⟩)
  · exact .inl ⟨c, hc hmem, h⟩
  · exact .inr ⟨k, hk hmem, h⟩

/-- The store changes by calls of the code and at keys it writes only. -/
theorem changes_of_exec {callee : C → (K → V) → (K → V) → Prop} {code : Code K C} {s s' : K → V}
    {left : Bool} (h : Exec callee code s s' left) :
    ReflTransGen (Change callee code.calls code.writes) s s' := by
  induction h with
  | skip => exact .refl
  | write h => exact .single (.inr ⟨_, List.mem_cons_self, h⟩)
  | call h => exact .single (.inl ⟨_, List.mem_cons_self, h⟩)
  | leave => exact .refl
  | seq _ _ iha ihb =>
    apply ReflTransGen.trans
    · exact changes_mono (List.subset_append_left _ _) (List.subset_append_left _ _) iha
    · exact changes_mono (List.subset_append_right _ _) (List.subset_append_right _ _) ihb
  | seqLeft _ ih => exact changes_mono (List.subset_append_left _ _) (List.subset_append_left _ _) ih
  | thenB _ ih => exact changes_mono (List.subset_append_left _ _) (List.subset_append_left _ _) ih
  | elseB _ ih => exact changes_mono (List.subset_append_right _ _) (List.subset_append_right _ _) ih
  | done => exact .refl
  | again _ _ iha ihb => exact iha.trans ihb
  | loopLeft _ ih => exact ih

/-- Code that writes nothing itself changes the store by its calls only. -/
theorem calls_of_exec {callee : C → (K → V) → (K → V) → Prop} {code : Code K C} {s s' : K → V}
    {left : Bool} (h : Exec callee code s s' left) (hw : code.writes = []) :
    ReflTransGen (fun a b => ∃ c ∈ code.calls, callee c a b) s s' := by
  refine ReflTransGen.mono ?_ _ _ (changes_of_exec h)
  rintro a b (hcall | ⟨k, hk, -⟩)
  · exact hcall
  · rw [hw] at hk
    exact absurd hk List.not_mem_nil

theorem writes_sequence (codes : List (Code K C)) :
    (sequence codes).writes = codes.flatMap Code.writes := by
  induction codes with
  | nil => rfl
  | cons a as ih => rw [sequence, Code.writes, ih, List.flatMap_cons]

end CambrianLang.StructuredCode
