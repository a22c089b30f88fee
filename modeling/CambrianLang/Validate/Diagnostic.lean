/-
  **Diagnostics** (`validate/mod.rs`): a severity, a code and a message.  Spans,
  hints and the like are presentation and are left out.
-/
import Mathlib.Data.List.Basic

namespace CambrianLang.Validate

inductive Severity where
  | error
  | warning
deriving DecidableEq

structure Diagnostic where
  severity : Severity
  code : String
  message : String
deriving DecidableEq

/-- `Diagnostic::error`. -/
def Diagnostic.error (code message : String) : Diagnostic := ⟨.error, code, message⟩

/-- `Diagnostic::warning`. -/
def Diagnostic.warning (code message : String) : Diagnostic := ⟨.warning, code, message⟩

/-- No diagnostic of the list is an error. -/
def NoErrors (diags : List Diagnostic) : Prop := ∀ d ∈ diags, d.severity ≠ .error

instance (diags : List Diagnostic) : Decidable (NoErrors diags) :=
  inferInstanceAs (Decidable (∀ d ∈ diags, d.severity ≠ .error))

theorem noErrors_append {ds es : List Diagnostic} :
    NoErrors (ds ++ es) ↔ NoErrors ds ∧ NoErrors es := by
  simp only [NoErrors, List.mem_append, or_imp, forall_and]

theorem noErrors_flatMap {α : Type} {xs : List α} {f : α → List Diagnostic} :
    NoErrors (xs.flatMap f) ↔ ∀ x ∈ xs, NoErrors (f x) := by
  simp only [NoErrors, List.mem_flatMap, forall_exists_index, and_imp]
  exact ⟨fun h x hx d hd => h d x hx hd, fun h d x hx hd => h x hx d hd⟩

end CambrianLang.Validate
