/-
  **Scanning.**

  A scanner takes tokens off the front of its input one at a time; what it takes off may
  also be nothing that counts.  The tokens of an input are those of the first step and
  then those of the rest, as long as a step leaves less than it found.
-/
import Mathlib.Data.List.Basic

namespace CambrianLang.Scanner

variable {α τ : Type} (step : List α → Option (Option τ × List α))

/-- Steps as long as there is input. -/
def scanFrom : Nat → List α → Option (List τ)
  | _, [] => some []
  | 0, _ :: _ => none
  | fuel + 1, c :: cs =>
    (step (c :: cs)).bind fun p => (scanFrom fuel p.2).map (p.1.toList ++ ·)

/-- The tokens of the input. -/
def scan (cs : List α) : Option (List τ) := scanFrom step cs.length cs

/-- A step takes something off. -/
def Shrinks : Prop := ∀ cs p, step cs = some p → p.2.length < cs.length

/-- The input has these tokens. -/
def Scans (cs : List α) (ts : List τ) : Prop := scan step cs = some ts

instance [DecidableEq τ] (cs : List α) (ts : List τ) : Decidable (Scans step cs ts) :=
  inferInstanceAs (Decidable (scan step cs = some ts))

variable {step} {cs rest : List α} {ts : List τ} {t : τ}

theorem scanFrom_of_le (h : Shrinks step) {fuel : Nat} (hle : cs.length ≤ fuel) :
    scanFrom step fuel cs = scan step cs := by
  induction fuel using Nat.strongRecOn generalizing cs with
  | _ fuel ih =>
    cases cs with
    | nil => rw [scan, scanFrom, List.length_nil, scanFrom]
    | cons c cs =>
      cases fuel with
      | zero => cases hle
      | succ fuel =>
        rw [scan, List.length_cons, scanFrom, scanFrom]
        cases hstep : step (c :: cs) with
        | none => rfl
        | some p =>
          have hlt : p.2.length ≤ cs.length := Nat.lt_succ_iff.mp (h _ _ hstep)
          have hle' : cs.length ≤ fuel := Nat.le_of_succ_le_succ hle
          have hleft : scanFrom step fuel p.2 = scan step p.2 :=
            ih fuel (Nat.lt_succ_self fuel) (Nat.le_trans hlt hle')
          have hright : scanFrom step cs.length p.2 = scan step p.2 :=
            ih cs.length (Nat.lt_succ_of_le hle') hlt
          rw [Option.bind_some, Option.bind_some, hleft, hright]

@[simp] theorem scan_nil : scan step [] = some [] := rfl

theorem scan_cons (h : Shrinks step) {c : α} :
    scan step (c :: cs) = (step (c :: cs)).bind fun p => (scan step p.2).map (p.1.toList ++ ·) := by
  rw [scan, List.length_cons, scanFrom]
  cases hstep : step (c :: cs) with
  | none => rfl
  | some p =>
    have hlt : p.2.length ≤ cs.length := Nat.lt_succ_iff.mp (h _ _ hstep)
    rw [Option.bind_some, Option.bind_some, scanFrom_of_le h hlt]

theorem scans_nil : Scans step [] [] := rfl

/-- A token, and what is scanned behind it. -/
theorem Scans.token (h : Shrinks step) {c : α} (hstep : step (c :: cs) = some (some t, rest))
    (hrest : Scans step rest ts) : Scans step (c :: cs) (t :: ts) := by
  rw [Scans, scan_cons h, hstep, Option.bind_some, hrest]
  rfl

/-- What does not count, and what is scanned behind it. -/
theorem Scans.skip (h : Shrinks step) {c : α} (hstep : step (c :: cs) = some (none, rest))
    (hrest : Scans step rest ts) : Scans step (c :: cs) ts := by
  rw [Scans, scan_cons h, hstep, Option.bind_some, hrest]
  rfl

/-- What holds of every token a step makes holds of every token of the input. -/
theorem Scans.forall_mem {P : τ → Prop} (h : Shrinks step)
    (hstep : ∀ cs t rest, step cs = some (some t, rest) → P t) (hscan : Scans step cs ts) :
    ∀ t ∈ ts, P t := by
  induction hn : cs.length using Nat.strongRecOn generalizing cs ts with
  | ind n ih =>
    cases cs with
    | nil =>
      cases hscan
      exact nofun
    | cons c cs =>
      rw [Scans, scan_cons h, Option.bind_eq_some_iff] at hscan
      obtain ⟨⟨t, rest⟩, hfirst, hrest⟩ := hscan
      obtain ⟨us, hus, rfl⟩ := Option.map_eq_some_iff.mp hrest
      have hlt : rest.length < n := hn ▸ h _ _ hfirst
      intro u hu
      rcases List.mem_append.mp hu with hu | hu
      · have htoken : t = some u := Option.mem_toList.mp hu
        rw [htoken] at hfirst
        exact hstep _ u rest hfirst
      · exact ih rest.length hlt hus rfl u hu

end CambrianLang.Scanner
