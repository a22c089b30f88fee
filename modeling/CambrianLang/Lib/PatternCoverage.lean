/-
  **What patterns leave over.**

  Values are trees of constructors and patterns are trees with holes.  Taking one
  pattern away from another leaves finitely many patterns, so what a list of rows
  leaves of all values can be computed.  Where every type has a value, nothing is
  left over exactly when each value is matched by some row.
-/
import Mathlib.Data.List.Basic

namespace CambrianLang.PatternCoverage

universe u v

inductive Val (κ : Type u) where
  | node (c : κ) (args : List (Val κ))

inductive Pat (κ : Type u) where
  | wild
  | con (c : κ) (args : List (Pat κ))

/-- Types by their constructors: the types of the arguments a constructor takes at a
    type, and the constructors beside a given one, with their arities.  A constructor
    of a type that has too many of them lists none. -/
structure Signature (κ : Type u) (τ : Type v) where
  args : τ → κ → Option (List τ)
  siblings : κ → List (κ × Nat)
  mem_siblings {t : τ} {c : κ} {ts : List τ} : args t c = some ts → siblings c ≠ [] →
    ∀ d k, (d, k) ∈ siblings c ↔ ∃ us, args t d = some us ∧ us.length = k
  siblings_ne_nil {t : τ} {c d : κ} {ts us : List τ} : args t c = some ts → siblings c ≠ [] →
    args t d = some us → siblings d ≠ []

variable {κ : Type u} {τ : Type v}

/-! ### Types -/

mutual
def Val.has (S : Signature κ τ) : Val κ → τ → Bool
  | .node c vs, t =>
      match S.args t c with
      | some ts => allHave S vs ts
      | none => false
def allHave (S : Signature κ τ) : List (Val κ) → List τ → Bool
  | [], [] => true
  | v :: vs, t :: ts => v.has S t && allHave S vs ts
  | _, _ => false
end

mutual
/-- The constructors of the pattern are those of the type, and listed. -/
def Pat.fits (S : Signature κ τ) : Pat κ → τ → Bool
  | .wild, _ => true
  | .con c ps, t =>
      match S.args t c with
      | some ts => !(S.siblings c).isEmpty && allFit S ps ts
      | none => false
def allFit (S : Signature κ τ) : List (Pat κ) → List τ → Bool
  | [], [] => true
  | p :: ps, t :: ts => p.fits S t && allFit S ps ts
  | _, _ => false
end

variable {S : Signature κ τ}

theorem has_node {c : κ} {vs : List (Val κ)} {t : τ} :
    (Val.node c vs).has S t = true ↔ ∃ ts, S.args t c = some ts ∧ allHave S vs ts = true := by
  rw [Val.has]
  cases S.args t c with
  | none => simp
  | some ts => simp

theorem fits_con {c : κ} {ps : List (Pat κ)} {t : τ} :
    (Pat.con c ps).fits S t = true ↔
      ∃ ts, S.args t c = some ts ∧ S.siblings c ≠ [] ∧ allFit S ps ts = true := by
  rw [Pat.fits]
  cases S.args t c with
  | none => simp
  | some ts => simp

theorem allHave_cons {vs : List (Val κ)} {t : τ} {ts : List τ} :
    allHave S vs (t :: ts) = true ↔
      ∃ w ws, vs = w :: ws ∧ w.has S t = true ∧ allHave S ws ts = true := by
  cases vs with
  | nil => simp [allHave]
  | cons w ws => simp [allHave, and_assoc]

theorem allHave_nil {vs : List (Val κ)} : allHave S vs [] = true ↔ vs = [] := by
  cases vs with
  | nil => simp [allHave]
  | cons w ws => simp [allHave]

theorem allFit_cons {p : Pat κ} {ps : List (Pat κ)} {ts : List τ} :
    allFit S (p :: ps) ts = true ↔
      ∃ t us, ts = t :: us ∧ p.fits S t = true ∧ allFit S ps us = true := by
  cases ts with
  | nil => simp [allFit]
  | cons t us => simp [allFit, and_assoc]

theorem allFit_cons' {ps : List (Pat κ)} {t : τ} {ts : List τ} :
    allFit S ps (t :: ts) = true ↔
      ∃ q qs, ps = q :: qs ∧ q.fits S t = true ∧ allFit S qs ts = true := by
  cases ps with
  | nil => simp [allFit]
  | cons q qs => simp [allFit, and_assoc]

theorem length_of_allFit : ∀ {ps : List (Pat κ)} {ts : List τ}, allFit S ps ts = true →
    ps.length = ts.length
  | [], [], _ => rfl
  | [], _ :: _, h => by simp [allFit] at h
  | p :: ps, ts, h => by
    obtain ⟨t, us, rfl, -, htail⟩ := allFit_cons.mp h
    rw [List.length_cons, List.length_cons, length_of_allFit htail]

def wilds (k : Nat) : List (Pat κ) := List.replicate k .wild

theorem allFit_wilds : ∀ ts : List τ, allFit S (wilds ts.length) ts = true
  | [] => rfl
  | t :: ts => by
    rw [List.length_cons, wilds, List.replicate_succ, allFit_cons]
    exact ⟨t, ts, rfl, rfl, allFit_wilds ts⟩

/-! ### Matching and subtraction -/

section Subtraction

variable [DecidableEq κ]

mutual
def Pat.matches : Pat κ → Val κ → Bool
  | .wild, _ => true
  | .con c ps, .node d vs => decide (c = d) && allMatch ps vs
def allMatch : List (Pat κ) → List (Val κ) → Bool
  | [], [] => true
  | p :: ps, v :: vs => p.matches v && allMatch ps vs
  | _, _ => false
end

mutual
/-- What the first pattern matches and the second does not. -/
def minus (sib : κ → List (κ × Nat)) : Pat κ → Pat κ → List (Pat κ)
  | _, .wild => []
  | .wild, .con c ps =>
      (sib c).flatMap fun d =>
        if d.1 = c then (minusAll sib (wilds d.2) ps).map (.con c) else [.con d.1 (wilds d.2)]
  | .con c qs, .con d ps => if c = d then (minusAll sib qs ps).map (.con c) else [.con c qs]
def minusAll (sib : κ → List (κ × Nat)) : List (Pat κ) → List (Pat κ) → List (List (Pat κ))
  | q :: qs, p :: ps => (minus sib q p).map (· :: qs) ++ (minusAll sib qs ps).map (q :: ·)
  | _, _ => []
end

/-- What the rows leave of all tuples of that length. -/
def leftOver (sib : κ → List (κ × Nat)) (k : Nat) (rows : List (List (Pat κ))) :
    List (List (Pat κ)) :=
  rows.foldl (fun rest row => rest.flatMap fun qs => minusAll sib qs row) [wilds k]

theorem matches_con {c d : κ} {ps : List (Pat κ)} {vs : List (Val κ)} :
    (Pat.con c ps).matches (.node d vs) = true ↔ c = d ∧ allMatch ps vs = true := by
  rw [Pat.matches, Bool.and_eq_true, decide_eq_true_eq]

theorem allMatch_wilds : ∀ {vs : List (Val κ)} {ts : List τ}, allHave S vs ts = true →
    allMatch (wilds ts.length) vs = true
  | vs, [], h => by rw [allHave_nil.mp h]; rfl
  | vs, t :: ts, h => by
    obtain ⟨w, ws, rfl, -, htail⟩ := allHave_cons.mp h
    rw [List.length_cons, wilds, List.replicate_succ, allMatch]
    exact Bool.and_eq_true_iff.mpr ⟨rfl, allMatch_wilds htail⟩

mutual
theorem exists_mem_minus : ∀ {p q : Pat κ} {t : τ} {v : Val κ}, q.fits S t = true →
    p.fits S t = true → v.has S t = true →
    ((∃ r ∈ minus S.siblings q p, r.matches v = true) ↔ q.matches v = true ∧ ¬ p.matches v = true)
  | .wild, q, _, v, _, _, _ => by simp [minus, Pat.matches]
  | .con c ps, .wild, t, .node d vs, _, hp, hv => by
    obtain ⟨ts, hts, hlisted, hps⟩ := fits_con.mp hp
    obtain ⟨us, hus, hvs⟩ := has_node.mp hv
    have hmem := S.mem_siblings hts hlisted
    simp only [minus, List.mem_flatMap]
    by_cases hdc : c = d
    · -- the constructor itself: what its arguments leave over
      subst hdc
      cases hts.symm.trans hus
      have ih := exists_mem_minusAll (allFit_wilds ts) hps hvs
      have hall := allMatch_wilds hvs
      constructor
      · rintro ⟨r, ⟨e, he, hr⟩, hrv⟩
        obtain ⟨us, hus', hlen⟩ := (hmem e.1 e.2).mp he
        split at hr
        · rename_i hec
          rw [hec] at hus'
          cases hts.symm.trans hus'
          obtain ⟨qs, hqs, rfl⟩ := List.mem_map.mp hr
          have hleft := ih.mp ⟨qs, by rwa [hlen], (matches_con.mp hrv).2⟩
          exact ⟨rfl, fun h => hleft.2 (matches_con.mp h).2⟩
        · rename_i hec
          rw [List.mem_singleton.mp hr] at hrv
          exact absurd (matches_con.mp hrv).1 hec
      · rintro ⟨-, hnot⟩
        obtain ⟨qs, hqs, hqv⟩ := ih.mpr ⟨hall, fun h => hnot (matches_con.mpr ⟨rfl, h⟩)⟩
        refine ⟨.con c qs, ⟨(c, ts.length), (hmem c ts.length).mpr ⟨ts, hts, rfl⟩, ?_⟩, ?_⟩
        · rw [if_pos rfl]
          exact List.mem_map.mpr ⟨qs, hqs, rfl⟩
        · exact matches_con.mpr ⟨rfl, hqv⟩
    · constructor
      · intro _
        exact ⟨rfl, fun h => hdc (matches_con.mp h).1⟩
      · intro _
        refine ⟨.con d (wilds us.length), ⟨(d, us.length), (hmem d us.length).mpr ⟨us, hus, rfl⟩, ?_⟩, ?_⟩
        · rw [if_neg (Ne.symm hdc)]
          exact List.mem_singleton.mpr rfl
        · exact matches_con.mpr ⟨rfl, allMatch_wilds hvs⟩
  | .con d ps, .con c qs, t, .node e vs, hq, hp, hv => by
    obtain ⟨ts, hts, -, hqs⟩ := fits_con.mp hq
    obtain ⟨us, hus, -, hps⟩ := fits_con.mp hp
    obtain ⟨ws, hws, hvs⟩ := has_node.mp hv
    rw [minus, matches_con, matches_con]
    split
    · rename_i hcd
      subst hcd
      cases hts.symm.trans hus
      constructor
      · rintro ⟨r, hr, hrv⟩
        obtain ⟨rs, hrs, rfl⟩ := List.mem_map.mp hr
        obtain ⟨rfl, hrvs⟩ := matches_con.mp hrv
        cases hts.symm.trans hws
        obtain ⟨hqv, hpv⟩ := (exists_mem_minusAll hqs hps hvs).mp ⟨rs, hrs, hrvs⟩
        exact ⟨⟨rfl, hqv⟩, fun h => hpv h.2⟩
      · rintro ⟨⟨rfl, hqv⟩, hnot⟩
        cases hts.symm.trans hws
        obtain ⟨rs, hrs, hrv⟩ :=
          (exists_mem_minusAll hqs hps hvs).mpr ⟨hqv, fun h => hnot ⟨rfl, h⟩⟩
        exact ⟨.con c rs, List.mem_map.mpr ⟨rs, hrs, rfl⟩, matches_con.mpr ⟨rfl, hrv⟩⟩
    · rename_i hcd
      simp only [List.mem_singleton, exists_eq_left, matches_con]
      constructor
      · rintro ⟨rfl, hqv⟩
        exact ⟨⟨rfl, hqv⟩, fun h => hcd h.1.symm⟩
      · exact fun h => h.1
theorem exists_mem_minusAll : ∀ {ps qs : List (Pat κ)} {ts : List τ} {vs : List (Val κ)},
    allFit S qs ts = true → allFit S ps ts = true → allHave S vs ts = true →
    ((∃ rs ∈ minusAll S.siblings qs ps, allMatch rs vs = true) ↔
      allMatch qs vs = true ∧ ¬ allMatch ps vs = true)
  | [], qs, ts, vs, _, hps, hvs => by
    have hlen := length_of_allFit hps
    rw [List.length_nil] at hlen
    rw [List.eq_nil_of_length_eq_zero hlen.symm] at hvs
    rw [allHave_nil.mp hvs]
    simp [minusAll, allMatch]
  | p :: ps, qs, ts, vs, hqs, hps, hvs => by
    obtain ⟨t, ts, rfl, hp, hps⟩ := allFit_cons.mp hps
    obtain ⟨q, qs, rfl, hq, hqs⟩ := allFit_cons'.mp hqs
    obtain ⟨v, vs, rfl, hv, hvs⟩ := allHave_cons.mp hvs
    have ih₁ := exists_mem_minus hq hp hv
    have ih₂ := exists_mem_minusAll hqs hps hvs
    simp only [minusAll, List.mem_append, List.mem_map, allMatch, Bool.and_eq_true]
    constructor
    · rintro ⟨rs, ⟨r, hr, rfl⟩ | ⟨rs, hrs, rfl⟩, hrv⟩
      · rw [allMatch, Bool.and_eq_true] at hrv
        obtain ⟨hqv, hpv⟩ := ih₁.mp ⟨r, hr, hrv.1⟩
        exact ⟨⟨hqv, hrv.2⟩, fun h => hpv h.1⟩
      · rw [allMatch, Bool.and_eq_true] at hrv
        obtain ⟨hqv, hpv⟩ := ih₂.mp ⟨rs, hrs, hrv.2⟩
        exact ⟨⟨hrv.1, hqv⟩, fun h => hpv h.2⟩
    · rintro ⟨⟨hqv, hqvs⟩, hnot⟩
      by_cases hpv : p.matches v = true
      · obtain ⟨rs, hrs, hrv⟩ := ih₂.mpr ⟨hqvs, fun h => hnot ⟨hpv, h⟩⟩
        refine ⟨q :: rs, Or.inr ⟨rs, hrs, rfl⟩, ?_⟩
        rw [allMatch, Bool.and_eq_true]
        exact ⟨hqv, hrv⟩
      · obtain ⟨r, hr, hrv⟩ := ih₁.mpr ⟨hqv, hpv⟩
        refine ⟨r :: qs, Or.inl ⟨r, hr, rfl⟩, ?_⟩
        rw [allMatch, Bool.and_eq_true]
        exact ⟨hrv, hqvs⟩
end

mutual
theorem fits_of_mem_minus : ∀ {p q r : Pat κ} {t : τ}, q.fits S t = true → p.fits S t = true →
    r ∈ minus S.siblings q p → r.fits S t = true
  | .wild, _, _, _, _, _, hr => by simp [minus] at hr
  | .con c ps, .wild, r, t, _, hp, hr => by
    obtain ⟨ts, hts, hlisted, hps⟩ := fits_con.mp hp
    have hmem := S.mem_siblings hts hlisted
    rw [minus, List.mem_flatMap] at hr
    obtain ⟨e, he, hr⟩ := hr
    obtain ⟨us, hus, hlen⟩ := (hmem e.1 e.2).mp he
    split at hr
    · rename_i hec
      rw [hec] at hus
      cases hts.symm.trans hus
      obtain ⟨qs, hqs, rfl⟩ := List.mem_map.mp hr
      rw [← hlen] at hqs
      exact fits_con.mpr ⟨ts, hts, hlisted, allFit_of_mem_minusAll (allFit_wilds ts) hps hqs⟩
    · rw [List.mem_singleton.mp hr, ← hlen]
      exact fits_con.mpr ⟨us, hus, S.siblings_ne_nil hts hlisted hus, allFit_wilds us⟩
  | .con d ps, .con c qs, r, t, hq, hp, hr => by
    rw [minus] at hr
    split at hr
    · rename_i hcd
      subst hcd
      obtain ⟨ts, hts, hlisted, hqs⟩ := fits_con.mp hq
      obtain ⟨us, hus, -, hps⟩ := fits_con.mp hp
      cases hts.symm.trans hus
      obtain ⟨rs, hrs, rfl⟩ := List.mem_map.mp hr
      exact fits_con.mpr ⟨ts, hts, hlisted, allFit_of_mem_minusAll hqs hps hrs⟩
    · rwa [List.mem_singleton.mp hr]
theorem allFit_of_mem_minusAll : ∀ {ps qs rs : List (Pat κ)} {ts : List τ},
    allFit S qs ts = true → allFit S ps ts = true → rs ∈ minusAll S.siblings qs ps → allFit S rs ts = true
  | [], qs, _, _, _, _, hrs => by simp [minusAll] at hrs
  | p :: ps, qs, rs, ts, hqs, hps, hrs => by
    obtain ⟨t, ts, rfl, hp, hps⟩ := allFit_cons.mp hps
    obtain ⟨q, qs, rfl, hq, hqs⟩ := allFit_cons'.mp hqs
    rw [minusAll, List.mem_append, List.mem_map, List.mem_map] at hrs
    rcases hrs with ⟨r, hr, rfl⟩ | ⟨rs, hrs, rfl⟩
    · exact allFit_cons.mpr ⟨t, ts, rfl, fits_of_mem_minus hq hp hr, hqs⟩
    · exact allFit_cons.mpr ⟨t, ts, rfl, hq, allFit_of_mem_minusAll hqs hps hrs⟩
end

/-! ### Coverage -/

/-- Taking rows away, from any start. -/
theorem mem_foldl_minusAll {ts : List τ} (rows : List (List (Pat κ))) :
    ∀ rest : List (List (Pat κ)), (∀ qs ∈ rest, allFit S qs ts = true) →
      (∀ row ∈ rows, allFit S row ts = true) →
      let left := rows.foldl (fun rest row => rest.flatMap fun qs => minusAll S.siblings qs row) rest
      (∀ qs ∈ left, allFit S qs ts = true) ∧
        ∀ vs, allHave S vs ts = true →
          ((∃ qs ∈ left, allMatch qs vs = true) ↔
            (∃ qs ∈ rest, allMatch qs vs = true) ∧ ∀ row ∈ rows, ¬ allMatch row vs = true) := by
  induction rows with
  | nil => exact fun rest hrest _ => ⟨hrest, by simp⟩
  | cons row rows ih =>
    intro rest hrest hrows
    have hrow := hrows row List.mem_cons_self
    have hnext : ∀ qs ∈ rest.flatMap (fun qs => minusAll S.siblings qs row), allFit S qs ts = true := by
      intro qs hqs
      obtain ⟨q, hq, hqs⟩ := List.mem_flatMap.mp hqs
      exact allFit_of_mem_minusAll (hrest q hq) hrow hqs
    obtain ⟨hfit, hleft⟩ := ih _ hnext fun r hr => hrows r (List.mem_cons_of_mem _ hr)
    refine ⟨hfit, fun vs hvs => ?_⟩
    rw [List.foldl_cons, hleft vs hvs, List.forall_mem_cons]
    constructor
    · rintro ⟨⟨qs, hqs, hqv⟩, hnot⟩
      obtain ⟨q, hq, hqs⟩ := List.mem_flatMap.mp hqs
      obtain ⟨hv, hrowv⟩ := (exists_mem_minusAll (hrest q hq) hrow hvs).mp ⟨qs, hqs, hqv⟩
      exact ⟨⟨q, hq, hv⟩, hrowv, hnot⟩
    · rintro ⟨⟨q, hq, hv⟩, hrowv, hnot⟩
      obtain ⟨qs, hqs, hqv⟩ := (exists_mem_minusAll (hrest q hq) hrow hvs).mpr ⟨hv, hrowv⟩
      exact ⟨⟨qs, List.mem_flatMap.mpr ⟨q, hq, hqs⟩, hqv⟩, hnot⟩

theorem mem_leftOver {ts : List τ} {rows : List (List (Pat κ))}
    (hrows : ∀ row ∈ rows, allFit S row ts = true) :
    (∀ qs ∈ leftOver S.siblings ts.length rows, allFit S qs ts = true) ∧
      ∀ vs, allHave S vs ts = true →
        ((∃ qs ∈ leftOver S.siblings ts.length rows, allMatch qs vs = true) ↔
          ∀ row ∈ rows, ¬ allMatch row vs = true) := by
  have hstart : ∀ qs ∈ [(wilds ts.length : List (Pat κ))], allFit S qs ts = true := by
    intro qs hqs
    rw [List.mem_singleton.mp hqs]
    exact allFit_wilds ts
  obtain ⟨hfit, hleft⟩ := mem_foldl_minusAll rows _ hstart hrows
  refine ⟨hfit, fun vs hvs => (hleft vs hvs).trans ?_⟩
  exact and_iff_right ⟨_, List.mem_singleton.mpr rfl, allMatch_wilds hvs⟩

/-- **Where nothing is left over, every value is matched.** -/
theorem exists_match_of_leftOver {ts : List τ} {rows : List (List (Pat κ))} {vs : List (Val κ)}
    (hrows : ∀ row ∈ rows, allFit S row ts = true) (hnil : leftOver S.siblings ts.length rows = [])
    (hvs : allHave S vs ts = true) : ∃ row ∈ rows, allMatch row vs = true := by
  by_contra hnone
  push Not at hnone
  obtain ⟨qs, hqs, -⟩ := ((mem_leftOver hrows).2 vs hvs).mpr hnone
  rw [hnil] at hqs
  exact List.not_mem_nil hqs

mutual
theorem exists_of_fits (hval : ∀ t : τ, ∃ v : Val κ, v.has S t = true) : ∀ {p : Pat κ} {t : τ},
    p.fits S t = true → ∃ v : Val κ, v.has S t = true ∧ p.matches v = true
  | .wild, t, _ => by
    obtain ⟨v, hv⟩ := hval t
    exact ⟨v, hv, rfl⟩
  | .con c ps, t, hp => by
    obtain ⟨ts, hts, -, hps⟩ := fits_con.mp hp
    obtain ⟨vs, hvs, hmatch⟩ := exists_of_allFit hval hps
    exact ⟨.node c vs, has_node.mpr ⟨ts, hts, hvs⟩, matches_con.mpr ⟨rfl, hmatch⟩⟩
theorem exists_of_allFit (hval : ∀ t : τ, ∃ v : Val κ, v.has S t = true) :
    ∀ {ps : List (Pat κ)} {ts : List τ}, allFit S ps ts = true →
      ∃ vs, allHave S vs ts = true ∧ allMatch ps vs = true
  | [], ts, h => by
    have hlen := length_of_allFit h
    rw [List.eq_nil_of_length_eq_zero hlen.symm]
    exact ⟨[], rfl, rfl⟩
  | p :: ps, ts, h => by
    obtain ⟨t, ts, rfl, hp, hps⟩ := allFit_cons.mp h
    obtain ⟨v, hv, hpv⟩ := exists_of_fits hval hp
    obtain ⟨vs, hvs, hmatch⟩ := exists_of_allFit hval hps
    exact ⟨v :: vs, allHave_cons.mpr ⟨v, vs, rfl, hv, hvs⟩, Bool.and_eq_true_iff.mpr ⟨hpv, hmatch⟩⟩
end

/-- **Where something is left over**, there are values that no row matches. -/
theorem exists_unmatched_of_leftOver (hval : ∀ t : τ, ∃ v : Val κ, v.has S t = true)
    {ts : List τ} {rows : List (List (Pat κ))} (hrows : ∀ row ∈ rows, allFit S row ts = true)
    (hne : leftOver S.siblings ts.length rows ≠ []) :
    ∃ vs, allHave S vs ts = true ∧ ∀ row ∈ rows, ¬ allMatch row vs = true := by
  obtain ⟨qs, hqs⟩ := List.exists_mem_of_ne_nil _ hne
  obtain ⟨hfit, hleft⟩ := mem_leftOver hrows
  obtain ⟨vs, hvs, hmatch⟩ := exists_of_allFit hval (hfit qs hqs)
  exact ⟨vs, hvs, (hleft vs hvs).mp ⟨qs, hqs, hmatch⟩⟩

end Subtraction

end CambrianLang.PatternCoverage
