/-
  **When the arms of one match cover its type.**

  Every constructor of the type has to head an arm, which `match_missing_cases`
  decides, and the payload patterns of the arms of one constructor have to leave
  nothing over, which it does not look at.
-/
import CambrianLang.Validate.MatchExhaustive

namespace CambrianLang.Validate

open Ast PatternCoverage Semantics
open Relation

/-! ### The loop over the arms -/

/-- Some arm asks for the constructor. -/
def Heads (arms : Arms) (c : Ctor) : Prop := ∃ a ∈ arms, a.1.head = some c

/-- The constructors of the arms so far are those of `P`. -/
structure Seen.Tells (s : Seen) (P : Ctor → Prop) : Prop where
  someC : s.hasSome = true ↔ P .someC
  noneC : s.hasNone = true ↔ P .noneC
  tru : s.hasTrue = true ↔ P (.bool true)
  fls : s.hasFalse = true ↔ P (.bool false)
  int : s.hasInt = true ↔ ∃ n, P (.int n)
  covered : ∀ c, c ∈ s.covered ↔ ∃ en, P (.variant en c)
  named : ∀ en, s.enumName = some en → ∃ c, P (.variant en c)
  unnamed : s.enumName = none → ∀ en c, ¬ P (.variant en c)

theorem Seen.Tells.add {s : Seen} {P : Ctor → Prop} (h : s.Tells P) (p : MatchPattern) :
    (s.add p).Tells fun c => P c ∨ p.head = some c := by
  obtain ⟨hsome, hnone, htru, hfls, hint, hcov, hnamed, hunnamed⟩ := h
  cases p with
  | boolLiteral b =>
    cases b <;> constructor <;> simp [Seen.add, MatchPattern.head, *] <;> grind
  | _ => constructor <;> simp [Seen.add, MatchPattern.head, *] <;> grind

theorem tells_foldl (arms : Arms) : ∀ {s : Seen} {P : Ctor → Prop}, s.Tells P →
    (arms.foldl (fun s a => s.add a.1) s).Tells fun c => P c ∨ Heads arms c := by
  induction arms with
  | nil =>
    intro s P h
    simpa [Heads] using h
  | cons a arms ih =>
    intro s P h
    have hnext := ih (h.add a.1)
    simpa only [List.foldl_cons, Heads, List.exists_mem_cons_iff, or_assoc] using hnext

theorem tells_seen (arms : Arms) : (seen arms).Tells (Heads arms) := by
  have hstart : Seen.Tells ⟨none, [], false, false, false, false, false⟩ fun _ => False := by
    constructor <;> simp
  have h := tells_foldl arms hstart
  simp only [false_or] at h
  exact h

/-! ### The outermost constructors -/

/-- Every constructor of the type heads an arm. -/
def HeadsCovered (s : Shape) (arms : Arms) : Prop := ∀ c ts, s.args c = some ts → Heads arms c

def NoCatchAll (arms : Arms) : Prop := ∀ a ∈ arms, a.1.head ≠ none

theorem isCatchAll_iff {p : MatchPattern} : isCatchAll p = true ↔ p.head = none := by
  cases p <;> simp [isCatchAll, MatchPattern.head]

theorem noCatchAll_iff {arms : Arms} :
    (arms.any fun a => isCatchAll a.1) = false ↔ NoCatchAll arms := by
  simp only [NoCatchAll, List.any_eq_false, isCatchAll_iff, ne_eq]

theorem exists_heads {arms : Arms} (hne : arms ≠ []) (hno : NoCatchAll arms) : ∃ c, Heads arms c := by
  obtain ⟨a, ha⟩ := List.exists_mem_of_ne_nil arms hne
  obtain ⟨c, hc⟩ := Option.ne_none_iff_exists'.mp (hno a ha)
  exact ⟨c, a, ha, hc⟩

theorem not_heads_tuple {arms : Arms} {n : Nat} : ¬ Heads arms (.tuple n) := by
  rintro ⟨⟨p, e⟩, -, hp⟩
  cases p <;> cases hp

theorem not_heads_other {arms : Arms} {k : Nat} : ¬ Heads arms (.other k) := by
  rintro ⟨⟨p, e⟩, -, hp⟩
  cases p <;> cases hp

section Shapes

variable {arms : Arms} {enums : List EnumDecl} {s : Shape}
  (htyped : ∀ c, Heads arms c → ∃ ts, s.args c = some ts)

include htyped

theorem enumName_seen (hs : ∀ decl, s ≠ .enum decl) : (seen arms).enumName = none := by
  cases hname : (seen arms).enumName with
  | none => rfl
  | some en =>
    obtain ⟨c, hc⟩ := (tells_seen arms).named en hname
    obtain ⟨ts, hts⟩ := htyped _ hc
    cases s with
    | enum decl => exact absurd rfl (hs decl)
    | bool | int | option | tuple | other => cases hts

theorem flag_eq_false {flag : Bool} {c : Ctor} (hflag : flag = true ↔ Heads arms c)
    (hs : s.args c = none) : flag = false := by
  refine Bool.eq_false_iff.mpr fun hset => ?_
  obtain ⟨ts, hts⟩ := htyped c (hflag.mp hset)
  rw [hs] at hts
  cases hts

theorem exists_typed_head (hno : NoCatchAll arms) (hne : arms ≠ []) :
    ∃ c ts, Heads arms c ∧ s.args c = some ts := by
  obtain ⟨c, hc⟩ := exists_heads hne hno
  obtain ⟨ts, hts⟩ := htyped c hc
  exact ⟨c, ts, hc, hts⟩

theorem missing_bool (hs : s = .bool) (hno : NoCatchAll arms) (hne : arms ≠ []) :
    matchMissingCases arms enums = none ↔ HeadsCovered s arms := by
  subst hs
  have htells := tells_seen arms
  have hname := enumName_seen htyped fun _ h => nomatch h
  have hsome := flag_eq_false htyped htells.someC rfl
  have hnone := flag_eq_false htyped htells.noneC rfl
  have hcov : HeadsCovered .bool arms ↔ Heads arms (.bool true) ∧ Heads arms (.bool false) := by
    constructor
    · exact fun h => ⟨h _ [] rfl, h _ [] rfl⟩
    · rintro ⟨htru, hfls⟩ c ts hts
      obtain ⟨b, rfl⟩ := of_args_bool hts
      cases b with
      | true => exact htru
      | false => exact hfls
  have hone : (seen arms).hasTrue = true ∨ (seen arms).hasFalse = true := by
    obtain ⟨c, ts, hc, hts⟩ := exists_typed_head htyped hno hne
    obtain ⟨b, rfl⟩ := of_args_bool hts
    cases b with
    | true => exact Or.inl (htells.tru.mpr hc)
    | false => exact Or.inr (htells.fls.mpr hc)
  rw [hcov, ← htells.tru, ← htells.fls, matchMissingCases, noCatchAll_iff.mpr hno]
  simp only [hname, hsome, hnone]
  rcases hone with h | h <;> rw [h] <;> cases (seen arms).hasFalse <;> cases (seen arms).hasTrue <;>
    simp

theorem missing_option {elem : Ty} (hs : s = .option elem) (hno : NoCatchAll arms) (hne : arms ≠ []) :
    matchMissingCases arms enums = none ↔ HeadsCovered s arms := by
  subst hs
  have htells := tells_seen arms
  have hname := enumName_seen htyped fun _ h => nomatch h
  have hcov : HeadsCovered (.option elem) arms ↔ Heads arms .someC ∧ Heads arms .noneC := by
    constructor
    · exact fun h => ⟨h _ [elem] rfl, h _ [] rfl⟩
    · rintro ⟨hsome, hnone⟩ c ts hts
      rcases of_args_option hts with rfl | rfl
      · exact hsome
      · exact hnone
  have hone : (seen arms).hasSome = true ∨ (seen arms).hasNone = true := by
    obtain ⟨c, ts, hc, hts⟩ := exists_typed_head htyped hno hne
    rcases of_args_option hts with rfl | rfl
    · exact Or.inl (htells.someC.mpr hc)
    · exact Or.inr (htells.noneC.mpr hc)
  rw [hcov, ← htells.someC, ← htells.noneC, matchMissingCases, noCatchAll_iff.mpr hno]
  simp only [hname]
  rcases hone with h | h <;> rw [h] <;> cases (seen arms).hasSome <;> cases (seen arms).hasNone <;>
    simp

theorem missing_int {lo hi : Int} (hs : s = .int lo hi) (hno : NoCatchAll arms) (hne : arms ≠ []) :
    matchMissingCases arms enums ≠ none := by
  subst hs
  have htells := tells_seen arms
  have hname := enumName_seen htyped fun _ h => nomatch h
  have hsome := flag_eq_false htyped htells.someC rfl
  have hnone := flag_eq_false htyped htells.noneC rfl
  have htru := flag_eq_false htyped htells.tru rfl
  have hfls := flag_eq_false htyped htells.fls rfl
  have hint : (seen arms).hasInt = true := by
    obtain ⟨c, ts, hc, hts⟩ := exists_typed_head htyped hno hne
    obtain ⟨n, rfl, -⟩ := of_args_int hts
    exact htells.int.mpr ⟨n, hc⟩
  rw [matchMissingCases, noCatchAll_iff.mpr hno]
  simp [hname, hsome, hnone, htru, hfls, hint]

theorem missing_enum {decl : EnumDecl} (hs : s = .enum decl)
    (hdecl : enums.find? (·.name == decl.name) = some decl) (hno : NoCatchAll arms)
    (hne : arms ≠ []) : matchMissingCases arms enums = none ↔ HeadsCovered s arms := by
  subst hs
  have htells := tells_seen arms
  have hvariant : ∀ en var, Heads arms (.variant en var) → en = decl.name := by
    intro en var hc
    obtain ⟨ts, hts⟩ := htyped _ hc
    obtain ⟨v, -, heq⟩ := of_args_enum hts
    exact (Ctor.variant.inj heq).1
  have hname : (seen arms).enumName = some decl.name := by
    cases hname : (seen arms).enumName with
    | none =>
      obtain ⟨c, ts, hc, hts⟩ := exists_typed_head htyped hno hne
      obtain ⟨v, -, rfl⟩ := of_args_enum hts
      exact absurd hc (htells.unnamed hname _ _)
    | some en =>
      obtain ⟨c, hc⟩ := htells.named en hname
      rw [hvariant en c hc]
  have hmem : ∀ var, var ∈ (seen arms).covered ↔ Heads arms (.variant decl.name var) := by
    intro var
    rw [htells.covered]
    constructor
    · rintro ⟨en, hen⟩
      rwa [hvariant en var hen] at hen
    · exact fun h => ⟨_, h⟩
  have hcov : HeadsCovered (.enum decl) arms ↔ ∀ v ∈ decl.variants, v.name ∈ (seen arms).covered := by
    simp only [hmem]
    constructor
    · intro h v hv
      have hfound : (decl.variants.find? (·.name == v.name)).isSome = true :=
        List.find?_isSome.mpr ⟨v, hv, beq_self_eq_true v.name⟩
      obtain ⟨w, hw⟩ := Option.isSome_iff_exists.mp hfound
      refine h _ w.fields ?_
      simp only [Shape.args, if_true]
      rw [hw, Option.map_some]
    · intro h c ts hts
      obtain ⟨v, hv, rfl⟩ := of_args_enum hts
      exact h v hv
  rw [hcov, matchMissingCases, noCatchAll_iff.mpr hno]
  simp only [hname, hdecl, missingVariants]
  simp

end Shapes

/-! ### Payload patterns -/

/-- The payload patterns of the arms of a constructor. -/
def payloadRows (c : Ctor) (arms : Arms) : List (List (Pat Ctor)) :=
  arms.filterMap fun a => if a.1.head = some c then a.1.fields.map toPats else none

/-- The arms of a constructor leave none of its payloads over: one of them names the
    constructor alone, or their payload patterns add up to everything. -/
def PayloadsCovered (arms : Arms) : Prop :=
  ∀ a ∈ arms, ∀ c ps, a.1.head = some c → a.1.fields = some ps →
    (∃ b ∈ arms, b.1.head = some c ∧ b.1.fields = none) ∨
      leftOver siblings ps.length (payloadRows c arms) = []

theorem mem_payloadRows {c : Ctor} {arms : Arms} {row : List (Pat Ctor)} :
    row ∈ payloadRows c arms ↔
      ∃ a ∈ arms, a.1.head = some c ∧ ∃ ps, a.1.fields = some ps ∧ toPats ps = row := by
  rw [payloadRows, List.mem_filterMap]
  refine exists_congr fun a => and_congr_right fun _ => ?_
  split
  · rename_i hc
    rw [Option.map_eq_some_iff]
    exact (and_iff_right hc).symm
  · rename_i hc
    exact ⟨fun h => (nomatch h), fun h => absurd h.1 hc⟩

theorem length_toPats : ∀ ps : List Pattern, (toPats ps).length = ps.length
  | [] => rfl
  | _ :: ps => by rw [toPats, List.length_cons, List.length_cons, length_toPats ps]

theorem matches_node {p : MatchPattern} {c : Ctor} {vs : List Value} :
    p.matches (.node c vs) = true ↔ p.head = none ∨
      p.head = some c ∧ ∀ ps, p.fields = some ps → allMatch (toPats ps) vs = true := by
  rw [MatchPattern.matches]
  cases p.head with
  | none => simp
  | some d => cases p.fields <;> simp

theorem matches_alone {p : MatchPattern} {c : Ctor} (hc : p.head = some c) (hps : p.fields = none)
    (vs : List Value) : p.matches (.node c vs) = true := by
  refine matches_node.mpr (Or.inr ⟨hc, fun ps h => ?_⟩)
  rw [hps] at h
  cases h

theorem matches_payload {p : MatchPattern} {c : Ctor} {ps : List Pattern} {vs : List Value}
    (hc : p.head = some c) (hps : p.fields = some ps) (h : allMatch (toPats ps) vs = true) :
    p.matches (.node c vs) = true := by
  refine matches_node.mpr (Or.inr ⟨hc, fun qs hqs => ?_⟩)
  cases hps.symm.trans hqs
  exact h

theorem fits_head {S : Signature Ctor Ty} {p : MatchPattern} {ty : Ty} {c : Ctor}
    (hfit : p.fits S ty = true) (hc : p.head = some c) :
    ∃ ts, S.args ty c = some ts ∧ ∀ ps, p.fields = some ps → allFit S (toPats ps) ts = true := by
  rw [MatchPattern.fits, hc] at hfit
  cases hts : S.args ty c with
  | none => simp [hts] at hfit
  | some ts =>
    refine ⟨ts, rfl, fun ps hps => ?_⟩
    simpa [hts, hps] using hfit

/-! ### One match -/

section Match

variable {program : Program} {entity : Option Entity} {ty : Ty} {arms : Arms}

/-- The arms' patterns are patterns for values of that type. -/
def ArmsFit (program : Program) (entity : Option Entity) (ty : Ty) (arms : Arms) : Prop :=
  ∀ a ∈ arms, a.1.fits (typing program entity) ty = true

/-- Each value of the type is matched by some arm. -/
def Covers (program : Program) (entity : Option Entity) (ty : Ty) (arms : Arms) : Prop :=
  ∀ v : Value, v.has (typing program entity) ty = true → ∃ a ∈ arms, a.1.matches v = true

/-- Every type has a value. -/
def Habitable (program : Program) (entity : Option Entity) : Prop :=
  ∀ ty, ∃ v : Value, v.has (typing program entity) ty = true

theorem covers_of_catchAll (h : ¬ NoCatchAll arms) : Covers program entity ty arms := by
  intro v _
  simp only [NoCatchAll, not_forall, ne_eq, not_not] at h
  obtain ⟨a, ha, hhead⟩ := h
  cases v with
  | node c vs => exact ⟨a, ha, matches_node.mpr (Or.inl hhead)⟩

theorem payloadRows_fit {c : Ctor} {ts : List Ty} (hfit : ArmsFit program entity ty arms)
    (hts : (typing program entity).args ty c = some ts) :
    ∀ row ∈ payloadRows c arms, allFit (typing program entity) row ts = true := by
  intro row hrow
  obtain ⟨a, ha, hc, ps, hps, rfl⟩ := mem_payloadRows.mp hrow
  obtain ⟨us, hus, hall⟩ := fits_head (hfit a ha) hc
  cases hts.symm.trans hus
  exact hall ps hps

theorem covers_of_covered (hfit : ArmsFit program entity ty arms)
    (hheads : HeadsCovered (shape program entity ty) arms) (hpay : PayloadsCovered arms) :
    Covers program entity ty arms := by
  intro v hv
  obtain ⟨c, vs⟩ := v
  obtain ⟨ts, hts, hvs⟩ := has_node.mp hv
  obtain ⟨a, ha, hc⟩ := hheads c ts hts
  cases hps : a.1.fields with
  | none => exact ⟨a, ha, matches_alone hc hps vs⟩
  | some ps =>
    rcases hpay a ha c ps hc hps with ⟨b, hb, hbc, hbps⟩ | hnil
    · exact ⟨b, hb, matches_alone hbc hbps vs⟩
    · obtain ⟨us, hus, hall⟩ := fits_head (hfit a ha) hc
      cases hts.symm.trans hus
      have hlen := length_of_allFit (hall ps hps)
      rw [length_toPats] at hlen
      rw [hlen] at hnil
      obtain ⟨row, hrow, hmatch⟩ := exists_match_of_leftOver (payloadRows_fit hfit hts) hnil hvs
      obtain ⟨b, hb, hbc, qs, hqs, rfl⟩ := mem_payloadRows.mp hrow
      exact ⟨b, hb, matches_payload hbc hqs hmatch⟩

theorem headsCovered_of_covers (hval : Habitable program entity) (hno : NoCatchAll arms)
    (h : Covers program entity ty arms) : HeadsCovered (shape program entity ty) arms := by
  intro c ts hts
  obtain ⟨vs, hvs, -⟩ := exists_of_allFit hval (allFit_wilds ts)
  obtain ⟨a, ha, hmatch⟩ := h (.node c vs) (has_node.mpr ⟨ts, hts, hvs⟩)
  rcases matches_node.mp hmatch with hnone | ⟨hc, -⟩
  · exact absurd hnone (hno a ha)
  · exact ⟨a, ha, hc⟩

theorem payloadsCovered_of_covers (hval : Habitable program entity) (hno : NoCatchAll arms)
    (hfit : ArmsFit program entity ty arms) (h : Covers program entity ty arms) :
    PayloadsCovered arms := by
  intro a ha c ps hc hps
  by_contra hnot
  push Not at hnot
  obtain ⟨halone, hne⟩ := hnot
  obtain ⟨ts, hts, hall⟩ := fits_head (hfit a ha) hc
  have hlen := length_of_allFit (hall ps hps)
  rw [length_toPats] at hlen
  rw [hlen] at hne
  obtain ⟨vs, hvs, hunmatched⟩ :=
    exists_unmatched_of_leftOver hval (payloadRows_fit hfit hts) hne
  obtain ⟨b, hb, hmatch⟩ := h (.node c vs) (has_node.mpr ⟨ts, hts, hvs⟩)
  rcases matches_node.mp hmatch with hnone | ⟨hbc, hbps⟩
  · exact hno b hb hnone
  · obtain ⟨qs, hqs⟩ := Option.ne_none_iff_exists'.mp (halone b hb hbc)
    exact hunmatched _ (mem_payloadRows.mpr ⟨b, hb, hbc, qs, hqs, rfl⟩) (hbps qs hqs)

/-! ### What `match_missing_cases` decides -/

/-- The integer type is so small that its values all head arms. -/
def NamesEveryInt (s : Shape) (arms : Arms) : Prop :=
  ∃ lo hi, s = .int lo hi ∧ ∀ n, lo ≤ n → n ≤ hi → Heads arms (.int n)

theorem find_enumsInScope {decl : EnumDecl} (h : shape program entity ty = .enum decl) :
    (enumsInScope program entity).find? (·.name == decl.name) = some decl := by
  rw [shape] at h
  split at h
  · rename_i name _
    rw [nameShape] at h
    split at h
    · cases h
    · split at h
      · cases h
      · split at h
        · rename_i d hd
          cases h
          have hname : decl.name = name := by simpa using List.find?_some hd
          rwa [hname]
        · cases h
  all_goals cases h

theorem heads_typed (hfit : ArmsFit program entity ty arms) :
    ∀ c, Heads arms c → ∃ ts, (shape program entity ty).args c = some ts := by
  rintro c ⟨a, ha, hc⟩
  obtain ⟨ts, hts, -⟩ := fits_head (hfit a ha) hc
  exact ⟨ts, hts⟩

theorem missing_iff (hfit : ArmsFit program entity ty arms) (hno : NoCatchAll arms)
    (hne : arms ≠ []) :
    matchMissingCases arms (enumsInScope program entity) = none ∨
        NamesEveryInt (shape program entity ty) arms ↔
      HeadsCovered (shape program entity ty) arms := by
  have htyped := heads_typed hfit
  obtain ⟨c₀, hc₀⟩ := exists_heads hne hno
  obtain ⟨ts₀, hts₀⟩ := htyped c₀ hc₀
  generalize hs : shape program entity ty = s at htyped hts₀ ⊢
  cases s with
  | bool =>
    rw [or_iff_left fun ⟨_, _, h, _⟩ => nomatch h]
    exact missing_bool htyped rfl hno hne
  | option elem =>
    rw [or_iff_left fun ⟨_, _, h, _⟩ => nomatch h]
    exact missing_option htyped rfl hno hne
  | enum decl =>
    rw [or_iff_left fun ⟨_, _, h, _⟩ => nomatch h]
    exact missing_enum htyped rfl (find_enumsInScope hs) hno hne
  | int lo hi =>
    rw [or_iff_right (missing_int htyped rfl hno hne)]
    constructor
    · rintro ⟨lo', hi', heq, hall⟩ c ts hts
      cases heq
      obtain ⟨n, rfl, hlo, hhi⟩ := of_args_int hts
      exact hall n hlo hhi
    · intro h
      refine ⟨lo, hi, rfl, fun n hlo hhi => h _ [] ?_⟩
      simp only [Shape.args]
      exact if_pos ⟨hlo, hhi⟩
  | tuple elems =>
    cases c₀ with
    | tuple n => exact absurd hc₀ not_heads_tuple
    | bool | int | noneC | someC | variant | other => cases hts₀
  | other =>
    cases c₀ with
    | other k => exact absurd hc₀ not_heads_other
    | bool | int | noneC | someC | variant | tuple => cases hts₀

/-! ### A last arm as a catch-all -/

mutual
theorem matches_of_irrefutable : ∀ {p : Pattern} {ty : Ty} {v : Value}, irrefutable p = true →
    p.toPat.fits (typing program entity) ty = true → v.has (typing program entity) ty = true →
    p.toPat.matches v = true
  | .ident _, _, _, _, _, _ => rfl
  | .wildcard, _, _, _, _, _ => rfl
  | .deref p, _, _, hp, hfit, hv => matches_of_irrefutable (p := p) hp hfit hv
  | .tuple ps, ty, .node c vs, hp, hfit, hv => by
    obtain ⟨ts, hts, hlisted, hps⟩ := fits_con.mp hfit
    obtain ⟨us, hus, hvs⟩ := has_node.mp hv
    have hc := ((typing program entity).mem_siblings hts hlisted c us.length).mpr ⟨us, hus, rfl⟩
    obtain ⟨rfl, -⟩ := Prod.mk.inj (List.mem_singleton.mp hc)
    cases hts.symm.trans hus
    exact matches_con.mpr ⟨rfl, allMatch_of_irrefutable hp hps hvs⟩
  | .some _, _, _, hp, _, _ => by simp [irrefutable] at hp
  | .none, _, _, hp, _, _ => by simp [irrefutable] at hp
theorem allMatch_of_irrefutable : ∀ {ps : List Pattern} {tys : List Ty} {vs : List Value},
    allIrrefutable ps = true → allFit (typing program entity) (toPats ps) tys = true →
    allHave (typing program entity) vs tys = true → allMatch (toPats ps) vs = true
  | [], tys, vs, _, hfit, hvs => by
    have hlen := length_of_allFit hfit
    rw [List.eq_nil_of_length_eq_zero hlen.symm] at hvs
    rw [allHave_nil.mp hvs]
    rfl
  | p :: ps, tys, vs, hp, hfit, hvs => by
    rw [allIrrefutable, Bool.and_eq_true] at hp
    obtain ⟨t, ts, rfl, hpfit, hpsfit⟩ := allFit_cons.mp hfit
    obtain ⟨w, ws, rfl, hw, hws⟩ := allHave_cons.mp hvs
    rw [toPats, allMatch, Bool.and_eq_true]
    exact ⟨matches_of_irrefutable hp.1 hpfit hw, allMatch_of_irrefutable hp.2 hpsfit hws⟩
end

theorem allIrrefutable_of_fields {p : MatchPattern} {ps : List Pattern} (hps : p.fields = some ps)
    (h : refutablePayload p = false) : allIrrefutable ps = true := by
  cases p with
  | some inner =>
    cases hps
    simpa [refutablePayload, allIrrefutable] using h
  | enumVariantWithData e c fields =>
    cases hps
    simpa [refutablePayload] using h
  | enumVariant | wildcard | intLiteral | boolLiteral | ident | none => cases hps

theorem covers_of_armsCoverAll (hfit : ArmsFit program entity ty arms)
    (h : armsCoverAll arms (enumsInScope program entity) = true) : Covers program entity ty arms := by
  by_cases hno : NoCatchAll arms
  · have hne : arms ≠ [] := by
      rintro rfl
      cases h
    have hparts : (∀ a ∈ arms, refutablePayload a.1 = false) ∧
        matchMissingCases arms (enumsInScope program entity) = none := by
      cases arms with
      | nil => exact absurd rfl hne
      | cons first rest =>
        simp only [armsCoverAll, Bool.and_eq_true, Bool.not_eq_true', List.any_eq_false,
          Bool.not_eq_true, Option.isNone_iff_eq_none] at h
        exact ⟨h.1.2, h.2⟩
    have hheads := (missing_iff hfit hno hne).mp (Or.inl hparts.2)
    intro v hv
    obtain ⟨c, vs⟩ := v
    obtain ⟨ts, hts, hvs⟩ := has_node.mp hv
    obtain ⟨a, ha, hc⟩ := hheads c ts hts
    cases hps : a.1.fields with
    | none => exact ⟨a, ha, matches_alone hc hps vs⟩
    | some ps =>
      obtain ⟨us, hus, hall⟩ := fits_head (hfit a ha) hc
      cases hts.symm.trans hus
      have hirr := allIrrefutable_of_fields hps (hparts.1 a ha)
      exact ⟨a, ha, matches_payload hc hps (allMatch_of_irrefutable hirr (hall ps hps) hvs)⟩
  · exact covers_of_catchAll hno

theorem last_of_covers {v : Value} (hcov : ∃ a ∈ arms, a.1.matches v = true)
    (hnot : ∀ a ∈ arms.dropLast, a.1.matches v = false) :
    ∃ a, arms.getLast? = some a ∧ a.1.matches v = true := by
  obtain ⟨a, ha, hmatch⟩ := hcov
  have hne : arms ≠ [] := List.ne_nil_of_mem ha
  rw [← List.dropLast_append_getLast hne, List.mem_append] at ha
  rcases ha with hinit | hlast
  · rw [hnot a hinit] at hmatch
    cases hmatch
  · rw [List.mem_singleton] at hlast
    exact ⟨a, by rw [hlast, List.getLast?_eq_getLast_of_ne_nil hne], hmatch⟩

end Match

end CambrianLang.Validate
