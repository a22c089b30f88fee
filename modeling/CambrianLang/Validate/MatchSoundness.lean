/-
  **What V66 promises of a program**: that its matches are exhaustive.

  The promise is kept where the check walks and payload patterns leave nothing over.
-/
import CambrianLang.Validate.MatchCoverage
import CambrianLang.Validate.RecursiveTypes

namespace CambrianLang.Validate

open Ast PatternCoverage Semantics
open Relation

/-! ### The matches of a program -/

section Program

variable (program : Program)

/-- The code that V66 walks, with the entity it belongs to. -/
inductive Walked : Option Entity → Expr → Prop
  | action {e : Entity} {r : Route} {a : RouteAction} {x : Expr} (he : e ∈ program.entities)
      (hr : r ∈ e.routes) (ha : NestedIn r a) (hx : x ∈ a.exprs) : Walked (some e) x
  | transform {e : Entity} {m : Member} {t : MemberTransform} (he : e ∈ program.entities)
      (hm : m ∈ e.members) (ht : t ∈ m.transforms) : Walked (some e) t.body
  | pureFn {f : PureFn} (hf : f ∈ program.pureFns) : Walked none f.body

/-- The code that back ends emit and V66 does not walk. -/
inductive Unwalked : Option Entity → Expr → Prop
  | routeWhere {e : Entity} {r : Route} {c : WhereClause} {x : Expr} (he : e ∈ program.entities)
      (hr : r ∈ e.routes) (hc : c ∈ r.whereClauses) (hx : x ∈ c.condition :: c.errorArgs) :
      Unwalked (some e) x
  | phaseWhere {e : Entity} {r : Route} {b : PhaseBlock} {c : WhereClause} {x : Expr}
      (he : e ∈ program.entities) (hr : r ∈ e.routes) (hb : b ∈ r.body.phaseBlocks)
      (hc : c ∈ b.whereClauses) (hx : x ∈ c.condition :: c.errorArgs) : Unwalked (some e) x
  | fromClause {e : Entity} {r : Route} {c : FromClause} {x : Expr} (he : e ∈ program.entities)
      (hr : r ∈ e.routes) (hc : c ∈ r.fromClauses)
      (hx : x ∈ c.args ++ c.withParams.toList ++ c.errorArgs) : Unwalked (some e) x
  | macroBody {e : Entity} {m : Macro} (he : e ∈ program.entities) (hm : m ∈ e.macros) :
      Unwalked (some e) m.body
  | default {e : Entity} {m : Member} {x : Expr} (he : e ∈ program.entities) (hm : m ∈ e.members)
      (hx : m.defaultValue = some x) : Unwalked (some e) x
  | entityConst {e : Entity} {k : Const} (he : e ∈ program.entities) (hk : k ∈ e.constants) :
      Unwalked (some e) k.value
  | libraryFn {l : LibraryDecl} {f : PureFn} (hl : l ∈ program.libraries) (hf : f ∈ l.pureFns) :
      Unwalked none f.body
  | libraryConst {l : LibraryDecl} {k : Const} (hl : l ∈ program.libraries) (hk : k ∈ l.constants) :
      Unwalked none k.value

/-- A match with these arms stands in code of that kind. -/
def MatchIn (code : Option Entity → Expr → Prop) (entity : Option Entity) (arms : Arms) : Prop :=
  ∃ root s, code entity root ∧ ReflTransGen (fun a b => b ∈ a.children) root (.matchE s arms)

/-- A match that some back end lowers. -/
def LoweredMatch (entity : Option Entity) (arms : Arms) : Prop :=
  MatchIn (Walked program) entity arms ∨ MatchIn (Unwalked program) entity arms

/-- A value that no arm before the last matches is matched by the last. -/
def GoesToLast (arms : Arms) (v : Value) : Prop :=
  (∀ a ∈ arms.dropLast, a.1.matches v = false) → ∃ a, arms.getLast? = some a ∧ a.1.matches v = true

/-- **Matches are exhaustive.**  Where `arms_cover_all` accepts the arms before a
    catch-all, and where `match_patterns_exhaustive` accepts all arms, what the earlier
    ones leave goes to the last. -/
structure MatchesSound : Prop where
  covers : ∀ entity arms ty, LoweredMatch program entity arms → ArmsFit program entity ty arms →
    Covers program entity ty arms
  lastArm : ∀ entity arms ty, LoweredMatch program entity arms → ArmsFit program entity ty arms →
    ∀ i, armsCoverAll (arms.take i) (enumsInScope program entity) = true →
      ∀ v : Value, v.has (typing program entity) ty = true → GoesToLast (arms.take i) v
  lastElse : ∀ entity arms ty, LoweredMatch program entity arms → ArmsFit program entity ty arms →
    matchPatternsExhaustive program arms = true →
      ∀ v : Value, v.has (typing program entity) ty = true → GoesToLast arms v

/-- What the check leaves open holds all the same: no match is without arms (the parser
    sees to that), the matches it does not walk lack no case, and payload patterns
    leave nothing over. -/
structure GapsClosed : Prop where
  arms : ∀ entity arms, LoweredMatch program entity arms → arms ≠ []
  unwalked : ∀ entity arms ty, MatchIn (Unwalked program) entity arms →
    ArmsFit program entity ty arms →
      matchMissingCases arms (enumsInScope program entity) = none ∨
        NamesEveryInt (shape program entity ty) arms
  payloads : ∀ entity arms ty, LoweredMatch program entity arms → ArmsFit program entity ty arms →
    NoCatchAll arms → PayloadsCovered arms

end Program

variable {program : Program}

theorem missing_of_walk {enums : List EnumDecl} (place : String) {root s : Expr} {arms : Arms}
    (h : ∀ d ∈ (matchWalker enums place).walk root, d.code ≠ "V66")
    (hpath : ReflTransGen (fun a b => b ∈ a.children) root (.matchE s arms)) :
    matchMissingCases arms enums = none := by
  by_contra hmissing
  obtain ⟨missing, hmissing⟩ := Option.ne_none_iff_exists'.mp hmissing
  have hown : ∃ d ∈ missingArms arms enums place, d.code = "V66" := by
    rw [missingArms, hmissing]
    exact ⟨_, List.mem_singleton.mpr rfl, rfl⟩
  obtain ⟨d, hd, hcode⟩ := hown
  have hmem := (matchWalker enums place).mem_walk.mpr ⟨_, hpath, List.mem_append_right _ hd⟩
  exact h d hmem hcode

theorem mem_visitedExprs {a : RouteAction} {x : Expr} : x ∈ visitedExprs a ↔ x ∈ a.exprs := by
  cases a with
  | deploy entity opts args =>
    simp only [visitedExprs, RouteAction.exprs, List.mem_append]
    exact or_comm
  | _ => rfl

/-- Where the check walks, no case is missing. -/
theorem missing_of_clean (h : V66Clean program) {entity : Option Entity} {arms : Arms}
    (hin : MatchIn (Walked program) entity arms) :
    matchMissingCases arms (enumsInScope program entity) = none := by
  obtain ⟨root, s, hcode, hpath⟩ := hin
  cases hcode with
  | @action e r a _ he hr ha hx =>
    obtain ⟨b, hb, hba⟩ := ha
    have hroot : root ∈ r.body.allActions.flatMap walkActionExprs := by
      have hmem := walkActionSubtree.mem_walk.mpr ⟨a, hba, List.mem_singleton.mpr rfl⟩
      exact List.mem_flatMap.mpr ⟨b, hb, List.mem_flatMap.mpr ⟨a, hmem, mem_visitedExprs.mpr hx⟩⟩
    refine missing_of_walk (matchPlace e.name (some r.name)) (fun d hd => h d ?_) hpath
    refine List.mem_append_left _ (List.mem_flatMap.mpr ⟨e, he, List.mem_append_left _ ?_⟩)
    exact List.mem_flatMap.mpr ⟨r, hr, List.mem_flatMap.mpr ⟨root, hroot, hd⟩⟩
  | @transform e m t he hm ht =>
    refine missing_of_walk (matchPlace e.name (some t.routeName)) (fun d hd => h d ?_) hpath
    refine List.mem_append_left _ (List.mem_flatMap.mpr ⟨e, he, List.mem_append_right _ ?_⟩)
    exact List.mem_flatMap.mpr ⟨m, hm, List.mem_flatMap.mpr ⟨t, ht, hd⟩⟩
  | @pureFn f hf =>
    refine missing_of_walk (matchPlace f.name none) (fun d hd => h d ?_) hpath
    exact List.mem_append_right _ (List.mem_flatMap.mpr ⟨f, hf, hd⟩)

theorem sound_of_gapsClosed (h : V66Clean program) (hgaps : GapsClosed program) :
    MatchesSound program := by
  have hcovers : ∀ entity arms ty, LoweredMatch program entity arms →
      ArmsFit program entity ty arms → Covers program entity ty arms := by
    intro entity arms ty hin hfit
    by_cases hno : NoCatchAll arms
    · have hmissing : matchMissingCases arms (enumsInScope program entity) = none ∨
          NamesEveryInt (shape program entity ty) arms := by
        rcases hin with hwalked | hunwalked
        · exact Or.inl (missing_of_clean h hwalked)
        · exact hgaps.unwalked entity arms ty hunwalked hfit
      have hheads := (missing_iff hfit hno (hgaps.arms entity arms hin)).mp hmissing
      exact covers_of_covered hfit hheads (hgaps.payloads entity arms ty hin hfit hno)
    · exact covers_of_catchAll hno
  refine ⟨hcovers, ?_, ?_⟩
  · intro entity arms ty _ hfit i hall v hv
    have hprefix : ArmsFit program entity ty (arms.take i) :=
      fun a ha => hfit a (List.mem_of_mem_take ha)
    exact last_of_covers (covers_of_armsCoverAll hprefix hall v hv)
  · intro entity arms ty hin hfit _ v hv
    exact last_of_covers (hcovers entity arms ty hin hfit v hv)

theorem mem_scopes_of_lowered {entity : Option Entity} {arms : Arms}
    (h : LoweredMatch program entity arms) : entity ∈ scopes program := by
  have hentity : ∀ {e}, e ∈ program.entities → some e ∈ scopes program :=
    fun he => List.mem_cons_of_mem _ (List.mem_map_of_mem he)
  rcases h with ⟨root, s, hcode, -⟩ | ⟨root, s, hcode, -⟩
  · cases hcode with
    | action he | transform he => exact hentity he
    | pureFn => exact List.mem_cons_self
  · cases hcode with
    | routeWhere he | phaseWhere he | fromClause he | macroBody he | default he | entityConst he =>
      exact hentity he
    | libraryFn | libraryConst => exact List.mem_cons_self

theorem gapsClosed_of_sound (hval : ∀ entity ∈ scopes program, Habitable program entity)
    (hsound : MatchesSound program) : GapsClosed program := by
  have hne : ∀ entity arms, LoweredMatch program entity arms → arms ≠ [] := by
    rintro entity arms hin rfl
    obtain ⟨v, hv⟩ := hval entity (mem_scopes_of_lowered hin) (.simple "bool")
    obtain ⟨a, ha, -⟩ := hsound.covers entity [] _ hin (fun a ha => (nomatch ha)) v hv
    cases ha
  refine ⟨hne, fun entity arms ty hin hfit => ?_, fun entity arms ty hin hfit hno => ?_⟩
  · have hcov := hsound.covers entity arms ty (Or.inr hin) hfit
    by_cases hno : NoCatchAll arms
    · exact (missing_iff hfit hno (hne entity arms (Or.inr hin))).mpr
        (headsCovered_of_covers (hval entity (mem_scopes_of_lowered (Or.inr hin))) hno hcov)
    · refine Or.inl ?_
      rw [matchMissingCases, if_pos]
      rw [← noCatchAll_iff, Bool.not_eq_false] at hno
      exact hno
  · exact payloadsCovered_of_covers (hval entity (mem_scopes_of_lowered hin)) hno hfit
      (hsound.covers entity arms ty hin hfit)

/-- **V66 and exhaustiveness.**  Of a program it accepts, every match is exhaustive as
    soon as the gaps of the check are closed, and where every type has a value only
    then. -/
theorem matches_sound_iff (h : V66Clean program) :
    (GapsClosed program → MatchesSound program) ∧
      ((∀ entity ∈ scopes program, Habitable program entity) →
        MatchesSound program → GapsClosed program) :=
  ⟨sound_of_gapsClosed h, gapsClosed_of_sound⟩

/-! ### Programs of one match -/

def optionTy (elem : Ty) : Ty := .generic "Option" [elem]

def peelTy : Ty := optionTy (optionTy (.simple "bool"))

/-- `pure fn peel(x: Option<Option<bool>>) -> bool`, a match on `x`. -/
def peelBy (arms : Arms) : Program where
  imports := []
  pureFns := [⟨"peel", [⟨"x", peelTy⟩], .simple "bool", .matchE (.ident "x") arms⟩]
  typeAliases := []
  records := []
  enums := []
  entities := []
  externEntities := []
  libraries := []

def peelArms : Arms :=
  [(.some .none, .boolLiteral true), (.none, .boolLiteral false),
    (.some (.some (.ident "b")), .ident "b")]

theorem int_lo_le_hi {name : String} {lo hi : Int} (h : intRange name = some (lo, hi)) : lo ≤ hi := by
  have hpos : ∀ w : Nat, (0 : Int) < 2 ^ w := fun w => by positivity
  rw [intRange, Option.or_eq_some_iff, Option.map_eq_some_iff] at h
  rcases h with ⟨w, -, hw⟩ | ⟨-, hsigned⟩
  · cases hw
    have := hpos w
    omega
  · obtain ⟨w, -, hw⟩ := Option.map_eq_some_iff.mp hsigned
    cases hw
    have := hpos (w - 1)
    omega

theorem exists_nullary {S : Signature Ctor Ty} {ty : Ty} {c : Ctor} (h : S.args ty c = some []) :
    ∃ v : Value, v.has S ty = true := ⟨.node c [], has_node.mpr ⟨[], h, rfl⟩⟩

mutual
/-- Every type has a value where no alias and no enum is declared. -/
theorem exists_value (arms : Arms) :
    ∀ ty, ∃ v : Value, v.has (typing (peelBy arms) none) ty = true
  | .simple name => by
    have hargs : (typing (peelBy arms) none).args (.simple name) =
      (nameShape (peelBy arms) none name).args := rfl
    unfold nameShape at hargs
    split at hargs
    · exact exists_nullary (congrFun hargs (.bool true))
    · split at hargs
      · rename_i lo hi hrange
        refine exists_nullary ((congrFun hargs (.int lo)).trans ?_)
        simp only [Shape.args]
        exact if_pos ⟨le_refl lo, int_lo_le_hi hrange⟩
      · exact exists_nullary (congrFun hargs (.other 0))
  | .generic name params => by
    have hargs : (typing (peelBy arms) none).args (.generic name params) =
      (shape (peelBy arms) none (.generic name params)).args := rfl
    unfold shape at hargs
    split at hargs
    · rename_i h
      cases h
    · exact exists_nullary (congrFun hargs .noneC)
    · exact exists_nullary (congrFun hargs (.other 0))
    · rename_i h
      cases h
    · rename_i h
      cases h
  | .tuple elems => by
    obtain ⟨vs, hvs⟩ := exists_values arms elems
    refine ⟨.node (.tuple elems.length) vs, has_node.mpr ⟨elems, ?_, hvs⟩⟩
    exact if_pos rfl
  | .typedAddress _ => exists_nullary (c := .other 0) rfl
theorem exists_values (arms : Arms) :
    ∀ tys, ∃ vs : List Value, allHave (typing (peelBy arms) none) vs tys = true
  | [] => ⟨[], rfl⟩
  | ty :: tys => by
    obtain ⟨v, hv⟩ := exists_value arms ty
    obtain ⟨vs, hvs⟩ := exists_values arms tys
    exact ⟨v :: vs, allHave_cons.mpr ⟨v, vs, rfl, hv, hvs⟩⟩
end

theorem not_unwalked_peel {arms arms' : Arms} {entity : Option Entity} :
    ¬ MatchIn (Unwalked (peelBy arms)) entity arms' := by
  rintro ⟨root, s, hcode, -⟩
  cases hcode with
  | routeWhere he | phaseWhere he | fromClause he | macroBody he | default he | entityConst he
  | libraryFn he | libraryConst he => cases he

theorem walked_peel {entity : Option Entity} {arms : Arms}
    (h : LoweredMatch (peelBy peelArms) entity arms) : arms = peelArms := by
  rcases h with ⟨root, s, hcode, hpath⟩ | hunwalked
  · cases hcode with
    | action he | transform he => cases he
    | pureFn hf =>
      cases List.mem_singleton.mp hf
      have hmem := walkExprSubtree.mem_walk.mpr ⟨_, hpath, List.mem_singleton.mpr rfl⟩
      have hwalk : walkExprSubtree.walk (.matchE (.ident "x") peelArms) =
        [.matchE (.ident "x") peelArms, .ident "x", .boolLiteral true, .boolLiteral false,
          .ident "b"] := rfl
      rw [hwalk] at hmem
      simp only [List.mem_cons, Expr.matchE.injEq, reduceCtorEq, List.not_mem_nil, or_false] at hmem
      exact hmem.2
  · exact absurd hunwalked not_unwalked_peel

theorem payloadsCovered_peel : PayloadsCovered peelArms := by
  intro a ha c ps hc hps
  simp only [peelArms, List.mem_cons, List.not_mem_nil, or_false] at ha
  rcases ha with rfl | rfl | rfl
  · cases hc
    cases hps
    exact Or.inr (by decide)
  · cases hps
  · cases hc
    cases hps
    exact Or.inr (by decide)

theorem matches_sound_peel : MatchesSound (peelBy peelArms) ∧
    (MatchesSound (peelBy peelArms) → GapsClosed (peelBy peelArms)) := by
  have hiff := @matches_sound_iff (peelBy peelArms) (by decide)
  refine ⟨hiff.1 ⟨?_, ?_, ?_⟩, hiff.2 ?_⟩
  · intro entity arms hin
    rw [walked_peel hin]
    exact List.cons_ne_nil _ _
  · exact fun entity arms ty hin _ => absurd hin not_unwalked_peel
  · intro entity arms ty hin _ _
    rw [walked_peel hin]
    exact payloadsCovered_peel
  · intro entity hentity
    rw [List.mem_singleton.mp hentity]
    exact exists_value peelArms

/-- An entity whose route `open` has the condition `match m_open { true => true }`. -/
def guardedGate : Program where
  imports := []
  pureFns := []
  typeAliases := []
  records := []
  enums := []
  entities := [{
    name := "Gate"
    records := []
    enums := []
    typeAliases := []
    constants := []
    macros := []
    routes := [{
      name := "open"
      params := []
      fromClauses := []
      whereClauses :=
        [⟨.matchE (.ident "m_open") [(.boolLiteral true, .boolLiteral true)], 1, none, []⟩]
      returnType := none
      body := .unphased []
      isView := false
      isPure := false
      isInit := false
      isAccept := false
      isPrivate := false
      recoverTag := none
      factoryOnly := false }]
    members := [⟨"m_open", .simple "bool", false, none, []⟩] }]
  externEntities := []
  libraries := []

theorem not_sound_of_uncovered {entity : Option Entity} {arms : Arms} {ty : Ty} {v : Value}
    (hin : LoweredMatch program entity arms) (hfit : ArmsFit program entity ty arms)
    (hv : v.has (typing program entity) ty = true) (hnot : ∀ a ∈ arms, a.1.matches v = false) :
    ¬ MatchesSound program := by
  intro h
  obtain ⟨a, ha, hmatch⟩ := h.covers entity arms ty hin hfit v hv
  rw [hnot a ha] at hmatch
  cases hmatch

/-- A match that lacks `some(some(_))` and a condition that lacks `false`. -/
theorem matches_not_sound :
    (V66Clean (peelBy (peelArms.take 2)) ∧ ¬ MatchesSound (peelBy (peelArms.take 2))) ∧
      V66Clean guardedGate ∧ ¬ MatchesSound guardedGate := by
  refine ⟨⟨by decide, ?_⟩, by decide, ?_⟩
  · have hin : LoweredMatch (peelBy (peelArms.take 2)) none (peelArms.take 2) :=
      Or.inl ⟨_, _, .pureFn List.mem_cons_self, .refl⟩
    have hfit : ArmsFit (peelBy (peelArms.take 2)) none peelTy (peelArms.take 2) := by
      unfold ArmsFit
      decide
    exact not_sound_of_uncovered
      (v := .node .someC [.node .someC [.node (.bool true) []]]) hin hfit (by decide) (by decide)
  · have hin : LoweredMatch guardedGate (guardedGate.entities.head?)
        [(.boolLiteral true, .boolLiteral true)] :=
      Or.inr ⟨_, _, .routeWhere List.mem_cons_self List.mem_cons_self List.mem_cons_self
        List.mem_cons_self, .refl⟩
    have hfit : ArmsFit guardedGate (guardedGate.entities.head?) (.simple "bool")
        [(.boolLiteral true, .boolLiteral true)] := by
      unfold ArmsFit
      decide
    exact not_sound_of_uncovered (v := .node (.bool false) []) hin hfit (by decide) (by decide)

end CambrianLang.Validate
