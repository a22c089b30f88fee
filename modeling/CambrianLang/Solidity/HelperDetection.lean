/-
  **Which helpers a program uses** (`codegen/solidity/core/pure.rs`,
  `codegen/std_str.rs`).

  Five hand-written searches look for calls in the routes, members and pure
  functions of a program.  They agree on how actions are walked and differ in the
  subexpressions they go into.
-/
import CambrianLang.Solidity.Intrinsics
import CambrianLang.Validate.EvmRules

namespace CambrianLang.Solidity

open Ast Traversal Validate Relation

/-- How a search goes through a program: the subexpressions it goes into, and
    whether it looks at member defaults. -/
structure Descent where
  visited : Expr → List Expr
  defaults : Bool
  sub {e c : Expr} : c ∈ visited e → c ∈ e.children

namespace Descent

/-- An expression and what the search finds below it. -/
def walker (D : Descent) : Walker Expr Expr where
  own e := [e]
  visited := D.visited
  rank := Expr.rank
  rank_lt h := rank_child_lt (D.sub h)

def usedInExpr (D : Descent) (looksFor : Expr → Bool) (e : Expr) : Bool :=
  (D.walker.walk e).any looksFor

/-- Every search goes through all actions and the actions nested in them. -/
def usedInAction (D : Descent) (looksFor : Expr → Bool) (a : RouteAction) : Bool :=
  (walkActionSubtree.walk a).any fun b => b.exprs.any (D.usedInExpr looksFor)

def usedInMember (D : Descent) (looksFor : Expr → Bool) (m : Member) : Bool :=
  (D.defaults && m.defaultValue.any (D.usedInExpr looksFor)) ||
    m.transforms.any fun t => D.usedInExpr looksFor t.body

def usedInProgram (D : Descent) (looksFor : Expr → Bool) (program : Program) : Bool :=
  (program.entities.any fun ent =>
    (ent.routes.any fun r =>
      r.body.allActions.any (D.usedInAction looksFor) ||
        r.whereClauses.any fun w => D.usedInExpr looksFor w.condition) ||
    ent.members.any (D.usedInMember looksFor)) ||
  program.pureFns.any fun pf => D.usedInExpr looksFor pf.body

/-- Where the searches start. -/
inductive Scans (D : Descent) (program : Program) : Expr → Prop
  | action {ent : Entity} {r : Route} {a b : RouteAction} {e : Expr} :
      ent ∈ program.entities → r ∈ ent.routes → a ∈ r.body.allActions → Subaction a b →
      e ∈ b.exprs → Scans D program e
  | whereCondition {ent : Entity} {r : Route} {w : WhereClause} :
      ent ∈ program.entities → r ∈ ent.routes → w ∈ r.whereClauses → Scans D program w.condition
  | default {ent : Entity} {m : Member} {e : Expr} : D.defaults = true →
      ent ∈ program.entities → m ∈ ent.members → m.defaultValue = some e → Scans D program e
  | transform {ent : Entity} {m : Member} {t : MemberTransform} :
      ent ∈ program.entities → m ∈ ent.members → t ∈ m.transforms → Scans D program t.body
  | pureFn {pf : PureFn} : pf ∈ program.pureFns → Scans D program pf.body

/-- The search comes to this expression. -/
def Sees (D : Descent) (program : Program) (c : Expr) : Prop :=
  ∃ e, D.Scans program e ∧ D.walker.Reaches e c

theorem usedInExpr_iff (D : Descent) {looksFor : Expr → Bool} {e : Expr} :
    D.usedInExpr looksFor e = true ↔ ∃ c, D.walker.Reaches e c ∧ looksFor c = true := by
  rw [usedInExpr, List.any_eq_true]
  constructor
  · rintro ⟨c, hc, hlook⟩
    obtain ⟨b, hreach, hown⟩ := D.walker.mem_walk.mp hc
    rw [List.mem_singleton.mp hown] at hlook
    exact ⟨b, hreach, hlook⟩
  · rintro ⟨c, hreach, hlook⟩
    exact ⟨c, D.walker.mem_walk.mpr ⟨c, hreach, List.mem_singleton.mpr rfl⟩, hlook⟩

theorem usedInAction_iff (D : Descent) {looksFor : Expr → Bool} {a : RouteAction} :
    D.usedInAction looksFor a = true ↔
      ∃ b, Subaction a b ∧ ∃ e ∈ b.exprs, D.usedInExpr looksFor e = true := by
  simp only [usedInAction, List.any_eq_true]
  constructor
  · rintro ⟨c, hc, he⟩
    obtain ⟨b, hreach, hown⟩ := walkActionSubtree.mem_walk.mp hc
    rw [List.mem_singleton.mp hown] at he
    exact ⟨b, hreach, he⟩
  · rintro ⟨b, hreach, he⟩
    exact ⟨b, walkActionSubtree.mem_walk.mpr ⟨b, hreach, List.mem_singleton.mpr rfl⟩, he⟩

theorem usedInMember_iff (D : Descent) {looksFor : Expr → Bool} {m : Member} :
    D.usedInMember looksFor m = true ↔
      (D.defaults = true ∧ ∃ e, m.defaultValue = some e ∧ D.usedInExpr looksFor e = true) ∨
        ∃ t ∈ m.transforms, D.usedInExpr looksFor t.body = true := by
  rw [usedInMember, Bool.or_eq_true, Bool.and_eq_true, Option.any_eq_true, List.any_eq_true]

/-- **A search of the program finds a call exactly when it comes to one.** -/
theorem usedInProgram_iff (D : Descent) {looksFor : Expr → Bool} {program : Program} :
    D.usedInProgram looksFor program = true ↔ ∃ c, D.Sees program c ∧ looksFor c = true := by
  have hscan : D.usedInProgram looksFor program = true ↔
      ∃ e, D.Scans program e ∧ D.usedInExpr looksFor e = true := by
    simp only [usedInProgram, Bool.or_eq_true, List.any_eq_true, usedInAction_iff, usedInMember_iff]
    constructor
    · rintro (⟨ent, hent, ⟨r, hr, ⟨a, ha, b, hb, e, he, h⟩ | ⟨w, hw, h⟩⟩ |
        ⟨m, hm, ⟨hd, e, he, h⟩ | ⟨t, ht, h⟩⟩⟩ | ⟨pf, hpf, h⟩)
      · exact ⟨e, .action hent hr ha hb he, h⟩
      · exact ⟨_, .whereCondition hent hr hw, h⟩
      · exact ⟨e, .default hd hent hm he, h⟩
      · exact ⟨_, .transform hent hm ht, h⟩
      · exact ⟨_, .pureFn hpf, h⟩
    · rintro ⟨e, hscan, h⟩
      cases hscan with
      | action hent hr ha hb he =>
        exact Or.inl ⟨_, hent, Or.inl ⟨_, hr, Or.inl ⟨_, ha, _, hb, e, he, h⟩⟩⟩
      | whereCondition hent hr hw => exact Or.inl ⟨_, hent, Or.inl ⟨_, hr, Or.inr ⟨_, hw, h⟩⟩⟩
      | default hd hent hm he => exact Or.inl ⟨_, hent, Or.inr ⟨_, hm, Or.inl ⟨hd, e, he, h⟩⟩⟩
      | transform hent hm ht => exact Or.inl ⟨_, hent, Or.inr ⟨_, hm, Or.inr ⟨_, ht, h⟩⟩⟩
      | pureFn hpf => exact Or.inr ⟨_, hpf, h⟩
  rw [hscan]
  constructor
  · rintro ⟨e, hs, h⟩
    obtain ⟨c, hreach, hlook⟩ := D.usedInExpr_iff.mp h
    exact ⟨c, ⟨e, hs, hreach⟩, hlook⟩
  · rintro ⟨c, ⟨e, hs, hreach⟩, hlook⟩
    exact ⟨e, hs, D.usedInExpr_iff.mpr ⟨c, hreach, hlook⟩⟩

end Descent

/-! ### The five descents -/

/-- `stdlib_fn_used_in_expr`. -/
def stdlibFnDescent : Descent where
  visited
    | .macroRef .. | .block _ | .closure .. | .addressOf .. | .encode .. => []
    | .recordUpdate _ fs => fs.map Prod.snd
    | e => e.children
  defaults := true
  sub {e c} h := by
    cases e with
    | recordUpdate b fs => exact mem_children_recordUpdate h
    | macroRef | block | closure | addressOf | encode => exact absurd h List.not_mem_nil
    | _ => exact h

/-- `std_ns_call_used_in_expr`. -/
def stdNsDescent : Descent where
  visited
    | .addressOf .. | .encode .. => []
    | .recordUpdate _ fs => fs.map Prod.snd
    | e => e.children
  defaults := true
  sub {e c} h := by
    cases e with
    | recordUpdate b fs => exact mem_children_recordUpdate h
    | addressOf | encode => exact absurd h List.not_mem_nil
    | _ => exact h

/-- `std_format_pad6_used_in_expr`: of the namespaced calls only `format` is gone into. -/
def formatPad6Descent : Descent where
  visited
    | .addressOf .. | .encode .. => []
    | .recordUpdate _ fs => fs.map Prod.snd
    | .namespacedCall ns name args _ => if ns = "std::str" ∧ name = "format" then args else []
    | e => e.children
  defaults := true
  sub {e c} h := by
    cases e with
    | recordUpdate b fs => exact mem_children_recordUpdate h
    | namespacedCall ns name args tys =>
      by_cases hformat : ns = "std::str" ∧ name = "format"
      · simp only [if_pos hformat] at h
        exact List.mem_map.mpr ⟨unbound c, List.mem_map.mpr ⟨c, h, rfl⟩, rfl⟩
      · simp only [if_neg hformat] at h
        exact absurd h List.not_mem_nil
    | addressOf | encode => exact absurd h List.not_mem_nil
    | _ => exact h

/-- `method_used_in_expr`, whose program search leaves out the defaults. -/
def methodDescent : Descent where
  visited
    | .arrayLit _ | .forE .. | .addressOf .. | .encode .. => []
    | .recordUpdate _ fs => fs.map Prod.snd
    | e => e.children
  defaults := false
  sub {e c} h := by
    cases e with
    | recordUpdate b fs => exact mem_children_recordUpdate h
    | arrayLit | forE | addressOf | encode => exact absurd h List.not_mem_nil
    | _ => exact h

/-- `std_str_parse_used_in_expr`. -/
def stdStrParseDescent : Descent where
  visited
    | .range .. | .enumVariantWithData .. => []
    | .recordUpdate _ fs => fs.map Prod.snd
    | e => e.children
  defaults := true
  sub {e c} h := by
    cases e with
    | recordUpdate b fs => exact mem_children_recordUpdate h
    | range | enumVariantWithData => exact absurd h List.not_mem_nil
    | _ => exact h

/-! ### What they look for -/

def isFnCall (name : String) : Expr → Bool
  | .fnCall n _ => n == name
  | _ => false

def isStdCall (ns name : String) : Expr → Bool
  | .namespacedCall ns' n _ _ => ns' == ns && n == name
  | _ => false

def isMethodCall (method : String) : Expr → Bool
  | .methodCall _ m _ => m == method
  | _ => false

/-- `std::str::format` whose format is the literal `\x7b:06\x7d`. -/
def isFormatPad6 : Expr → Bool
  | .namespacedCall ns name (.stringLiteral s :: _) _ =>
      ns == "std::str" && name == "format" && s == "\x7b:06\x7d"
  | _ => false

/-- `parse_str_meta_from_expr`. -/
def parseStrMetaFromExpr : Expr → Option ParseStrMeta
  | .namespacedCall ns name _ _ => if ns = "std::str" then parseStrMeta name else none
  | _ => none

def isStdStrParse (e : Expr) : Bool := (parseStrMetaFromExpr e).isSome

def isSignedParse (e : Expr) : Bool := (parseStrMetaFromExpr e).any (·.signed)

/-- `stdlib_fn_used_in_program`. -/
def stdlibFnUsedInProgram (program : Program) (name : String) : Bool :=
  stdlibFnDescent.usedInProgram (isFnCall name) program

/-- `std_ns_call_used_in_program`. -/
def stdNsCallUsedInProgram (program : Program) (ns name : String) : Bool :=
  stdNsDescent.usedInProgram (isStdCall ns name) program

/-- `std_format_pad6_used_in_program`. -/
def stdFormatPad6UsedInProgram (program : Program) : Bool :=
  formatPad6Descent.usedInProgram isFormatPad6 program

/-- `method_used_in_program`. -/
def methodUsedInProgram (program : Program) (method : String) : Bool :=
  methodDescent.usedInProgram (isMethodCall method) program

/-- `std_str_parse_used_in_program`. -/
def stdStrParseUsedInProgram (program : Program) : Bool :=
  stdStrParseDescent.usedInProgram isStdStrParse program

/-- What `std_str_parse_needs_signed_helper` asks of a top-level action: of a `return`
    or a `let` whether it parses a signed number, of any other whether it parses one
    at all. -/
def actionNeedsSigned : RouteAction → Bool
  | .ret values => values.any (stdStrParseDescent.usedInExpr isSignedParse)
  | .letA _ value => stdStrParseDescent.usedInExpr isSignedParse value
  | a => stdStrParseDescent.usedInAction isStdStrParse a

/-- `std_str_parse_needs_signed_helper`. -/
def stdStrParseNeedsSignedHelper (program : Program) : Bool :=
  (program.pureFns.any fun pf => stdStrParseDescent.usedInExpr isSignedParse pf.body) ||
  program.entities.any fun ent =>
    (ent.routes.any fun r =>
      r.body.allActions.any actionNeedsSigned ||
        r.whereClauses.any fun w => stdStrParseDescent.usedInExpr isSignedParse w.condition) ||
    ent.members.any (stdStrParseDescent.usedInMember isSignedParse)

/-! ### Signed numbers -/

theorem isStdStrParse_of_signed {e : Expr} (h : isSignedParse e = true) : isStdStrParse e = true := by
  rw [isSignedParse, Option.any_eq_true] at h
  obtain ⟨info, hmeta, -⟩ := h
  rw [isStdStrParse, hmeta]
  rfl

/-- An action that is neither a `return` nor a `let`. -/
def isOtherAction : RouteAction → Bool
  | .ret _ | .letA .. => false
  | _ => true

/-- A signed parse in sight, or any parse in a top-level action other than `return` and `let`. -/
inductive SignedParseSuspected (program : Program) : Prop
  | signed {c : Expr} : stdStrParseDescent.Sees program c → isSignedParse c = true →
      SignedParseSuspected program
  | action {ent : Entity} {r : Route} {a : RouteAction} : ent ∈ program.entities →
      r ∈ ent.routes → a ∈ r.body.allActions → isOtherAction a = true →
      stdStrParseDescent.usedInAction isStdStrParse a = true → SignedParseSuspected program

theorem actionNeedsSigned_of_other {a : RouteAction} (h : isOtherAction a = true) :
    actionNeedsSigned a = stdStrParseDescent.usedInAction isStdStrParse a := by
  cases a with
  | ret => cases h
  | letA => cases h
  | _ => rfl

/-- A `return` or a `let` has no nested actions. -/
theorem actionNeedsSigned_iff_of_not_other {a : RouteAction} (h : isOtherAction a = false) :
    actionNeedsSigned a = true ↔
      ∃ b, Subaction a b ∧ ∃ e ∈ b.exprs, stdStrParseDescent.usedInExpr isSignedParse e = true := by
  have hself : ∀ b, Subaction a b → b = a := by
    intro b hb
    rcases ReflTransGen.cases_head hb with heq | ⟨c, hc, -⟩
    · exact heq.symm
    · cases a with
      | ret => exact absurd hc List.not_mem_nil
      | letA => exact absurd hc List.not_mem_nil
      | _ => cases h
  constructor
  · intro hneeds
    cases a with
    | ret values =>
      obtain ⟨e, he, hused⟩ := List.any_eq_true.mp hneeds
      exact ⟨_, .refl, e, he, hused⟩
    | letA p value => exact ⟨_, .refl, value, List.mem_singleton.mpr rfl, hneeds⟩
    | _ => cases h
  · rintro ⟨b, hb, e, he, hused⟩
    rw [hself b hb] at he
    cases a with
    | ret values => exact List.any_eq_true.mpr ⟨e, he, hused⟩
    | letA p value =>
      rw [List.mem_singleton.mp he] at hused
      exact hused
    | _ => cases h

theorem stdStrParseNeedsSignedHelper_iff {program : Program} :
    stdStrParseNeedsSignedHelper program = true ↔ SignedParseSuspected program := by
  have hsigned : ∀ {e}, stdStrParseDescent.Scans program e →
      stdStrParseDescent.usedInExpr isSignedParse e = true → SignedParseSuspected program := by
    intro e hscan hused
    obtain ⟨c, hreach, hlook⟩ := stdStrParseDescent.usedInExpr_iff.mp hused
    exact .signed ⟨e, hscan, hreach⟩ hlook
  simp only [stdStrParseNeedsSignedHelper, Bool.or_eq_true, List.any_eq_true,
    Descent.usedInMember_iff]
  constructor
  · rintro (⟨pf, hpf, h⟩ | ⟨ent, hent, ⟨r, hr, ⟨a, ha, h⟩ | ⟨w, hw, h⟩⟩ |
      ⟨m, hm, ⟨hd, e, he, h⟩ | ⟨t, ht, h⟩⟩⟩)
    · exact hsigned (.pureFn hpf) h
    · cases hother : isOtherAction a with
      | true =>
        rw [actionNeedsSigned_of_other hother] at h
        exact .action hent hr ha hother h
      | false =>
        obtain ⟨b, hb, e, he, hused⟩ := (actionNeedsSigned_iff_of_not_other hother).mp h
        exact hsigned (.action hent hr ha hb he) hused
    · exact hsigned (.whereCondition hent hr hw) h
    · exact hsigned (.default hd hent hm he) h
    · exact hsigned (.transform hent hm ht) h
  · rintro (⟨⟨e, hscan, hreach⟩, hlook⟩ | ⟨hent, hr, ha, hother, hused⟩)
    · have hused := stdStrParseDescent.usedInExpr_iff.mpr ⟨_, hreach, hlook⟩
      cases hscan with
      | @action ent r a b e hent hr ha hb he =>
        refine Or.inr ⟨ent, hent, Or.inl ⟨r, hr, Or.inl ⟨a, ha, ?_⟩⟩⟩
        cases hother : isOtherAction a with
        | true =>
          rw [actionNeedsSigned_of_other hother]
          refine stdStrParseDescent.usedInAction_iff.mpr ⟨b, hb, e, he, ?_⟩
          exact stdStrParseDescent.usedInExpr_iff.mpr ⟨_, hreach, isStdStrParse_of_signed hlook⟩
        | false => exact (actionNeedsSigned_iff_of_not_other hother).mpr ⟨b, hb, e, he, hused⟩
      | whereCondition hent hr hw =>
        exact Or.inr ⟨_, hent, Or.inl ⟨_, hr, Or.inr ⟨_, hw, hused⟩⟩⟩
      | default hd hent hm he =>
        exact Or.inr ⟨_, hent, Or.inr ⟨_, hm, Or.inl ⟨hd, e, he, hused⟩⟩⟩
      | transform hent hm ht => exact Or.inr ⟨_, hent, Or.inr ⟨_, hm, Or.inr ⟨_, ht, hused⟩⟩⟩
      | pureFn hpf => exact Or.inl ⟨_, hpf, hused⟩
    · refine Or.inr ⟨_, hent, Or.inl ⟨_, hr, Or.inl ⟨_, ha, ?_⟩⟩⟩
      rw [actionNeedsSigned_of_other hother]
      exact hused

end CambrianLang.Solidity
