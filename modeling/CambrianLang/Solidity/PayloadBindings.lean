/-
  **Payload binders of match arms** (`subst_payload_bindings`, `gen_match_simple` and
  the `Match` case of `gen_expr_hoisted` in `codegen/solidity/core/expr.rs`).

  The body of an arm is emitted with every payload binder replaced by the field of the
  scrutinee that holds the payload, one binder after the other.
-/
import CambrianLang.Ast.Entity
import CambrianLang.Solidity.Substitution

namespace CambrianLang.Solidity

open Ast SlotTrees

/-! ### The lowering of an arm -/

/-- `is_payload_enum`. -/
def isPayloadEnum (decl : EnumDecl) : Bool := decl.variants.any fun v => !v.fields.isEmpty

/-- The text of `payload_enum_field_name`. -/
def payloadField (variant : String) (idx : Nat) : String :=
  variant.toLower ++ "_" ++ toString idx

/-- `payload_enum_field_name`. -/
def payloadEnumFieldName (variant : EnumVariant) (idx : Nat) : String :=
  payloadField variant.name idx

/-- The loop of `subst_payload_bindings` from position `i` on. -/
def substPayloadsFrom (subjExpr : Expr) (v : EnumVariant) : Nat → List Pattern → Expr → Expr
  | _, [], out => out
  | i, .ident binder :: pats, out =>
    substPayloadsFrom subjExpr v (i + 1) pats
      (substIdentInExpr out binder (.fieldAccess subjExpr (payloadEnumFieldName v i)))
  | i, _ :: pats, out => substPayloadsFrom subjExpr v (i + 1) pats out

/-- `subst_payload_bindings`. -/
def substPayloadBindings (body subjExpr : Expr) (decl : EnumDecl) (variant : String)
    (payloadPats : List Pattern) : Expr :=
  match decl.variants.find? (fun v => v.name == variant) with
  | some v => substPayloadsFrom subjExpr v 0 payloadPats body
  | none => body

/-- The body that `gen_match_simple` emits for an arm. -/
def armBodySimple (lookupEnum : String → Option EnumDecl) (subject : Expr)
    (arm : MatchPattern × Expr) : Option Expr :=
  match arm.1 with
  | .some (.ident binder) =>
    some (substIdentInExpr arm.2 binder (.fieldAccess subject "some_0"))
  | .enumVariantWithData en vn payloadPats => do
    let decl ← lookupEnum en
    if !isPayloadEnum decl then none
    else some (substPayloadBindings arm.2 subject decl vn payloadPats)
  | _ => some arm.2

/-- The body that `gen_expr_hoisted` emits for an arm, the scrutinee held in `subjStr`. -/
def armBodyHoisted (lookupEnum : String → Option EnumDecl) (subjStr : String)
    (arm : MatchPattern × Expr) : Expr :=
  match arm.1 with
  | .some (.ident binder) =>
    substIdentInExpr arm.2 binder (.fieldAccess (.ident subjStr) "some_0")
  | .enumVariantWithData en vn payloadPats =>
    match lookupEnum en with
    | some decl => substPayloadBindings arm.2 (.ident subjStr) decl vn payloadPats
    | none => arm.2
  | _ => arm.2

/-! ### What an arm is to be given -/

/-- The identifier patterns from position `i` on, each with the field of its payload. -/
def fieldsFrom (variant : String) : Nat → List Pattern → List (String × String)
  | _, [] => []
  | i, .ident binder :: pats => (binder, payloadField variant i) :: fieldsFrom variant (i + 1) pats
  | i, _ :: pats => fieldsFrom variant (i + 1) pats

/-- The binders of an arm, each with the field of the scrutinee that holds its payload. -/
def payloadFields : MatchPattern → List (String × String)
  | .enumVariantWithData _ variant pats => fieldsFrom variant 0 pats
  | .some (.ident binder) => [(binder, "some_0")]
  | _ => []

/-- The names that stand for a payload or a part of one. -/
def payloadNames : MatchPattern → List String
  | .enumVariantWithData _ _ pats => patternNames pats
  | .some inner => inner.names
  | _ => []

/-- The payload of each binder at its free uses. -/
def putPayload (subj : Expr) (fields : List (String × String)) (ks : List Slot) :
    Expr → Option Expr
  | .ident x =>
    if x ∈ boundNames ks then none else (fields.lookup x).map (Expr.fieldAccess subj)
  | _ => none

/-- `out` is the body of the arm with its own payload at every free use of a binder. -/
structure GivesPayload (vars : Expr → String → Prop) (subj : Expr) (arm : MatchPattern × Expr)
    (out : Expr) : Prop where
  reached : ∀ x ∈ payloadNames arm.1, OccursFree x arm.2 → x ∈ (payloadFields arm.1).map Prod.fst
  replaced : Replaces vars (putPayload subj (payloadFields arm.1)) arm.2 out

/-- What goes wrong nowhere: around a use of a binder that the walk rewrites, no arm
    binds the binder, nothing binds a variable of the scrutinee, and no later binder is
    rewritten in the scrutinee that has just been put there. -/
def PayloadUnharmed (vars : Expr → String → Prop) (subj : Expr) (fields : List (String × String))
    (body : Expr) : Prop :=
  ∀ ks before x field after, Path body ks (.ident x) → Rewritten x ks →
    fields = before ++ (x, field) :: after → x ∉ before.map Prod.fst →
    x ∉ armNames ks ∧ (∀ z ∈ boundNames ks, ¬ vars (.fieldAccess subj field) z) ∧
    ∀ later ∈ after, Rewritten later.1 ks →
      ∀ ks', Path subj ks' (.ident later.1) → ¬ Rewritten later.1 ks'

/-! ### One binder after the other -/

variable {subj e body : Expr} {fields before after : List (String × String)} {x field : String}
variable {blocked : List String} {vars : Expr → String → Prop}

/-- All binders replaced in turn, below binders of the names in `blocked`. -/
def substFieldsBelow (subj : Expr) (fields : List (String × String)) (blocked : List String)
    (e : Expr) : Expr :=
  fields.foldl (fun out f => substIdentBelow f.1 (.fieldAccess subj f.2) blocked out) e

def pickFields (subj : Expr) : List (String × String) → List String → Expr → Option Expr
  | [] => fun _ _ => none
  | f :: fields =>
    Slotted.thenPick (pickIdentBelow f.1 (.fieldAccess subj f.2)) (pickFields subj fields)
      (substFieldsBelow subj fields)

theorem atLeaves_pickFields : exprSlots.AtLeaves (pickFields subj fields) := by
  induction fields with
  | nil => exact fun _ _ _ h => nomatch h
  | cons f fields ih => exact atLeaves_pickIdentBelow.thenPick ih

theorem substFieldsBelow_substitutes :
    exprSlots.Substitutes blockedBelow (pickFields subj fields) (substFieldsBelow subj fields) := by
  induction fields with
  | nil => exact fun _ e => (mapSlots_id e).symm
  | cons f fields ih =>
    exact substIdentBelow_substitutes.comp atLeaves_pickIdentBelow ih atLeaves_pickFields

theorem pickIdentBelow_ident (r : Expr) (y : String) :
    pickIdentBelow y r blocked (.ident x) = if x = y ∧ x ∉ blocked then some r else none := by
  by_cases hxy : x = y
  · subst hxy
    by_cases hx : x ∈ blocked <;> simp [pickIdentBelow, pickIdent, hx]
  · by_cases hy : y ∈ blocked <;> simp [pickIdentBelow, pickIdent, hxy, hy]

theorem exists_ident_of_picked {d q : Expr} (h : pickFields subj fields blocked d = some q) :
    ∃ y, d = .ident y := by
  induction fields with
  | nil => cases h
  | cons f fields ih =>
    rw [pickFields, Slotted.thenPick] at h
    cases hfirst : pickIdentBelow f.1 (.fieldAccess subj f.2) blocked d with
    | none =>
      rw [hfirst] at h
      exact ih h
    | some r =>
      unfold pickIdentBelow at hfirst
      split at hfirst
      · cases hfirst
      · exact ⟨f.1, (pickIdent_eq_some.mp hfirst).1⟩

/-- A name that is blocked, or no binder, stays. -/
theorem pickFields_none (h : x ∈ blocked ∨ x ∉ fields.map Prod.fst) :
    pickFields subj fields blocked (.ident x) = none := by
  induction fields with
  | nil => rfl
  | cons f fields ih =>
    rw [List.map_cons, List.mem_cons, not_or] at h
    have hfirst : ¬ (x = f.1 ∧ x ∉ blocked) := by tauto
    rw [pickFields, Slotted.thenPick, pickIdentBelow_ident, if_neg hfirst]
    exact ih (by tauto)

/-- The first binder of the name decides, and the later ones are replaced in what it puts. -/
theorem pickFields_first (hblocked : x ∉ blocked) (hbefore : x ∉ before.map Prod.fst) :
    pickFields subj (before ++ (x, field) :: after) blocked (.ident x) =
      some (substFieldsBelow subj after blocked (.fieldAccess subj field)) := by
  induction before with
  | nil =>
    rw [List.nil_append, pickFields, Slotted.thenPick, pickIdentBelow_ident,
      if_pos ⟨rfl, hblocked⟩]
  | cons f before ih =>
    rw [List.map_cons, List.mem_cons, not_or] at hbefore
    rw [List.cons_append, pickFields, Slotted.thenPick, pickIdentBelow_ident,
      if_neg fun h => hbefore.1 h.1]
    exact ih hbefore.2

theorem exists_first (h : x ∈ fields.map Prod.fst) :
    ∃ before field after, fields = before ++ (x, field) :: after ∧ x ∉ before.map Prod.fst := by
  induction fields with
  | nil => exact absurd h List.not_mem_nil
  | cons f fields ih =>
    by_cases hx : x = f.1
    · exact ⟨[], f.2, fields, by rw [hx, List.nil_append], List.not_mem_nil⟩
    · have htail : x ∈ fields.map Prod.fst := by
        rw [List.map_cons, List.mem_cons] at h
        exact h.resolve_left hx
      obtain ⟨before, field, after, rfl, hbefore⟩ := ih htail
      refine ⟨f :: before, field, after, rfl, ?_⟩
      rw [List.map_cons, List.mem_cons, not_or]
      exact ⟨hx, hbefore⟩

theorem lookup_first (hbefore : x ∉ before.map Prod.fst) :
    (before ++ (x, field) :: after).lookup x = some field := by
  induction before with
  | nil => rw [List.nil_append, List.lookup_cons_self]
  | cons f before ih =>
    rw [List.map_cons, List.mem_cons, not_or] at hbefore
    rw [List.cons_append, List.lookup_cons, beq_eq_false_iff_ne.mpr hbefore.1]
    exact ih hbefore.2

theorem lookup_none (h : x ∉ fields.map Prod.fst) : fields.lookup x = none := by
  induction fields with
  | nil => rfl
  | cons f fields ih =>
    rw [List.map_cons, List.mem_cons, not_or] at h
    rw [List.lookup_cons, beq_eq_false_iff_ne.mpr h.1]
    exact ih h.2

theorem substIdentBelow_fieldAccess (r : Expr) (f : String) :
    substIdentBelow x r blocked (.fieldAccess e f) =
      .fieldAccess (substIdentBelow x r blocked e) f := by
  by_cases hx : x ∈ blocked
  · rw [substIdentBelow, substIdentBelow, if_pos hx, if_pos hx]
  · rw [substIdentBelow, substIdentBelow, if_neg hx, if_neg hx]
    rfl

theorem substFieldsBelow_fieldAccess (f : String) :
    substFieldsBelow subj fields blocked (.fieldAccess e f) =
      .fieldAccess (substFieldsBelow subj fields blocked e) f := by
  induction fields generalizing e with
  | nil => rfl
  | cons g fields ih =>
    rw [substFieldsBelow, List.foldl_cons, substIdentBelow_fieldAccess]
    exact ih

theorem mem_heeded_of_not_rewritten {ks : List Slot} : x ∈ ks.flatMap heeded ↔ ¬ Rewritten x ks := by
  rw [mem_heeded_iff, Rewritten]
  tauto

/-- What no binder is rewritten in stays: a payload is never a bare name, so no later
    binder can put back what an earlier one took. -/
theorem substFieldsBelow_fixed_iff (e : Expr) : substFieldsBelow subj fields blocked e = e ↔
    ∀ f ∈ fields, f.1 ∉ blocked → ∀ ks, Path e ks (.ident f.1) → ¬ Rewritten f.1 ks := by
  rw [substFieldsBelow_substitutes.fixed_iff atLeaves_pickFields]
  simp only [foldl_blockedBelow]
  constructor
  · intro h f hf hblocked ks hpath hks
    have hfree : f.1 ∉ blocked ++ ks.flatMap heeded := by
      rw [List.mem_append, mem_heeded_of_not_rewritten]
      tauto
    obtain ⟨before, field, after, rfl, hbefore⟩ := exists_first (List.mem_map.mpr ⟨f, hf, rfl⟩)
    have hsame := h ks _ hpath (leaf_ident f.1)
    rw [pickFields_first hfree hbefore, Option.getD_some, substFieldsBelow_fieldAccess] at hsame
    cases hsame
  · intro h ks d hpath hleaf
    cases hd : pickFields subj fields (blocked ++ ks.flatMap heeded) d with
    | none => rfl
    | some q =>
      obtain ⟨y, rfl⟩ := exists_ident_of_picked hd
      -- a picked name is a binder that nothing blocks
      have hpicked : ¬ (y ∈ blocked ++ ks.flatMap heeded ∨ y ∉ fields.map Prod.fst) := by
        intro hno
        rw [pickFields_none hno] at hd
        cases hd
      rw [not_or, not_not, List.mem_append, not_or, mem_heeded_of_not_rewritten, not_not]
        at hpicked
      obtain ⟨⟨hblocked, hks⟩, hmem⟩ := hpicked
      obtain ⟨f, hf, rfl⟩ := List.mem_map.mp hmem
      exact absurd hks (h f hf hblocked ks hpath)

/-- At a use of a binder that the walks rewrite, the payload arrives exactly when no arm
    binds the binder and no later binder is rewritten in the scrutinee. -/
theorem picked_eq_put_iff {ks : List Slot} (hks : Rewritten x ks)
    (hbefore : x ∉ before.map Prod.fst) :
    (pickFields subj (before ++ (x, field) :: after) (ks.flatMap heeded) (.ident x)).getD (.ident x) =
      (putPayload subj (before ++ (x, field) :: after) ks (.ident x)).getD (.ident x) ↔
    x ∉ armNames ks ∧ ∀ later ∈ after, Rewritten later.1 ks →
      ∀ ks', Path subj ks' (.ident later.1) → ¬ Rewritten later.1 ks' := by
  have hfree : x ∉ ks.flatMap heeded := by
    rw [mem_heeded_of_not_rewritten, not_not]
    exact hks
  have hbound : x ∈ boundNames ks ↔ x ∈ armNames ks := by
    rw [mem_boundNames_iff]
    have hnot := hks.1
    have hnot' := hks.2
    tauto
  have hstays : substFieldsBelow subj after (ks.flatMap heeded) subj = subj ↔
      ∀ later ∈ after, Rewritten later.1 ks →
        ∀ ks', Path subj ks' (.ident later.1) → ¬ Rewritten later.1 ks' := by
    rw [substFieldsBelow_fixed_iff]
    simp only [mem_heeded_of_not_rewritten, not_not]
  rw [pickFields_first hfree hbefore, Option.getD_some, substFieldsBelow_fieldAccess, putPayload,
    lookup_first hbefore, Option.map_some, ← hstays]
  by_cases harm : x ∈ armNames ks
  · simp [harm, hbound.mpr harm]
  · simp [harm, hbound]

theorem put_none {ks : List Slot} (h : ¬ Rewritten x ks ∨ x ∉ fields.map Prod.fst) :
    putPayload subj fields ks (.ident x) = none := by
  rw [putPayload]
  split
  · rfl
  · next hfree =>
    have hks : Rewritten x ks := (freeUse_iff.mp hfree).1
    rw [lookup_none (h.resolve_left (not_not.mpr hks)), Option.map_none]

theorem atLeaves_putPayload : exprSlots.AtLeaves (putPayload subj fields) := by
  intro ks d q h
  cases d with
  | ident y => exact leaf_ident y
  | _ => cases h

/-- **All binders replaced in turn** put its own payload at every free use of a binder,
    without capture, exactly when nothing goes wrong where they rewrite. -/
theorem substFields_replaces_iff (fields : List (String × String)) (body : Expr) :
    Replaces vars (putPayload subj fields) body (substFieldsBelow subj fields [] body) ↔
      PayloadUnharmed vars subj fields body := by
  have hput : exprSlots.AtLeaves (putPayload subj fields) := atLeaves_putPayload
  have hresult := substFieldsBelow_substitutes.eq_substAt_iff (w := substFieldsBelow subj fields)
    atLeaves_pickFields hput [] body
  simp only [foldl_blockedBelow, List.nil_append] at hresult
  constructor
  · rintro ⟨heq, huncaptured⟩ ks before x field after hpath hks rfl hbefore
    have hsame := hresult.mp heq ks _ hpath (leaf_ident x)
    obtain ⟨harm, hlater⟩ := (picked_eq_put_iff hks hbefore).mp hsame
    refine ⟨harm, ?_, hlater⟩
    apply huncaptured ks (.ident x) (.fieldAccess subj field) hpath
    have hfree : x ∉ boundNames ks := freeUse_iff.mpr ⟨hks, harm⟩
    rw [putPayload, if_neg hfree, lookup_first hbefore, Option.map_some]
  · intro h
    refine ⟨hresult.mpr ?_, ?_⟩
    · intro ks d hpath hleaf
      by_cases hident : ∃ x, d = .ident x
      · obtain ⟨x, rfl⟩ := hident
        by_cases hhit : ¬ Rewritten x ks ∨ x ∉ fields.map Prod.fst
        · rw [put_none hhit, pickFields_none (hhit.imp_left mem_heeded_of_not_rewritten.mpr)]
        · rw [not_or, not_not, not_not] at hhit
          obtain ⟨before, field, after, rfl, hbefore⟩ := exists_first hhit.2
          obtain ⟨harm, -, hlater⟩ := h ks before x field after hpath hhit.1 rfl hbefore
          exact (picked_eq_put_iff hhit.1 hbefore).mpr ⟨harm, hlater⟩
      · have hcode : pickFields subj fields (ks.flatMap heeded) d = none := by
          cases hd : pickFields subj fields (ks.flatMap heeded) d with
          | none => rfl
          | some q => exact absurd (exists_ident_of_picked hd) hident
        have hput : putPayload subj fields ks d = none := by
          cases d with
          | ident y => exact absurd ⟨y, rfl⟩ hident
          | _ => rfl
        rw [hcode, hput]
    · intro ks d q hpath hput
      cases d with
      | ident x =>
        by_cases hhit : ¬ Rewritten x ks ∨ x ∉ fields.map Prod.fst
        · rw [put_none hhit] at hput
          cases hput
        · rw [not_or, not_not, not_not] at hhit
          obtain ⟨before, field, after, rfl, hbefore⟩ := exists_first hhit.2
          obtain ⟨-, hvars, -⟩ := h ks before x field after hpath hhit.1 rfl hbefore
          rw [putPayload, lookup_first hbefore] at hput
          split at hput
          · cases hput
          · cases hput
            exact hvars
      | _ => cases hput

/-! ### Arms -/

/-- The variant of a payload pattern is declared. -/
def VariantDeclared (lookupEnum : String → Option EnumDecl) : MatchPattern → Prop
  | .enumVariantWithData en vn _ =>
    ∃ decl, lookupEnum en = some decl ∧ ∃ v ∈ decl.variants, v.name = vn
  | _ => True

/-- Every payload name that the body uses is an identifier pattern, and nothing goes wrong
    where the binders are rewritten. -/
structure ArmUnharmed (vars : Expr → String → Prop) (subj : Expr) (arm : MatchPattern × Expr) :
    Prop where
  named : ∀ x ∈ payloadNames arm.1, OccursFree x arm.2 → x ∈ (payloadFields arm.1).map Prod.fst
  unharmed : PayloadUnharmed vars subj (payloadFields arm.1) arm.2

/-- The variables that a hoisted scrutinee mentions, given those of a piece of Solidity. -/
def textual (textVars : String → List String) (e : Expr) (z : String) : Prop :=
  ∃ text, OccursFree text e ∧ z ∈ textVars text

variable {lookupEnum : String → Option EnumDecl} {arm : MatchPattern × Expr}

theorem substIdentBelow_nil (r : Expr) : substIdentBelow x r [] e = substIdentInExpr e x r :=
  if_neg List.not_mem_nil

theorem substPayloadsFrom_eq (v : EnumVariant) (i : Nat) (pats : List Pattern) (out : Expr) :
    substPayloadsFrom subj v i pats out =
      substFieldsBelow subj (fieldsFrom v.name i pats) [] out := by
  induction pats generalizing i out with
  | nil => rfl
  | cons p pats ih =>
    cases p with
    | ident binder =>
      rw [substPayloadsFrom, ih, fieldsFrom, substFieldsBelow, substFieldsBelow, List.foldl_cons,
        substIdentBelow_nil, payloadEnumFieldName]
    | _ => exact ih (i + 1) out

theorem substPayloadBindings_eq {decl : EnumDecl} {vn : String} (pats : List Pattern)
    (hdecl : ∃ v ∈ decl.variants, v.name = vn) :
    substPayloadBindings body subj decl vn pats =
      substFieldsBelow subj (fieldsFrom vn 0 pats) [] body := by
  obtain ⟨v, hv, hname⟩ := hdecl
  rw [substPayloadBindings]
  cases hfind : decl.variants.find? (fun v => v.name == vn) with
  | none => exact absurd (beq_iff_eq.mpr hname) (List.find?_eq_none.mp hfind v hv)
  | some w =>
    have hw := List.find?_some hfind
    rw [← beq_iff_eq.mp hw]
    exact substPayloadsFrom_eq w 0 pats body

theorem armBodyHoisted_eq (subjStr : String) (hdecl : VariantDeclared lookupEnum arm.1) :
    armBodyHoisted lookupEnum subjStr arm =
      substFieldsBelow (.ident subjStr) (payloadFields arm.1) [] arm.2 := by
  obtain ⟨pattern, body⟩ := arm
  cases pattern with
  | some inner =>
    cases inner with
    | ident binder => exact (substIdentBelow_nil _).symm
    | _ => rfl
  | enumVariantWithData en vn pats =>
    obtain ⟨decl, hlookup, hv⟩ := hdecl
    simp only [armBodyHoisted, hlookup]
    exact substPayloadBindings_eq pats hv
  | _ => rfl

theorem armBodySimple_eq {subject out : Expr} (hdecl : VariantDeclared lookupEnum arm.1)
    (h : armBodySimple lookupEnum subject arm = some out) :
    out = substFieldsBelow subject (payloadFields arm.1) [] arm.2 := by
  obtain ⟨pattern, body⟩ := arm
  cases pattern with
  | some inner =>
    cases inner with
    | ident binder =>
      cases h
      exact (substIdentBelow_nil _).symm
    | _ =>
      cases h
      rfl
  | enumVariantWithData en vn pats =>
    obtain ⟨decl, hlookup, hv⟩ := hdecl
    simp only [armBodySimple, hlookup, Option.bind_eq_bind, Option.bind_some] at h
    split at h
    · cases h
    · cases h
      exact substPayloadBindings_eq pats hv
  | _ =>
    cases h
    rfl

/-- **The payload of an arm** arrives at the uses of its binders exactly when nothing goes
    wrong on the way. -/
theorem givesPayload_iff :
    GivesPayload vars subj arm (substFieldsBelow subj (payloadFields arm.1) [] arm.2) ↔
      ArmUnharmed vars subj arm := by
  constructor
  · rintro ⟨hreached, hreplaced⟩
    exact ⟨hreached, (substFields_replaces_iff _ _).mp hreplaced⟩
  · rintro ⟨hnamed, hunharmed⟩
    exact ⟨hnamed, (substFields_replaces_iff _ _).mpr hunharmed⟩

/-- **Substitution while emitting Solidity.**  Where no match arm around a use that is
    rewritten binds the name, and nothing around it binds a variable of what is put
    there, the free uses of a name are replaced, by the walk for mappings also those
    below closures that bind it where a mapping stands; and the bodies of match arms,
    in `gen_match_simple` and hoisted, get the payload of their own scrutinee. -/
theorem substitution_captureAvoiding :
    (∀ e x r, Unharmed (Rewritten x) x r e →
      Replaces freeIn (putName (FreeUse x) x r) e (substIdentInExpr e x r)) ∧
    (∀ e x r, Unharmed (RewrittenInMap x) x r e →
      Replaces freeIn (putName (MapUse x) x r) e (substHashmapLetInExpr e x r)) ∧
    (∀ lookupEnum subject arm out, VariantDeclared lookupEnum arm.1 →
      ArmUnharmed freeIn subject arm → armBodySimple lookupEnum subject arm = some out →
      GivesPayload freeIn subject arm out) ∧
    ∀ textVars lookupEnum subjStr arm, VariantDeclared lookupEnum arm.1 →
      ArmUnharmed (textual textVars) (.ident subjStr) arm →
      GivesPayload (textual textVars) (.ident subjStr) arm
        (armBodyHoisted lookupEnum subjStr arm) := by
  refine ⟨?_, ?_, ?_, ?_⟩
  · intro e x r h
    exact (substIdentInExpr_iff e x r).mpr h
  · intro e x r h
    exact (substHashmapLetInExpr_iff e x r).mpr h
  · intro lookupEnum subject arm out hdecl hunharmed hout
    rw [armBodySimple_eq hdecl hout]
    exact givesPayload_iff.mpr hunharmed
  · intro textVars lookupEnum subjStr arm hdecl hunharmed
    rw [armBodyHoisted_eq subjStr hdecl]
    exact givesPayload_iff.mpr hunharmed

/-- `let y = x in x`, `|x| x[k]` and `Some(b) => b`. -/
theorem substitution_captureAvoiding_small :
    Replaces freeIn (putName (FreeUse "x") "x" (.ident "z"))
      (.letE (.ident "y") (.ident "x") (.ident "x"))
      (.letE (.ident "y") (.ident "z") (.ident "z")) ∧
    Replaces freeIn (putName (MapUse "x") "x" (.ident "m"))
      (.closure [.ident "x"] (.index (.ident "x") (.ident "k")))
      (.closure [.ident "x"] (.index (.ident "m") (.ident "k"))) ∧
    GivesPayload freeIn (.ident "s") (.some (.ident "b"), .ident "b")
      (.fieldAccess (.ident "s") "some_0") := by
  refine ⟨?_, ?_, ?_⟩
  · apply substitution_captureAvoiding.1
    intro ks hpath _
    cases hpath with
    | down hmem hrest =>
      simp only [exprSlots, Expr.slots, inOperand, List.mem_cons, List.not_mem_nil, or_false]
        at hmem
      rcases hmem with rfl | rfl
      · obtain ⟨rfl, -⟩ := hrest.of_leaf (leaf_ident "x")
        simp [armNames, boundNames, Slot.names]
      · obtain ⟨rfl, -⟩ := hrest.of_leaf (leaf_ident "x")
        simp [armNames, boundNames, Slot.names, Pattern.names, occursFree_ident]
  · apply substitution_captureAvoiding.2.1
    intro ks hpath _
    cases hpath with
    | down hmem hrest =>
      cases List.mem_singleton.mp hmem
      cases hrest with
      | down hmem hrest =>
        simp only [exprSlots, Expr.slots, inOperand, List.mem_cons, List.not_mem_nil, or_false]
          at hmem
        rcases hmem with rfl | rfl
        · obtain ⟨rfl, -⟩ := hrest.of_leaf (leaf_ident "x")
          simp [armNames, boundNames, Slot.names, patternNames, Pattern.names, occursFree_ident]
        · have heq := Expr.ident.inj (hrest.of_leaf (leaf_ident "k")).2
          exact absurd heq (by decide)
  · apply substitution_captureAvoiding.2.2.1 (fun _ => none) (.ident "s")
      (.some (.ident "b"), .ident "b") _ trivial _ rfl
    refine ⟨?_, ?_⟩
    · intro x hx _
      exact hx
    · intro ks before x field after hpath _ hfields _
      obtain ⟨rfl, -⟩ := hpath.of_leaf (leaf_ident "b")
      have hafter : after = [] := by
        have hlength := congrArg List.length hfields
        rw [List.length_append, List.length_cons] at hlength
        exact List.eq_nil_of_length_eq_zero (by simp [payloadFields] at hlength; omega)
      subst hafter
      exact ⟨List.not_mem_nil, fun _ h => absurd h List.not_mem_nil,
        fun _ h => absurd h List.not_mem_nil⟩

/-- The body of `Some(a) => match t { W(a) => a }`. -/
def rebound : Expr :=
  .matchE (.ident "t") [(.enumVariantWithData "E" "W" [.ident "a"], .ident "a")]

/-- **An inner arm takes the outer payload.**  The walk for mappings goes below the closure
    in `|x| x[k]`, and in `match s { Some(a) => match t { W(a) => a } }` the inner arm
    gets the payload of the outer scrutinee. -/
theorem inner_arm_takes_outer_payload :
    ¬ Replaces freeIn (putName (FreeUse "x") "x" (.ident "m"))
      (.closure [.ident "x"] (.index (.ident "x") (.ident "k")))
      (substHashmapLetInExpr (.closure [.ident "x"] (.index (.ident "x") (.ident "k"))) "x"
        (.ident "m")) ∧
    substIdentInExpr rebound "a" (.fieldAccess (.ident "s") "some_0") =
      .matchE (.ident "t") [(.enumVariantWithData "E" "W" [.ident "a"],
        .fieldAccess (.ident "s") "some_0")] ∧
    ¬ Replaces freeIn (putName (FreeUse "a") "a" (.fieldAccess (.ident "s") "some_0")) rebound
      (substIdentInExpr rebound "a" (.fieldAccess (.ident "s") "some_0")) ∧
    ¬ GivesPayload (textual fun text => [text]) (.ident "s") (.some (.ident "a"), rebound)
      (armBodyHoisted (fun _ => none) "s" (.some (.ident "a"), rebound)) := by
  have harm : (Slot.arm ["a"], Expr.ident "a") ∈ exprSlots.slots rebound :=
    List.mem_cons_of_mem _ List.mem_cons_self
  have hpath : Path rebound [.arm ["a"]] (.ident "a") := .down harm (.here _)
  refine ⟨?_, rfl, ?_, ?_⟩
  · rintro ⟨hresult, -⟩
    have hbase : Path (.index (.ident "x") (.ident "k")) [.indexed] (.ident "x") :=
      .down (s := (Slot.indexed, Expr.ident "x")) List.mem_cons_self (.here _)
    have hbody : Path (.closure [.ident "x"] (.index (.ident "x") (.ident "k")))
        [.closure ["x"], .indexed] (.ident "x") :=
      .down (s := (Slot.closure ["x"], Expr.index (.ident "x") (.ident "k"))) List.mem_cons_self
        hbase
    have hsame := (substHashmapAt_substitutes.eq_substAt_iff atLeaves_pickHashmap
      (atLeaves_putName _) .everywhere _).mp hresult _ _ hbody (leaf_ident "x")
    exact absurd (Expr.ident.inj hsame) (by decide)
  · intro h
    have hunharmed := (substIdentInExpr_iff _ _ _).mp h
    have heq := (hunharmed _ hpath (by decide)).1 List.mem_cons_self
    cases heq
  · rw [@armBodyHoisted_eq (fun _ => none) (.some (.ident "a"), rebound) "s" trivial,
      givesPayload_iff]
    rintro ⟨-, hunharmed⟩
    have harm := (hunharmed _ [] "a" "some_0" [] hpath (by decide) rfl List.not_mem_nil).1
    exact harm List.mem_cons_self

end CambrianLang.Solidity
