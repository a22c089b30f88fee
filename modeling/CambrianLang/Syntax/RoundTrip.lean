/-
  **A printed expression parses back** when every part fits the place it stands in and
  every name and literal is printed as the grammar has it.

  The induction is on the derivation of the expression: it says which values the grammar
  makes, so that names are words and types are never typed addresses.
-/
import CambrianLang.Syntax.ExprForms

namespace CambrianLang.Syntax

open Ast

mutual
/-- What is printed for a value is read back. -/
def Reads : Val → Prop
  | .expr e => Faithful e → PrintReads e
  | .field name e =>
    Faithful e → Fits .expr e →
      ReadsAs .recordFieldInit (name ++ ": " ++ fmtExpr e).toList (.field name e)
  | .arm p e =>
    PlainPattern p → Faithful e → Fits .armBody e →
      ReadsAs .matchArmDecl (fmtMatchPattern p ++ " => " ++ fmtExpr e).toList (.arm p e)
  | .stmt p e => PatternReads p ∧ (Faithful e → PrintReads e)
  | .pat p => PatternReads p
  | .matchPat p => PlainPattern p → MatchReads p
  | .ty t => TypeReads t
  | .list vs => ReadsAll vs
def ReadsAll : List Val → Prop
  | [] => True
  | v :: vs => Reads v ∧ ReadsAll vs
end

theorem readsAll_iff (vs : List Val) : ReadsAll vs ↔ ∀ v ∈ vs, Reads v := by
  induction vs with
  | nil => simp [ReadsAll]
  | cons v vs ih => rw [ReadsAll, ih, List.forall_mem_cons]

/-- The members of a list that a rule makes. -/
theorem reads_map {α : Type} {xs : List α} {f : α → Val} (h : Reads (.list (xs.map f))) :
    ∀ x ∈ xs, Reads (f x) := by
  rw [Reads, readsAll_iff] at h
  exact fun x hx => h (f x) (List.mem_map_of_mem hx)

/-- A list with commas between its members has a member. -/
theorem Derives.comma_ne_nil {r : Rule} {ts : List Tok} {vs : List Val}
    (h : Derives (.comma r) ts (.list vs)) : vs ≠ [] := by
  generalize hr' : Rule.comma r = r' at h
  generalize hv' : Val.list vs = v' at h
  cases h with
  | alt hr =>
    subst hr'
    cases hr
  | commaLast hs hlast =>
    cases hv'
    exact List.append_ne_nil_of_right_ne_nil _ (List.cons_ne_nil _ _)
  | commaTrailing hs =>
    cases hv'
    exact List.cons_ne_nil _ _
  | binOp => cases hv'
  | _ => cases hr'

theorem Derives.comma_map_ne_nil {α : Type} {r : Rule} {ts : List Tok} {xs : List α} {f : α → Val}
    (h : Derives (.comma r) ts (.list (xs.map f))) : xs ≠ [] := by
  rintro rfl
  exact h.comma_ne_nil rfl

/-- The rules of the operators. -/
def operatorRules : List Rule :=
  [.exprOr, .exprAnd, .exprBitOr, .exprBitXor, .exprBitAnd, .exprEq, .exprCmp, .exprShift, .exprAdd,
    .exprMul, .exprCast, .exprUnary, .exprPostfix, .exprPrimary]

/-- No operator has a closure for its operand. -/
theorem not_reaches_closure {r : Rule} (h : r ∈ operatorRules) : ¬ Reaches r .exprClosure := by
  have hclosed : ∀ r ∈ operatorRules, ∀ r' ∈ r.alts, r' ∈ operatorRules := by decide
  have hreach : ∀ r', Reaches r r' → r' ∈ operatorRules := by
    intro r' hr'
    induction hr' with
    | refl => exact h
    | tail _ hstep ih => exact hclosed _ ih _ hstep
  intro hclosure
  have hmem := hreach _ hclosure
  revert hmem
  decide

section Parts

variable {e : Expr} (hf : Faithful e)

include hf

/-- A part that is read back is read in its place. -/
theorem Faithful.reads_part {r : Rule} {p : Expr} (hp : (r, p) ∈ places e)
    (h : Reads (.expr p)) : ReadsAs r (fmtExpr p).toList (.expr p) := by
  obtain ⟨hfaithful, hfit⟩ := hf.part hp
  rw [Reads] at h
  exact (h hfaithful).at_place hfit

/-- An operand, which is no closure. -/
theorem Faithful.reads_operand (r : Rule) {p : Expr} (hr : r ∈ operatorRules)
    (hp : (r, p) ∈ places e) (h : Reads (.expr p)) :
    ReadsAs r (fmtExpr p).toList (.expr p) ∧ Begins (fmtExpr p).toList := by
  obtain ⟨hfaithful, hfit⟩ := hf.part hp
  rw [Reads] at h
  exact ⟨(h hfaithful).at_place hfit, (h hfaithful).begins hfit (not_reaches_closure hr)⟩

theorem Faithful.args_read {args : List Expr} (hp : ∀ a ∈ args, (.expr, a) ∈ places e)
    (h : Reads (.list (args.map .expr))) : ArgsRead args := fun a ha =>
  hf.reads_part (hp a ha) (reads_map h a ha)

end Parts

/-- The parts of a type that the grammar makes. -/
theorem typeReads_of_reads {ts : List Ty} (h : Reads (.list (ts.map .ty))) :
    ∀ t ∈ ts, TypeReads t := fun t ht => by
  have hread := reads_map h t ht
  rwa [Reads] at hread

theorem patternReads_of_reads {ps : List Pattern} (h : Reads (.list (ps.map .pat))) :
    ∀ p ∈ ps, PatternReads p := fun p hp => by
  have hread := reads_map h p hp
  rwa [Reads] at hread

/-- All of the tokens are ones that the lexer makes. -/
def AllLexical (ts : List Tok) : Prop := ∀ t ∈ ts, t.Lexical

@[simp] theorem allLexical_nil : AllLexical [] := nofun

@[simp] theorem allLexical_cons (t : Tok) (ts : List Tok) :
    AllLexical (t :: ts) ↔ t.Lexical ∧ AllLexical ts := List.forall_mem_cons

@[simp] theorem allLexical_append (ts us : List Tok) :
    AllLexical (ts ++ us) ↔ AllLexical ts ∧ AllLexical us := List.forall_mem_append

@[simp] theorem lexical_sym (text : String) : (Tok.sym text).Lexical := trivial

/-- **What the grammar makes is read back** under the conditions of `Faithful`. -/
theorem Derives.reads {r : Rule} {ts : List Tok} {v : Val} (h : Derives r ts v)
    (hlex : AllLexical ts) : Reads v := by
  induction h with
  | alt _ _ ih => exact ih hlex
  -- comma helpers
  | eachNil => simp [Reads, ReadsAll]
  | eachCons _ _ ih ihs =>
    simp at hlex
    rw [Reads, ReadsAll]
    refine ⟨ih hlex.1, ?_⟩
    simpa [Reads] using ihs hlex.2
  | commaLast _ _ ihs ih =>
    simp at hlex
    have hinit := ihs hlex.1
    rw [Reads, readsAll_iff] at hinit ⊢
    rw [List.forall_mem_append]
    refine ⟨hinit, ?_⟩
    simpa using ih hlex.2
  | commaTrailing _ ihs => exact ihs hlex
  | commaNone => simp [Reads, ReadsAll]
  -- types
  | simpleType ht =>
    simp at hlex
    rw [Reads]
    exact typeReads_simple hlex ht
  | genericType ht h ih =>
    simp at hlex
    rw [Reads]
    exact typeReads_generic hlex.1 ht h.comma_map_ne_nil (typeReads_of_reads (ih hlex.2))
  | @nestedGeneric t outer ts init t' inner us params ht _ ht' h ihi ih =>
    simp at hlex
    obtain ⟨hlt, hlts, hlt', hlus⟩ := hlex
    have hinner : TypeReads (.generic inner params) :=
      typeReads_generic hlt' ht' h.comma_map_ne_nil (typeReads_of_reads (ih hlus))
    rw [Reads]
    refine typeReads_generic hlt ht (List.append_ne_nil_of_right_ne_nil _ (List.cons_ne_nil _ _)) ?_
    rw [List.forall_mem_append]
    refine ⟨typeReads_of_reads (ihi hlts), ?_⟩
    simpa using hinner
  | tupleType _ hs ih ihs =>
    simp at hlex
    have hfirst := ih hlex.1
    rw [Reads] at hfirst ⊢
    exact typeReads_tuple hs.comma_map_ne_nil hfirst (typeReads_of_reads (ihs hlex.2))
  -- patterns
  | wildcardPattern =>
    rw [Reads]
    exact patternReads_wildcard
  | derefPattern ht =>
    simp at hlex
    rw [Reads]
    exact patternReads_deref hlex ht
  | somePattern _ ih =>
    simp at hlex
    have hinner := ih hlex
    rw [Reads] at hinner ⊢
    exact patternReads_some hinner
  | nonePattern =>
    rw [Reads]
    exact patternReads_none
  | groupPattern h hp ih =>
    simp at hlex
    rw [Reads, ← hp]
    exact patternReads_group h.comma_map_ne_nil (patternReads_of_reads (ih hlex))
  | identPattern ht =>
    simp at hlex
    rw [Reads]
    exact patternReads_ident hlex ht
  | variantDataPattern ht ht' _ ih =>
    simp at hlex
    rw [Reads]
    exact fun hscope => matchReads_variantData hlex.1 ht hlex.2.1 ht' hscope
      (patternReads_of_reads (ih hlex.2.2))
  | variantPattern ht ht' =>
    simp at hlex
    rw [Reads]
    exact fun hscope => matchReads_variant hlex.1 ht hlex.2 ht' hscope
  | someMatch _ ih =>
    simp at hlex
    have hinner := ih hlex
    rw [Reads] at hinner
    rw [Reads]
    exact fun _ => matchReads_some hinner
  | noneMatch =>
    rw [Reads]
    exact fun _ => ⟨_, .keyword (show "none" ∈ keywords by decide), .noneMatch⟩
  | wildcardMatch =>
    rw [Reads]
    exact fun _ => ⟨_, lexes_underscore, .wildcardMatch⟩
  | intMatch _ =>
    rw [Reads]
    exact matchReads_int
  | trueMatch =>
    rw [Reads]
    exact fun _ => ⟨_, .keyword (show "true" ∈ keywords by decide), .trueMatch⟩
  | falseMatch =>
    rw [Reads]
    exact fun _ => ⟨_, .keyword (show "false" ∈ keywords by decide), .falseMatch⟩
  | identMatch ht =>
    simp at hlex
    rw [Reads]
    exact fun _ => ⟨_, .name hlex ht, .identMatch ht⟩
  -- ranges, closures, records, blocks
  | range _ _ ihl ihr =>
    simp at hlex
    rw [Reads]
    intro hf
    have hl := hf.reads_operand .exprOr (by decide) (by simp [places]) (ihl hlex.1)
    have hr := hf.reads_operand .exprOr (by decide) (by simp [places]) (ihr hlex.2)
    exact printReads_range hl.1 hl.2 hr.1 hr.2
  | closure _ _ ihp ih =>
    simp at hlex
    rw [Reads]
    intro hf
    exact printReads_closure hf.plain (patternReads_of_reads (ihp hlex.1))
      (hf.reads_part (by simp [places]) (ih hlex.2))
  | @record t name ts fields e ht h he ih =>
    simp at hlex
    rw [Reads]
    intro hf
    refine printReads_record hlex.1 ht h.comma_map_ne_nil he ?_
    intro f hmem
    have hplace : (Rule.expr, f.2) ∈ places e := by
      have hmap : (Rule.expr, f.2) ∈ fields.map fun f => (Rule.expr, f.2) :=
        List.mem_map.mpr ⟨f, hmem, rfl⟩
      rw [← he, recordLit]
      split <;> exact hmap
    have hfield := reads_map (ih hlex.2) f hmem
    rw [Reads] at hfield
    obtain ⟨hfaithful, hfit⟩ := hf.part hplace
    exact hfield hfaithful hfit
  | fieldInit ht _ ih =>
    simp at hlex
    have hvalue := ih hlex.2
    rw [Reads] at hvalue
    rw [Reads]
    exact fun hf hfit => reads_field hlex.1 ht ((hvalue hf).at_place hfit)
  | ifThen _ _ ihc ih =>
    simp at hlex
    rw [Reads]
    intro hf
    exact printReads_ifThen (hf.reads_part (by simp [places]) (ihc hlex.1))
      (hf.reads_part (by simp [places]) (ih hlex.2))
  | ifElse _ _ _ ihc ih ih' =>
    simp at hlex
    rw [Reads]
    intro hf
    exact printReads_ifElse (hf.reads_part (by simp [places]) (ihc hlex.1))
      (hf.reads_part (by simp [places]) (ih hlex.2.1))
      (hf.reads_part (by simp [places]) (ih' hlex.2.2))
  | @matchE ts us s arms _ h ihs ih =>
    simp at hlex
    rw [Reads]
    intro hf
    refine printReads_matchE h.comma_map_ne_nil (hf.reads_part (by simp [places]) (ihs hlex.1)) ?_
    intro a hmem
    have hplace : (Rule.armBody, a.2) ∈ places (.matchE s arms) :=
      List.mem_cons_of_mem _ (List.mem_map.mpr ⟨a, hmem, rfl⟩)
    have harm := reads_map (ih hlex.2) a hmem
    rw [Reads] at harm
    obtain ⟨hfaithful, hfit⟩ := hf.part hplace
    exact harm (hf.plain a hmem) hfaithful hfit
  | arm _ _ ihp ih =>
    simp at hlex
    have hpat := ihp hlex.1
    rw [Reads] at hpat
    have hbody := ih hlex.2
    rw [Reads] at hbody
    rw [Reads]
    exact fun hp hf hfit => reads_arm (hpat hp) ((hbody hf).at_place hfit)
  | forE _ _ _ ihp ihi ihb =>
    simp at hlex
    have hpat := ihp hlex.1
    rw [Reads] at hpat
    rw [Reads]
    intro hf
    exact printReads_forE hpat (hf.reads_part (by simp [places]) (ihi hlex.2.1))
      (hf.reads_part (by simp [places]) (ihb hlex.2.2))
  | braced _ ih =>
    simp at hlex
    exact ih hlex
  | letChain _ _ ihs ihb =>
    simp at hlex
    have hstmt := ihs hlex.1
    rw [Reads] at hstmt
    rw [Reads]
    intro hf
    refine printReads_letE hstmt.1 (hf.reads_part (by simp [places]) ?_)
      (hf.reads_part (by simp [places]) (ihb hlex.2))
    rw [Reads]
    exact hstmt.2
  | letStmt _ _ ihp ih =>
    simp at hlex
    have hpat := ihp hlex.1
    rw [Reads] at hpat
    have hvalue := ih hlex.2
    rw [Reads] at hvalue
    rw [Reads]
    exact ⟨hpat, hvalue⟩
  -- operators
  | binOp hop _ _ ihl ihr =>
    subst hop
    simp at hlex
    rw [Reads]
    intro hf
    exact printReads_binOp (hf.reads_part (by simp [places]) (ihl hlex.1))
      (hf.reads_part (by simp [places]) (ihr hlex.2))
  | cast _ ht ih =>
    simp at hlex
    rw [Reads]
    intro hf
    have he := hf.reads_operand .exprCast (by decide) (by simp [places]) (ih hlex.1)
    exact printReads_cast hlex.2 ht he.1 he.2
  | unaryOp _ ih =>
    simp at hlex
    rw [Reads]
    intro hf
    have he := hf.reads_operand .exprUnary (by decide) (by simp [places]) (ih hlex)
    exact printReads_unaryOp he.1 he.2
  | fieldAccess _ ht ih =>
    simp at hlex
    rw [Reads]
    intro hf
    have he := hf.reads_operand .exprPostfix (by decide) (by simp [places]) (ih hlex.1)
    exact printReads_fieldAccess hlex.2 ht he.1 he.2
  | methodCall _ ht _ ih iha =>
    simp at hlex
    rw [Reads]
    intro hf
    have he := hf.reads_operand .exprPostfix (by decide) (by simp [places]) (ih hlex.1)
    have hargs := hf.args_read (fun a ha => by simp [places, ha]) (iha hlex.2.2)
    exact printReads_methodCall hlex.2.1 ht he.1 he.2 hargs
  | @tupleField ts t e v _ _ ih =>
    simp at hlex
    rw [Reads]
    intro hf
    have he := hf.reads_operand .exprPostfix (by decide) (by simp [places]) (ih hlex.1)
    have hv : v.hi = 0 := by
      by_contra hwide
      apply hf.plain
      rw [display, if_neg hwide, String.toList_ofList]
      exact ⟨u256HexDigits v, rfl⟩
    exact printReads_tupleField hv he.1 he.2
  | index _ _ ih ihk =>
    simp at hlex
    rw [Reads]
    intro hf
    have he := hf.reads_operand .exprPostfix (by decide) (by simp [places]) (ih hlex.1)
    exact printReads_index he.1 he.2 (hf.reads_part (by simp [places]) (ihk hlex.2))
  -- primary expressions
  | intLit _ | hexLit _ | binLit _ =>
    rw [Reads]
    exact fun _ => printReads_int _
  | strLit =>
    rw [Reads]
    exact fun hf => printReads_string hf.plain.1 hf.plain.2
  | bytesLit =>
    rw [Reads]
    exact fun hf => printReads_bytes hf.plain.1 hf.plain.2
  | trueLit | falseLit =>
    rw [Reads]
    exact fun _ => printReads_bool _
  | arrayLit _ ih =>
    simp at hlex
    rw [Reads]
    exact fun hf => printReads_arrayLit (hf.args_read (fun a ha => by simp [places, ha]) (ih hlex))
  | temporalRef ht =>
    simp at hlex
    rw [Reads]
    exact fun _ => printReads_temporalRef hlex ht
  | macroRef ht _ ih =>
    simp at hlex
    rw [Reads]
    exact fun hf => printReads_macroRef hlex.1 ht
      (hf.args_read (fun a ha => by simp [places, ha]) (ih hlex.2))
  | msgField ht =>
    simp at hlex
    rw [Reads]
    exact fun _ => printReads_msgField hlex ht
  | sysField ht =>
    simp at hlex
    rw [Reads]
    exact fun _ => printReads_sysField hlex ht
  | traceCall ht ht' =>
    simp at hlex
    rw [Reads]
    exact fun _ => printReads_traceCall hlex.1 ht hlex.2 ht'
  | traceField ht =>
    simp at hlex
    rw [Reads]
    exact fun _ => printReads_traceField hlex ht
  | emptyCollection =>
    rw [Reads]
    exact fun _ => printReads_emptyCollection
  | someE _ ih =>
    simp at hlex
    rw [Reads]
    exact fun hf => printReads_someE (hf.reads_part (by simp [places]) (ih hlex))
  | noneE =>
    rw [Reads]
    exact fun _ => printReads_noneE
  | @stdCall t ns t' sub t'' name ts args ht ht' ht'' _ ih =>
    simp at hlex
    obtain ⟨hlt, hlt', hlt'', hlts⟩ := hlex
    rw [Reads]
    intro hf
    have hargs := hf.args_read (fun a ha => by simp [places, ha]) (ih hlts)
    have hfree : ScopeFree (ns ++ "::" ++ sub) := hf.plain.1
    have hns : ns ∉ scopeWords := by
      intro hmem
      apply (hfree ns hmem).2.1
      exact ⟨sub.toList, by simp⟩
    have hsub : sub ∉ scopeWords := by
      intro hmem
      apply (hfree sub hmem).2.2
      exact ⟨ns.toList, by simp⟩
    exact printReads_stdCall hlt ht hlt' ht' hlt'' ht'' hns hsub hargs
  | @turbofish t ns t' name us tps ts args ht ht' hp _ ihp ih =>
    simp at hlex
    obtain ⟨hlt, hlt', hlus, hlts⟩ := hlex
    rw [Reads]
    intro hf
    have hargs := hf.args_read (fun a ha => by simp [places, ha]) (ih hlts)
    have hne : tps ≠ [] := hp.comma_map_ne_nil
    obtain ⟨hfree, htypes⟩ := hf.plain
    obtain ⟨hname, heven⟩ := htypes hne
    have hns : ns ∉ scopeWords := fun hmem => (hfree ns hmem).1 rfl
    exact printReads_turbofish hlt ht hlt' ht' hns hname hne (typeReads_of_reads (ihp hlus)) heven
      hargs
  | enumVariantWithData ht ht' _ ih =>
    simp at hlex
    rw [Reads]
    intro hf
    have hargs := hf.args_read (fun a ha => by simp [places, ha]) (ih hlex.2.2)
    exact printReads_enumVariantWithData hlex.1 ht hlex.2.1 ht' hf.plain hargs
  | enumVariant ht ht' =>
    simp at hlex
    rw [Reads]
    exact fun hf => printReads_enumVariant hlex.1 ht hlex.2 ht' hf.plain
  | fnCall ht _ ih =>
    simp at hlex
    rw [Reads]
    exact fun hf => printReads_fnCall hlex.1 ht
      (hf.args_read (fun a ha => by simp [places, ha]) (ih hlex.2))
  | @tuple ts us first more _ hs ih ihs =>
    simp at hlex
    rw [Reads]
    intro hf
    refine printReads_tuple hs.comma_map_ne_nil ?_
    have hmore : ∀ a ∈ more, ReadsAs .expr (fmtExpr a).toList (.expr a) :=
      hf.args_read (fun a ha => by simp [places, ha]) (ihs hlex.2)
    rw [ArgsRead, List.forall_mem_cons]
    exact ⟨hf.reads_part (by simp [places]) (ih hlex.1), hmore⟩
  | paren _ ih =>
    simp at hlex
    exact ih hlex
  | addressOf ht _ ih =>
    simp at hlex
    rw [Reads]
    exact fun hf => printReads_addressOf hlex.1 ht
      (hf.args_read (fun a ha => by simp [places, ha]) (ih hlex.2))
  | encode _ _ iht ih =>
    simp at hlex
    have hty := iht hlex.1
    rw [Reads] at hty
    rw [Reads]
    exact fun hf => printReads_encode hty hf.plain (hf.reads_part (by simp [places]) (ih hlex.2))
  | ident ht =>
    simp at hlex
    rw [Reads]
    exact fun _ => printReads_ident hlex ht

/-- **The printed expression parses back.** -/
theorem printed_parses {r : Rule} {text : String} {e : Expr} (h : Parses r text e)
    (hf : Faithful e) (hfit : Fits r e) : Parses r (fmtExpr e) e := by
  obtain ⟨ts, hlexes, hd⟩ := h
  have hreads := hd.reads hlexes.lexical
  rw [Reads] at hreads
  exact ((hreads hf).at_place hfit).parses

/-- `a.b + c` is printed as `(a.b + c)`. -/
theorem printed_parses_sum :
    Parses .exprOr (fmtExpr (.binOp (.fieldAccess (.ident "a") "b") .add (.ident "c")))
      (.binOp (.fieldAccess (.ident "a") "b") .add (.ident "c")) := by
  have ha : Derives .exprPostfix [.ident "a"] (.expr (.ident "a")) :=
    .alt (List.mem_cons_self ..) (.ident rfl)
  have hc : Derives .exprMul [.ident "c"] (.expr (.ident "c")) :=
    .reach (reaches_of_mem (n := 4) (by decide)) (.ident rfl)
  have hfield : Derives .exprAdd [.ident "a", .sym ".", .ident "b"]
      (.expr (.fieldAccess (.ident "a") "b")) :=
    .reach (reaches_of_mem (n := 4) (by decide)) (.fieldAccess ha rfl)
  have hsum : Derives .exprOr [.ident "a", .sym ".", .ident "b", .sym "+", .ident "c"]
      (.expr (.binOp (.fieldAccess (.ident "a") "b") .add (.ident "c"))) :=
    .reach (reaches_of_mem (n := 8) (by decide))
      (.binOp (rfl : leftRule .add = .exprAdd) hfield hc)
  refine printed_parses ⟨_, (by decide : Lexes "a.b + c".toList _), hsum⟩ ?_
    (reaches_of_mem (n := 13) (by decide))
  have hname : ∀ name, Faithful (.ident name) := fun name =>
    BottomUp.Layered.everywhere_iff.mpr ⟨⟨trivial, nofun⟩, nofun⟩
  refine BottomUp.Layered.everywhere_iff.mpr ⟨⟨trivial, ?_⟩, ?_⟩
  · simp only [places, List.forall_mem_cons]
    exact ⟨reaches_of_mem (n := 4) (by decide), reaches_of_mem (n := 4) (by decide),
      fun _ h => absurd h List.not_mem_nil⟩
  · intro b hb
    have hcases : b = .fieldAccess (.ident "a") "b" ∨ b = .ident "c" := by
      simpa [Authored.exprTree, Expr.children, Expr.parts, unbound] using hb
    rcases hcases with rfl | rfl
    · refine BottomUp.Layered.everywhere_iff.mpr
        ⟨⟨by rw [Plain]; decide, ?_⟩, ?_⟩
      · simp only [places, List.forall_mem_cons]
        exact ⟨reaches_of_mem (n := 4) (by decide), fun _ h => absurd h List.not_mem_nil⟩
      · intro b' hb'
        have heq : b' = .ident "a" := by
          simpa [Authored.exprTree, Expr.children, Expr.parts, unbound] using hb'
        exact heq ▸ hname "a"
    · exact hname "c"

/-- The field of a cast takes parentheses. -/
theorem Derives.parens_of_cast {r : Rule} {ts : List Tok} {e : Expr} {ty : Ty}
    (h : Derives r ts (.expr (.cast e ty))) (hr : r = .exprPostfix ∨ r = .exprPrimary) :
    .sym "(" ∈ ts := by
  generalize hv : Val.expr (.cast e ty) = v at h
  induction h with
  | alt hstep _ ih =>
    refine ih ?_ hv
    rcases hr with rfl | rfl
    · exact .inr (List.mem_singleton.mp hstep)
    · cases hstep
  | paren => exact List.mem_cons_self ..
  | braced => rcases hr with hr | hr <;> cases hr
  | cast => rcases hr with hr | hr <;> cases hr
  | record _ _ he => rcases hr with hr | hr <;> cases hr
  | _ => cases hv

theorem Derives.parens_of_castField {r : Rule} {ts : List Tok} {e : Expr} {ty : Ty} {f : String}
    (h : Derives r ts (.expr (.fieldAccess (.cast e ty) f))) : .sym "(" ∈ ts := by
  generalize hv : Val.expr (.fieldAccess (.cast e ty) f) = v at h
  induction h with
  | alt _ _ ih => exact ih hv
  | paren => exact List.mem_cons_self ..
  | braced _ ih => exact List.mem_cons_of_mem _ (List.mem_append_left _ (ih hv))
  | fieldAccess h =>
    cases hv
    exact List.mem_append_left _ (h.parens_of_cast (.inl rfl))
  | tupleField h =>
    cases hv
    exact List.mem_append_left _ (h.parens_of_cast (.inl rfl))
  | record _ _ he =>
    rw [recordLit] at he
    split at he <;> (subst he; cases hv)
  | _ => cases hv

/-- `(a as u8).f` is printed as `a as u8.f`. -/
theorem castField_not_parsed : ¬ ∀ r ∈ [Rule.expr, .exprOr], ∀ text e, Parses r text e →
    Parses r (fmtExpr e) e := by
  intro hall
  have hparsed : Parses .exprOr "(a as u8).f"
      (.fieldAccess (.cast (.ident "a") (.simple "u8")) "f") := by
    refine ⟨[.sym "(", .ident "a", .sym "as", .ident "u8", .sym ")", .sym ".", .ident "f"],
      by decide, ?_⟩
    have ha : Derives .exprCast [.ident "a"] (.expr (.ident "a")) :=
      .reach (reaches_of_mem (n := 3) (by decide)) (.ident rfl)
    have hcast : Derives .expr [.ident "a", .sym "as", .ident "u8"]
        (.expr (.cast (.ident "a") (.simple "u8"))) :=
      .reach (reaches_of_mem (n := 13) (by decide)) (.cast ha rfl)
    have hgroup : Derives .exprPostfix (parens [.ident "a", .sym "as", .ident "u8"])
        (.expr (.cast (.ident "a") (.simple "u8"))) :=
      .alt (List.mem_cons_self ..) (.paren hcast)
    exact .reach (reaches_of_mem (n := 12) (by decide)) (.fieldAccess hgroup rfl)
  obtain ⟨ts, hlexes, hd⟩ := hall .exprOr (by simp) _ _ hparsed
  have htokens : Lexes "a as u8.f".toList
      [.ident "a", .sym "as", .ident "u8", .sym ".", .ident "f"] := by decide
  have hsame := Option.some.inj (hlexes.symm.trans htokens)
  have hparen := hd.parens_of_castField
  rw [hsame] at hparen
  revert hparen
  decide

end CambrianLang.Syntax
