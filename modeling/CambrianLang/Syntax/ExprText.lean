/-
  **Printed expressions and the places they stand in.**

  The printer puts parentheses around operators with two operands and around nothing else.
  `printRule` is the rule that reads what it writes for an expression, `places` the rules
  for which the grammar has the parts of one; a part is read in its place when the one
  rule is reached from the other.
-/
import CambrianLang.Ast.ExprMap
import CambrianLang.Syntax.TypeText

namespace CambrianLang.Syntax

open Ast Authored CambrianLang.Core

/-- The rule that reads what is printed for the expression. -/
def printRule : Expr → Rule
  | .unaryOp _ _ => .exprUnary
  | .cast _ _ => .exprCast
  | .range _ _ => .exprRange
  | .closure _ _ => .exprClosure
  | .fieldAccess _ _ | .index _ _ | .methodCall _ _ _ => .exprPostfix
  | .recordConstruct _ _ | .recordUpdate _ _ => .recordLit
  | .ifE _ _ _ => .ifExpr
  | .matchE _ _ => .matchExpr
  | .forE _ _ _ => .forExpr
  | .letE _ _ _ => .letChain
  | .block _ => .braced
  | _ => .exprPrimary

/-- The parts of an expression, each with the rule of the grammar that it is parsed by. -/
def places : Expr → List (Rule × Expr)
  | .binOp l op r => [(leftRule op, l), (rightRule op, r)]
  | .unaryOp _ e => [(.exprUnary, e)]
  | .cast e _ => [(.exprCast, e)]
  | .range l r => [(.exprOr, l), (.exprOr, r)]
  | .closure _ body => [(.closureBody, body)]
  | .fieldAccess e _ => [(.exprPostfix, e)]
  | .index e key => [(.exprPostfix, e), (.expr, key)]
  | .methodCall e _ args => (.exprPostfix, e) :: args.map fun a => (.expr, a)
  | .arrayLit es | .macroRef _ es | .fnCall _ es | .tuple es | .enumVariantWithData _ _ es
  | .namespacedCall _ _ es _ | .addressOf _ es _ => es.map fun e => (.expr, e)
  | .someE e => [(.expr, e)]
  | .encode _ e => [(.exprOr, e)]
  | .ifE c t e => (.exprOr, c) :: (.blockBody, t) :: e.toList.map fun e => (.blockBody, e)
  | .letE _ v b => [(.letValue, v), (.afterLetStmt, b)]
  | .recordConstruct _ fields | .recordUpdate _ fields => fields.map fun f => (.expr, f.2)
  | .matchE s arms => (.exprOr, s) :: arms.map fun a => (.armBody, a.2)
  | .forE _ it b => [(.exprRange, it), (.blockBody, b)]
  | .intLiteral _ | .stringLiteral _ | .bytesLiteral _ | .boolLiteral _ | .emptyCollection
  | .ident _ | .temporalRef _ | .msgField _ | .sysField _ | .traceField _ | .traceCall _ _
  | .enumVariant _ _ | .noneE | .block _ => []

/-- What is printed for the expression is something that the rule reads. -/
def Fits (r : Rule) (e : Expr) : Prop := Reaches r (printRule e)

/-- A text that stands between quotes as it is. -/
def Unquoted (raw : String) : Prop := '"' ∉ raw.toList

/-- No part of the namespace takes the `::` behind it for its own. -/
def ScopeFree (ns : String) : Prop :=
  ∀ word ∈ scopeWords, ns ≠ word ∧ ¬ word.toList ++ [':', ':'] <+: ns.toList ∧
    ¬ [':', ':'] ++ word.toList <:+ ns.toList

/-- A pattern of a `match` that is printed as one. -/
def PlainPattern : MatchPattern → Prop
  | .enumVariant enum _ | .enumVariantWithData enum _ _ => enum ∉ scopeWords
  | .intLiteral v => v.hi = 0
  | _ => True

/-- The names and the literals of the node itself are printed as the grammar has them. -/
def Plain : Expr → Prop
  | .stringLiteral s => Unquoted s ∧ parseStringLiteral s = s
  | .bytesLiteral bytes =>
    Unquoted (fromUtf8Lossy bytes) ∧
      parseBytesLiteral (fromUtf8Lossy bytes).toUTF8.data.toList = bytes
  | .fieldAccess _ field => ¬ ['0', 'x'] <+: field.toList
  | .closure params _ => params ≠ []
  | .matchE _ arms => ∀ arm ∈ arms, PlainPattern arm.1
  | .enumVariant enum _ | .enumVariantWithData enum _ _ => enum ∉ scopeWords
  | .namespacedCall ns name _ typeParams =>
    ScopeFree ns ∧ (typeParams ≠ [] → name ∉ scopeWords ∧ Even (closesLast typeParams))
  | .encode ty _ => Even (closes ty)
  | _ => True

/-- So is everything in the expression, and every part fits its place. -/
def Faithful (e : Expr) : Prop :=
  Everywhere (fun s => Plain s ∧ ∀ place ∈ places s, Fits place.1 place.2) e

/-- A part of an expression is a subexpression. -/
theorem mem_children_of_mem_places {e : Expr} {place : Rule × Expr} (h : place ∈ places e) :
    place.2 ∈ e.children := by
  cases e with
  | ifE c t e =>
    cases e <;> simp [places, Expr.children, Expr.parts, unbound] at h ⊢ <;> aesop
  | _ => simp [places, Expr.children, Expr.parts, unbound] at h ⊢ <;> aesop

theorem Faithful.plain {e : Expr} (h : Faithful e) : Plain e := h.root.1

theorem Faithful.part {e : Expr} (h : Faithful e) {place : Rule × Expr} (hp : place ∈ places e) :
    Faithful place.2 ∧ Fits place.1 place.2 :=
  ⟨h.child (mem_children_of_mem_places hp), h.root.2 place hp⟩

/-- What is printed for the expression is read back by its rule. -/
def PrintReads (e : Expr) : Prop :=
  (printRule e ≠ .exprClosure → Begins (fmtExpr e).toList) ∧
    ReadsAs (printRule e) (fmtExpr e).toList (.expr e)

/-- And by every rule that it fits. -/
theorem PrintReads.at_place {r : Rule} {e : Expr} (h : PrintReads e) (hfit : Fits r e) :
    ReadsAs r (fmtExpr e).toList (.expr e) := h.2.reach hfit

/-- A part in a place that no closure fits. -/
theorem PrintReads.begins {r : Rule} {e : Expr} (h : PrintReads e) (hfit : Fits r e)
    (hr : ¬ Reaches r .exprClosure) : Begins (fmtExpr e).toList := by
  apply h.1
  intro heq
  rw [Fits, heq] at hfit
  exact hr hfit

theorem printReads_intro {e : Expr} {text : List Char} {ts : List Tok} {r : Rule}
    (htext : (fmtExpr e).toList = text) (hrule : printRule e = r) (hbegins : Begins text)
    (hlex : LexesAs text ts) (hd : Derives r ts (.expr e)) : PrintReads e := by
  rw [PrintReads, htext, hrule]
  exact ⟨fun _ => hbegins, ts, hlex, hd⟩

/-! ### Lists and names -/

section Texts

variable {a : List Char} {ts : List Tok}

/-- What is printed for the members of a list. -/
theorem reads_members {α : Type} {r : Rule} (f : α → String) (g : α → Val) {xs : List α}
    (h : ∀ x ∈ xs, ReadsAs r (f x).toList (g x)) :
    List.Forall₂ (ReadsAs r) ((xs.map f).map String.toList) (xs.map g) := by
  induction xs with
  | nil => exact .nil
  | cons x xs ih =>
    exact .cons (h x (List.mem_cons_self ..)) (ih fun y hy => h y (List.mem_cons_of_mem _ hy))

theorem reads_joined {α : Type} {r : Rule} (f : α → String) (g : α → Val) {xs : List α}
    (hne : xs ≠ []) (h : ∀ x ∈ xs, ReadsAs r (f x).toList (g x)) :
    ReadsAs (.comma r) (commaJoin (xs.map f)).toList (.list (xs.map g)) := by
  rw [toList_commaJoin]
  exact reads_comma (reads_members f g h) (by simpa using hne)

theorem reads_joinedOrNone {α : Type} {r : Rule} (f : α → String) (g : α → Val) {xs : List α}
    (h : ∀ x ∈ xs, ReadsAs r (f x).toList (g x)) :
    ReadsAs (.commaOrNone r) (commaJoin (xs.map f)).toList (.list (xs.map g)) := by
  rw [toList_commaJoin]
  exact reads_commaOrNone (reads_members f g h)

theorem fmtPatterns_eq_map (ps : List Pattern) : fmtPatterns ps = ps.map fmtPattern := by
  induction ps with
  | nil => rfl
  | cons p ps ih => rw [fmtPatterns, ih, List.map_cons]

theorem fmtExprs_eq_map (es : List Expr) : fmtExprs es = es.map fmtExpr := by
  induction es with
  | nil => rfl
  | cons e es ih => rw [fmtExprs, ih, List.map_cons]

theorem fmtFields_eq_map (fields : List (String × Expr)) :
    fmtFields fields = fields.map fun f => f.1 ++ ": " ++ fmtExpr f.2 := by
  induction fields with
  | nil => rfl
  | cons f fields ih => rw [fmtFields, ih, List.map_cons]

theorem fmtArms_eq_map (arms : List (MatchPattern × Expr)) :
    fmtArms arms = arms.map fun arm => fmtMatchPattern arm.1 ++ " => " ++ fmtExpr arm.2 := by
  induction arms with
  | nil => rfl
  | cons arm arms ih => rw [fmtArms, ih, List.map_cons]

theorem begins_of_name {t : Tok} {name : String} (hlex : t.Lexical)
    (ht : t.identStr = some name) : Begins (name.toList ++ a) := by
  obtain ⟨c, cs, htext, hstart⟩ := begins_name hlex ht
  rw [htext]
  exact begins_of_wordStart hstart

/-- A name with parentheses. -/
theorem lexes_call {t : Tok} {name : String} (hlex : t.Lexical) (ht : t.identStr = some name)
    (h : LexesAs a ts) : LexesAs (name.toList ++ '(' :: (a ++ [')'])) (t :: parens ts) :=
  .name_append hlex ht h.parens (beginsStop_cons (by decide))

/-- A keyword with parentheses. -/
theorem lexes_keywordCall {word : String} (hmem : word ∈ keywords) (h : LexesAs a ts) :
    LexesAs (word.toList ++ '(' :: (a ++ [')'])) (.sym word :: parens ts) :=
  .keyword_append hmem h.parens (beginsStop_cons (by decide))

/-- A word that takes a `::`. -/
theorem LexesAs.scope {word : String} (hword : word ∈ scopeWords) (h : LexesAs a ts) :
    LexesAs (word.toList ++ ':' :: ':' :: a) (.sym (word ++ "::") :: ts) := by
  intro rest us hstops hrest
  have hall := lexes_scope hword (h rest us hstops hrest)
  simpa using hall

end Texts

/-! ### Patterns -/

attribute [local simp] fmtPattern fmtMatchPattern fmtPatterns_eq_map

/-- A pattern that is read back. -/
def PatternReads (p : Pattern) : Prop :=
  Begins (fmtPattern p).toList ∧ ReadsAs .pattern (fmtPattern p).toList (.pat p)

theorem lexes_underscore : LexesAs "_".toList [.sym "_"] := by
  intro rest us hstops hrest
  have hword : IsWord "_" := ⟨'_', [], rfl, rfl, nofun⟩
  exact lexes_word hword hstops.ends (fun hmem => absurd hmem (by decide)) hrest

theorem patternReads_wildcard : PatternReads .wildcard :=
  ⟨begins_cons (by decide), [.sym "_"], lexes_underscore, .wildcardPattern⟩

theorem patternReads_none : PatternReads .none :=
  ⟨begins_cons (by decide), [.sym "none"], .keyword (by decide), .nonePattern⟩

theorem patternReads_ident {t : Tok} {name : String} (hlex : t.Lexical)
    (ht : t.identStr = some name) : PatternReads (.ident name) := by
  refine ⟨?_, [t], .name hlex ht, .identPattern ht⟩
  obtain ⟨c, cs, htext, hstart⟩ := begins_name hlex ht
  rw [fmtPattern, htext]
  exact begins_of_wordStart hstart

theorem patternReads_deref {t : Tok} {name : String} (hlex : t.Lexical)
    (ht : t.identStr = some name) : PatternReads (.deref (.ident name)) := by
  obtain ⟨c, cs, htext, hstart⟩ := begins_name hlex ht
  have hbegins : Begins name.toList := htext ▸ begins_of_wordStart hstart
  have hprint : (fmtPattern (.deref (.ident name))).toList = "*".toList ++ name.toList := by
    rw [fmtPattern, fmtPattern, String.toList_append]
  rw [PatternReads, hprint]
  refine ⟨begins_cons (by decide), [.sym "*", t], ?_, .derefPattern ht⟩
  exact .sym_begins (by decide) (by decide) (by decide) hbegins (.name hlex ht)

theorem patternReads_some {p : Pattern} (h : PatternReads p) : PatternReads (.some p) := by
  obtain ⟨-, ts, hlex, hd⟩ := h
  have hprint : (fmtPattern (.some p)).toList =
      "some".toList ++ '(' :: ((fmtPattern p).toList ++ [')']) := by
    simp
  rw [PatternReads, hprint]
  exact ⟨begins_cons (by decide), .sym "some" :: parens ts, lexes_keywordCall (by decide) hlex,
    .somePattern hd⟩

/-- One pattern in parentheses is that pattern, more of them are a tuple. -/
theorem patternReads_group {ps : List Pattern} (hne : ps ≠ []) (h : ∀ p ∈ ps, PatternReads p) :
    PatternReads (patternGroup ps) := by
  unfold patternGroup
  split
  · next p => exact h p (List.mem_cons_self ..)
  · next hmany =>
    obtain ⟨ts, hlex, hd⟩ := reads_joined fmtPattern .pat hne fun p hp => (h p hp).2
    have hprint : (fmtPattern (.tuple ps)).toList =
        '(' :: ((commaJoin (ps.map fmtPattern)).toList ++ [')']) := by
      simp
    rw [PatternReads, hprint]
    refine ⟨begins_cons (by decide), parens ts, hlex.parens, .groupPattern hd ?_⟩
    unfold patternGroup
    split
    · next p => exact absurd rfl (hmany p)
    · rfl

/-- A pattern of a `match` that is read back. -/
def MatchReads (p : MatchPattern) : Prop :=
  ReadsAs .matchPatternDecl (fmtMatchPattern p).toList (.matchPat p)

theorem matchReads_variantData {t t' : Tok} {enum variant : String} {ps : List Pattern}
    (hlex : t.Lexical) (ht : t.identStr = some enum) (hlex' : t'.Lexical)
    (ht' : t'.identStr = some variant) (hscope : enum ∉ scopeWords)
    (h : ∀ p ∈ ps, PatternReads p) : MatchReads (.enumVariantWithData enum variant ps) := by
  obtain ⟨ts, hlexes, hd⟩ := reads_joinedOrNone fmtPattern .pat fun p hp => (h p hp).2
  have hprint : (fmtMatchPattern (.enumVariantWithData enum variant ps)).toList =
      enum.toList ++ ':' :: ':' ::
        (variant.toList ++ '(' :: ((commaJoin (ps.map fmtPattern)).toList ++ [')'])) := by
    simp
  rw [MatchReads, hprint]
  exact ⟨t :: .sym "::" :: t' :: parens ts,
    .name_colons hlex ht hscope (lexes_call hlex' ht' hlexes), .variantDataPattern ht ht' hd⟩

theorem matchReads_variant {t t' : Tok} {enum variant : String} (hlex : t.Lexical)
    (ht : t.identStr = some enum) (hlex' : t'.Lexical) (ht' : t'.identStr = some variant)
    (hscope : enum ∉ scopeWords) : MatchReads (.enumVariant enum variant) := by
  have hprint : (fmtMatchPattern (.enumVariant enum variant)).toList =
      enum.toList ++ ':' :: ':' :: variant.toList := by
    simp
  rw [MatchReads, hprint]
  exact ⟨[t, .sym "::", t'], .name_colons hlex ht hscope (.name hlex' ht'), .variantPattern ht ht'⟩

theorem matchReads_some {p : Pattern} (h : PatternReads p) : MatchReads (.some p) := by
  obtain ⟨-, ts, hlex, hd⟩ := h
  have hprint : (fmtMatchPattern (.some p)).toList =
      "some".toList ++ '(' :: ((fmtPattern p).toList ++ [')']) := by
    simp
  rw [MatchReads, hprint]
  exact ⟨.sym "some" :: parens ts, lexes_keywordCall (by decide) hlex, .someMatch hd⟩

/-! ### Literals -/

attribute [local simp] fmtExpr

/-- The digits of a number of at most 128 bits. -/
theorem lexes_digits (v : U256) (h : v.hi = 0) :
    ∃ t : Tok, t.intLitVal = some v ∧ LexesAs (Nat.toDigits 10 v.lo.toNat) [t] := by
  obtain ⟨ds, hne, hlt, htext, -⟩ := exists_toDigits (b := 10) (by decide) v.lo.toNat
  refine ⟨.int (Nat.toDigits 10 v.lo.toNat), fromDecimalStr_toDigits v h, ?_⟩
  intro rest us hstops hrest
  refine lexes_int ?_ ?_ hstops.ends hrest
  · rw [htext]
    simpa using hne
  · intro c hc
    rw [htext] at hc
    obtain ⟨d, hd, rfl⟩ := List.mem_map.mp hc
    have hall : ∀ d < 10, (Nat.digitChar d).isDigit = true := by decide
    exact hall d (hlt d hd)

theorem begins_toDigits (n : Nat) : Begins (Nat.toDigits 10 n) := by
  obtain ⟨ds, hne, hlt, htext, -⟩ := exists_toDigits (b := 10) (by decide) n
  obtain ⟨d, ds, rfl⟩ := List.exists_cons_of_ne_nil hne
  have hall : ∀ d < 10, Nat.digitChar d ∉ operatorTails := by decide
  rw [htext]
  exact begins_cons (hall d (hlt d (List.mem_cons_self ..)))

theorem hexChar_u256HexDigits {v : U256} {c : Char} (h : c ∈ u256HexDigits v) :
    hexChar c = true := by
  obtain ⟨hs, hhlt, hhtext, -⟩ := exists_hexLimb v.hi
  obtain ⟨ls, hllt, hltext, -⟩ := exists_hexLimb v.lo
  have hall : ∀ d < 16, hexChar (Nat.digitChar d) = true := by decide
  rw [u256HexDigits, hhtext, hltext, ← List.map_append] at h
  obtain ⟨d, hd, rfl⟩ := List.mem_map.mp h
  rcases List.mem_append.mp hd with hd | hd
  · exact hall d (hhlt d hd)
  · exact hall d (hllt d hd)

/-- **An integer**, whichever way it is printed. -/
theorem printReads_int (v : U256) : PrintReads (.intLiteral v) := by
  by_cases h : v.hi = 0
  · obtain ⟨t, ht, hlex⟩ := lexes_digits v h
    have hprint : (fmtExpr (.intLiteral v)).toList = Nat.toDigits 10 v.lo.toNat := by
      rw [fmtExpr, fmtInt, if_neg (fun hne => hne h), toDisplayDecimal, if_pos h,
        Option.getD_some, String.toList_ofList]
    exact printReads_intro hprint rfl (begins_toDigits _) hlex (.intLit ht)
  · have hprint : (fmtExpr (.intLiteral v)).toList = '0' :: 'x' :: u256HexDigits v := by
      rw [fmtExpr, fmtInt, if_pos h]
      simp
    have hne : u256HexDigits v ≠ [] := by
      obtain ⟨hs, -, hhtext, hhlen, -⟩ := exists_hexLimb v.hi
      rw [u256HexDigits, hhtext]
      intro hnil
      rw [List.append_eq_nil_iff, List.map_eq_nil_iff] at hnil
      rw [hnil.1] at hhlen
      cases hhlen
    have hd : Derives .exprPrimary [.hex ('0' :: 'x' :: u256HexDigits v)]
        (.expr (.intLiteral v)) := .hexLit (fromHexDigits_u256HexDigits v)
    exact printReads_intro hprint rfl (begins_cons (by decide))
      (fun rest us hstops hrest =>
        lexes_hex hne (fun c hc => hexChar_u256HexDigits hc) hstops.ends hrest) hd

theorem matchReads_int {v : U256} (h : v.hi = 0) : MatchReads (.intLiteral v) := by
  obtain ⟨t, ht, hlex⟩ := lexes_digits v h
  have hprint : (fmtMatchPattern (.intLiteral v)).toList = Nat.toDigits 10 v.lo.toNat := by
    rw [fmtMatchPattern, display, if_pos h, String.toList_ofList]
  rw [MatchReads, hprint]
  exact ⟨[t], hlex, .intMatch ht⟩

theorem printReads_string {s : String} (hraw : Unquoted s) (hs : parseStringLiteral s = s) :
    PrintReads (.stringLiteral s) := by
  have hprint : (fmtExpr (.stringLiteral s)).toList = '"' :: (s.toList ++ ['"']) := by
    simp
  have hd : Derives .exprPrimary [.str s] (.expr (.stringLiteral (parseStringLiteral s))) := .strLit
  rw [hs] at hd
  refine printReads_intro hprint rfl (begins_cons (by decide)) ?_ hd
  intro rest us _ hrest
  have hall := lexes_str hraw hrest
  simpa using hall

theorem printReads_bytes {bytes : List UInt8} (hraw : Unquoted (fromUtf8Lossy bytes))
    (hbytes : parseBytesLiteral (fromUtf8Lossy bytes).toUTF8.data.toList = bytes) :
    PrintReads (.bytesLiteral bytes) := by
  have hprint : (fmtExpr (.bytesLiteral bytes)).toList =
      'b' :: '"' :: ((fromUtf8Lossy bytes).toList ++ ['"']) := by
    simp
  have hd : Derives .exprPrimary [.bytes (fromUtf8Lossy bytes)] (.expr (.bytesLiteral
      (parseBytesLiteral (fromUtf8Lossy bytes).toUTF8.data.toList))) := .bytesLit
  rw [hbytes] at hd
  refine printReads_intro hprint rfl (begins_cons (by decide)) ?_ hd
  intro rest us _ hrest
  have hall := lexes_bytes hraw hrest
  simpa using hall

end CambrianLang.Syntax
