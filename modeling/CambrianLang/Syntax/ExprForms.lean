/-
  **Every form of expression is read back** when its parts are read in their places and its
  own names and literals are printed as the grammar has them.
-/
import CambrianLang.Syntax.ExprText

namespace CambrianLang.Syntax

open Ast CambrianLang.Core

attribute [local simp] fmtExpr fmtExprs_eq_map fmtFields_eq_map fmtArms_eq_map fmtPatterns_eq_map

/-- The arguments of a call. -/
def ArgsRead (args : List Expr) : Prop :=
  ∀ a ∈ args, ReadsAs .expr (fmtExpr a).toList (.expr a)

theorem ArgsRead.joined {args : List Expr} (h : ArgsRead args) :
    ReadsAs (.commaOrNone .expr) (commaJoin (args.map fmtExpr)).toList
      (.list (args.map .expr)) := reads_joinedOrNone fmtExpr .expr h

/-- A `.` in front of a text. -/
theorem LexesAs.dot {c : Char} {cs : List Char} {ts : List Tok} (hc : c ≠ '.')
    (h : LexesAs (c :: cs) ts) : LexesAs ('.' :: c :: cs) (.sym "." :: ts) := by
  intro rest us hstops hrest
  refine lexes_sym (s := ".") (by decide) (clear_cons ?_ (by decide)) (h rest us hstops hrest)
  have hext : extensions "." ⊆ ['.'] := by decide
  exact fun hmem => hc (List.mem_singleton.mp (hext hmem))

/-! ### Names -/

section Names

variable {t t' : Tok} {name name' : String} (hlex : t.Lexical) (ht : t.identStr = some name)
  (hlex' : t'.Lexical) (ht' : t'.identStr = some name')

include hlex ht

theorem printReads_ident : PrintReads (.ident name) := by
  have hprint : (fmtExpr (.ident name)).toList = name.toList ++ [] := by
    simp
  refine printReads_intro hprint rfl (begins_of_name hlex ht) ?_ (.ident ht)
  rw [List.append_nil]
  exact .name hlex ht

theorem printReads_temporalRef : PrintReads (.temporalRef name) := by
  have hprint : (fmtExpr (.temporalRef name)).toList = "^".toList ++ name.toList := by
    rw [fmtExpr, String.toList_append]
  exact printReads_intro hprint rfl (begins_cons (by decide))
    (.sym_append (by decide) (by decide) (by decide) (.name hlex ht)) (.temporalRef ht)

theorem printReads_macroRef {args : List Expr} (h : ArgsRead args) :
    PrintReads (.macroRef name args) := by
  obtain ⟨ts, hargs, hd⟩ := h.joined
  have hprint : (fmtExpr (.macroRef name args)).toList =
      "@".toList ++ (name.toList ++ '(' :: ((commaJoin (args.map fmtExpr)).toList ++ [')'])) := by
    simp
  exact printReads_intro hprint rfl (begins_cons (by decide))
    (.sym_append (by decide) (by decide) (by decide) (lexes_call hlex ht hargs)) (.macroRef ht hd)

theorem printReads_fnCall {args : List Expr} (h : ArgsRead args) :
    PrintReads (.fnCall name args) := by
  obtain ⟨ts, hargs, hd⟩ := h.joined
  have hprint : (fmtExpr (.fnCall name args)).toList =
      name.toList ++ '(' :: ((commaJoin (args.map fmtExpr)).toList ++ [')']) := by
    simp
  exact printReads_intro hprint rfl (begins_of_name hlex ht) (lexes_call hlex ht hargs)
    (.fnCall ht hd)

theorem printReads_addressOf {args : List Expr} (h : ArgsRead args) :
    PrintReads (.addressOf name args []) := by
  obtain ⟨ts, hargs, hd⟩ := h.joined
  have hprint : (fmtExpr (.addressOf name args [])).toList = "address_of".toList ++
      ' ' :: (name.toList ++ '(' :: ((commaJoin (args.map fmtExpr)).toList ++ [')'])) := by
    simp
  exact printReads_intro hprint rfl (begins_cons (by decide))
    (.keyword_append (by decide) (.blank (lexes_call hlex ht hargs)) (beginsStop_cons (by decide)))
    (.addressOf ht hd)

/-- A name behind a word that takes the `::`. -/
theorem printReads_scope {word : String} {e : Expr} (hword : word ∈ scopeWords)
    (hprint : (fmtExpr e).toList = word.toList ++ ':' :: ':' :: name.toList)
    (hrule : printRule e = .exprPrimary)
    (hd : Derives .exprPrimary [.sym (word ++ "::"), t] (.expr e)) : PrintReads e := by
  have hall : ∀ word ∈ scopeWords, ∃ c cs, word.toList = c :: cs ∧
      c ∉ operatorTails := by
    intro word hmem
    simp only [scopeWords, List.mem_cons, List.not_mem_nil, or_false] at hmem
    rcases hmem with rfl | rfl | rfl <;> exact ⟨_, _, rfl, by decide⟩
  have hbegins : Begins word.toList := hall word hword
  exact printReads_intro hprint hrule (hbegins.append _) (.scope hword (.name hlex ht)) hd

theorem printReads_msgField : PrintReads (.msgField name) :=
  printReads_scope hlex ht (show "msg" ∈ scopeWords by decide) (by simp) rfl
    (.msgField ht)

theorem printReads_sysField : PrintReads (.sysField name) :=
  printReads_scope hlex ht (show "sys" ∈ scopeWords by decide) (by simp) rfl
    (.sysField ht)

theorem printReads_traceField : PrintReads (.traceField name) :=
  printReads_scope hlex ht (show "trace" ∈ scopeWords by decide) (by simp) rfl
    (.traceField ht)

theorem printReads_cast {e : Expr} (h : ReadsAs .exprCast (fmtExpr e).toList (.expr e))
    (hbegins : Begins (fmtExpr e).toList) : PrintReads (.cast e (.simple name)) := by
  obtain ⟨ts, hbase, hd⟩ := h
  have hprint : (fmtExpr (.cast e (.simple name))).toList =
      (fmtExpr e).toList ++ ' ' :: ("as".toList ++ ' ' :: name.toList) := by
    simp [fmtType]
  have has : LexesAs (' ' :: ("as".toList ++ ' ' :: name.toList)) [.sym "as", t] :=
    .blank (.keyword_append (by decide) (.blank (.name hlex ht)) (beginsStop_cons (by decide)))
  exact printReads_intro hprint rfl (hbegins.append _)
    (hbase.append has (beginsStop_cons (by decide))) (.cast hd ht)

theorem lexes_dotName : LexesAs ('.' :: name.toList) [.sym ".", t] := by
  have hname : LexesAs name.toList [t] := .name hlex ht
  obtain ⟨c, cs, htext, hstart⟩ := begins_name hlex ht
  rw [htext] at hname ⊢
  refine hname.dot ?_
  rintro rfl
  cases hstart

theorem printReads_fieldAccess {e : Expr} (h : ReadsAs .exprPostfix (fmtExpr e).toList (.expr e))
    (hbegins : Begins (fmtExpr e).toList) : PrintReads (.fieldAccess e name) := by
  obtain ⟨ts, hbase, hd⟩ := h
  have hprint : (fmtExpr (.fieldAccess e name)).toList =
      (fmtExpr e).toList ++ '.' :: name.toList := by
    simp
  exact printReads_intro hprint rfl (hbegins.append _)
    (hbase.append (lexes_dotName hlex ht) (beginsStop_cons (by decide))) (.fieldAccess hd ht)

theorem printReads_methodCall {e : Expr} {args : List Expr}
    (h : ReadsAs .exprPostfix (fmtExpr e).toList (.expr e)) (hbegins : Begins (fmtExpr e).toList)
    (hargs : ArgsRead args) : PrintReads (.methodCall e name args) := by
  obtain ⟨ts, hbase, hd⟩ := h
  obtain ⟨us, hjoined, hds⟩ := hargs.joined
  have hprint : (fmtExpr (.methodCall e name args)).toList = (fmtExpr e).toList ++
      ('.' :: name.toList ++ '(' :: ((commaJoin (args.map fmtExpr)).toList ++ [')'])) := by
    simp
  have hcall := (lexes_dotName hlex ht).append hjoined.parens (beginsStop_cons (by decide))
  exact printReads_intro hprint rfl (hbegins.append _)
    (hbase.append hcall (beginsStop_cons (by decide))) (.methodCall hd ht hds)

/-- The two ways to write a record make the same text. -/
theorem printReads_record {e : Expr} {fields : List (String × Expr)} (hne : fields ≠ [])
    (he : recordLit name fields = e)
    (h : ∀ f ∈ fields, ReadsAs .recordFieldInit (f.1 ++ ": " ++ fmtExpr f.2).toList
      (.field f.1 f.2)) : PrintReads e := by
  obtain ⟨ts, hjoined, hd⟩ := reads_joined _ (fun f : String × Expr => Val.field f.1 f.2) hne h
  have hprint : (fmtExpr e).toList = name.toList ++ ' ' :: ('{' :: ' ' ::
      ((commaJoin (fields.map fun f => f.1 ++ ": " ++ fmtExpr f.2)).toList ++ [' ', '}'])) := by
    rw [← he, recordLit]
    split <;> simp
  have hrule : printRule e = .recordLit := by
    rw [← he, recordLit]
    split <;> rfl
  exact printReads_intro hprint hrule (begins_of_name hlex ht)
    (.name_append hlex ht (.blank hjoined.braces) (beginsStop_cons (by decide))) (.record ht hd he)

theorem reads_field {e : Expr} (h : ReadsAs .expr (fmtExpr e).toList (.expr e)) :
    ReadsAs .recordFieldInit (name ++ ": " ++ fmtExpr e).toList (.field name e) := by
  obtain ⟨ts, hvalue, hd⟩ := h
  have hprint : (name ++ ": " ++ fmtExpr e).toList =
      name.toList ++ ':' :: ' ' :: (fmtExpr e).toList := by
    simp
  refine ⟨t :: .sym ":" :: ts, ?_, .fieldInit ht hd⟩
  rw [hprint]
  intro rest us hstops hrest
  have hcolon := LexesAs.sym_blank (s := ":") (by decide) (by decide) hvalue rest us hstops hrest
  rw [List.append_assoc]
  refine lexes_name hlex ht ?_ ?_ hcolon
  · intro c hc
    cases hc
    decide
  · rintro - ⟨more, hmore⟩
    cases hmore

include hlex' ht'

theorem printReads_traceCall : PrintReads (.traceCall name name') := by
  have hprint : (fmtExpr (.traceCall name name')).toList =
      "trace".toList ++ ':' :: ':' :: (name.toList ++ '(' :: (name'.toList ++ [')'])) := by
    simp
  exact printReads_intro hprint rfl (begins_cons (by decide))
    (.scope (by decide) (lexes_call hlex ht (.name hlex' ht'))) (.traceCall ht ht')

theorem printReads_enumVariant (hscope : name ∉ scopeWords) :
    PrintReads (.enumVariant name name') := by
  have hprint : (fmtExpr (.enumVariant name name')).toList =
      name.toList ++ ':' :: ':' :: name'.toList := by
    simp
  exact printReads_intro hprint rfl (begins_of_name hlex ht)
    (.name_colons hlex ht hscope (.name hlex' ht')) (.enumVariant ht ht')

theorem printReads_enumVariantWithData {args : List Expr} (hscope : name ∉ scopeWords)
    (h : ArgsRead args) : PrintReads (.enumVariantWithData name name' args) := by
  obtain ⟨ts, hargs, hd⟩ := h.joined
  have hprint : (fmtExpr (.enumVariantWithData name name' args)).toList = name.toList ++
      ':' :: ':' :: (name'.toList ++ '(' :: ((commaJoin (args.map fmtExpr)).toList ++ [')'])) := by
    simp
  exact printReads_intro hprint rfl (begins_of_name hlex ht)
    (.name_colons hlex ht hscope (lexes_call hlex' ht' hargs)) (.enumVariantWithData ht ht' hd)

theorem printReads_stdCall {t'' : Tok} {name'' : String} {args : List Expr} (hlex'' : t''.Lexical)
    (ht'' : t''.identStr = some name'') (hscope : name ∉ scopeWords) (hscope' : name' ∉ scopeWords)
    (h : ArgsRead args) : PrintReads (.namespacedCall (name ++ "::" ++ name') name'' args []) := by
  obtain ⟨ts, hargs, hd⟩ := h.joined
  have hprint : (fmtExpr (.namespacedCall (name ++ "::" ++ name') name'' args [])).toList =
      name.toList ++ ':' :: ':' :: (name'.toList ++ ':' :: ':' ::
        (name''.toList ++ '(' :: ((commaJoin (args.map fmtExpr)).toList ++ [')']))) := by
    simp
  exact printReads_intro hprint rfl (begins_of_name hlex ht)
    (.name_colons hlex ht hscope
      (.name_colons hlex' ht' hscope' (lexes_call hlex'' ht'' hargs)))
    (.stdCall ht ht' ht'' hd)

end Names

/-! ### Keywords and brackets -/

theorem printReads_bool (b : Bool) : PrintReads (.boolLiteral b) := by
  have hprint : (fmtExpr (.boolLiteral b)).toList = (if b then "true" else "false").toList := by
    rw [fmtExpr]
  cases b with
  | true =>
    exact printReads_intro hprint rfl (begins_cons (by decide)) (.keyword (by decide)) .trueLit
  | false =>
    exact printReads_intro hprint rfl (begins_cons (by decide)) (.keyword (by decide)) .falseLit

theorem printReads_noneE : PrintReads .noneE := by
  have hprint : (fmtExpr .noneE).toList = "none".toList := rfl
  exact printReads_intro hprint rfl (begins_cons (by decide)) (.keyword (by decide)) .noneE

theorem printReads_emptyCollection : PrintReads .emptyCollection := by
  have hprint : (fmtExpr .emptyCollection).toList = "\x7b".toList ++ "\x7d".toList := rfl
  exact printReads_intro hprint rfl (begins_cons (by decide))
    (.sym_append (by decide) (by decide) (by decide) (.sym (by decide) (by decide) (by decide)))
    .emptyCollection

theorem printReads_arrayLit {es : List Expr} (h : ArgsRead es) : PrintReads (.arrayLit es) := by
  obtain ⟨ts, hargs, hd⟩ := h.joined
  have hprint : (fmtExpr (.arrayLit es)).toList =
      "array".toList ++ '(' :: ((commaJoin (es.map fmtExpr)).toList ++ [')']) := by
    simp
  exact printReads_intro hprint rfl (begins_cons (by decide)) (lexes_keywordCall (by decide) hargs)
    (.arrayLit hd)

theorem printReads_someE {e : Expr} (h : ReadsAs .expr (fmtExpr e).toList (.expr e)) :
    PrintReads (.someE e) := by
  obtain ⟨ts, hlex, hd⟩ := h
  have hprint : (fmtExpr (.someE e)).toList =
      "some".toList ++ '(' :: ((fmtExpr e).toList ++ [')']) := by
    simp
  exact printReads_intro hprint rfl (begins_cons (by decide)) (lexes_keywordCall (by decide) hlex)
    (.someE hd)

theorem printReads_tuple {first : Expr} {more : List Expr} (hne : more ≠ [])
    (h : ArgsRead (first :: more)) : PrintReads (.tuple (first :: more)) := by
  obtain ⟨ts, hfirst, hd⟩ := h first (List.mem_cons_self ..)
  obtain ⟨us, hmore, hds⟩ := reads_joined fmtExpr .expr hne fun e he =>
    h e (List.mem_cons_of_mem _ he)
  obtain ⟨e, es, rfl⟩ := List.exists_cons_of_ne_nil hne
  have hprint : (fmtExpr (.tuple (first :: e :: es))).toList = '(' :: ((fmtExpr first).toList ++
      (",".toList ++ ' ' :: (commaJoin ((e :: es).map fmtExpr)).toList) ++ [')']) := by
    simp only [fmtExpr, fmtExprs_eq_map, String.toList_append, toList_commaJoin, List.map_cons,
      intercalate_cons_cons]
    simp
  have hinner : LexesAs ((fmtExpr first).toList ++
      (",".toList ++ ' ' :: (commaJoin ((e :: es).map fmtExpr)).toList)) (ts ++ .sym "," :: us) :=
    hfirst.append (.sym_blank (by decide) (by decide) hmore) (beginsStop_cons (by decide))
  exact printReads_intro hprint rfl (begins_cons (by decide)) hinner.parens (.tuple hd hds)

/-! ### Operators -/

/-- The rules of the operators are all below that of an expression. -/
theorem reaches_leftRule (op : BinOp) : Reaches .expr (leftRule op) := by
  cases op <;> exact reaches_of_mem (n := 16) (by decide)

/-- **An operator with two operands**, in its parentheses. -/
theorem printReads_binOp {l r : Expr} {op : BinOp}
    (hl : ReadsAs (leftRule op) (fmtExpr l).toList (.expr l))
    (hr : ReadsAs (rightRule op) (fmtExpr r).toList (.expr r)) : PrintReads (.binOp l op r) := by
  obtain ⟨ts, hleft, hdl⟩ := hl
  obtain ⟨us, hright, hdr⟩ := hr
  have hop : binOpText op ∈ symbols ∧ ' ' ∉ extensions (binOpText op) := by
    cases op <;> decide
  have hprint : (fmtExpr (.binOp l op r)).toList = '(' :: ((fmtExpr l).toList ++
      ' ' :: ((binOpText op).toList ++ ' ' :: (fmtExpr r).toList) ++ [')']) := by
    simp
  have hinner := hleft.append (.blank (.sym_blank hop.1 hop.2 hright)) (beginsStop_cons (by decide))
  exact printReads_intro hprint rfl (begins_cons (by decide)) hinner.parens
    (.paren (.reach (reaches_leftRule op) (.binOp rfl hdl hdr)))

theorem printReads_unaryOp {op : UnaryOp} {e : Expr}
    (h : ReadsAs .exprUnary (fmtExpr e).toList (.expr e)) (hbegins : Begins (fmtExpr e).toList) :
    PrintReads (.unaryOp op e) := by
  obtain ⟨ts, hlex, hd⟩ := h
  have hop : unaryOpText op ∈ symbols ∧
      extensions (unaryOpText op) ⊆ operatorTails ∧
      unaryOpText op ≠ "/" ∧ Begins (unaryOpText op).toList := by
    cases op <;> exact ⟨by decide, by decide, by decide, begins_cons (by decide)⟩
  have hprint : (fmtExpr (.unaryOp op e)).toList =
      (unaryOpText op).toList ++ (fmtExpr e).toList := by
    rw [fmtExpr, String.toList_append]
  exact printReads_intro hprint rfl (hop.2.2.2.append _)
    (.sym_begins hop.1 hop.2.1 hop.2.2.1 hbegins hlex) (.unaryOp hd)

theorem printReads_range {l r : Expr} (hl : ReadsAs .exprOr (fmtExpr l).toList (.expr l))
    (hbegins : Begins (fmtExpr l).toList) (hr : ReadsAs .exprOr (fmtExpr r).toList (.expr r))
    (hbegins' : Begins (fmtExpr r).toList) : PrintReads (.range l r) := by
  obtain ⟨ts, hleft, hdl⟩ := hl
  obtain ⟨us, hright, hdr⟩ := hr
  have hprint : (fmtExpr (.range l r)).toList =
      (fmtExpr l).toList ++ (".." ++ fmtExpr r).toList := by
    simp
  have hdots : LexesAs (".." ++ fmtExpr r).toList (.sym ".." :: us) := by
    rw [String.toList_append]
    exact .sym_begins (by decide) (by decide) (by decide) hbegins' hright
  refine printReads_intro hprint rfl (hbegins.append _) (hleft.append hdots ?_) (.range hdl hdr)
  rw [String.toList_append]
  exact beginsStop_cons (by decide)

/-- A field by its number. -/
theorem printReads_tupleField {e : Expr} {v : U256} (hv : v.hi = 0)
    (h : ReadsAs .exprPostfix (fmtExpr e).toList (.expr e)) (hbegins : Begins (fmtExpr e).toList) :
    PrintReads (.fieldAccess e (String.ofList (display v))) := by
  obtain ⟨ts, hbase, hd⟩ := h
  obtain ⟨t, ht, hlex⟩ := lexes_digits v hv
  obtain ⟨ds, hne, hlt, htext, -⟩ := exists_toDigits (b := 10) (by decide) v.lo.toNat
  obtain ⟨d, ds, rfl⟩ := List.exists_cons_of_ne_nil hne
  have hprint : (fmtExpr (.fieldAccess e (String.ofList (display v)))).toList =
      (fmtExpr e).toList ++ '.' :: Nat.toDigits 10 v.lo.toNat := by
    rw [display, if_pos hv]
    simp
  have hdot : LexesAs ('.' :: Nat.toDigits 10 v.lo.toNat) [.sym ".", t] := by
    have hall : ∀ d < 10, Nat.digitChar d ≠ '.' := by decide
    rw [htext] at hlex ⊢
    exact hlex.dot (hall d (hlt d (List.mem_cons_self ..)))
  exact printReads_intro hprint rfl (hbegins.append _)
    (hbase.append hdot (beginsStop_cons (by decide))) (.tupleField hd ht)

theorem printReads_index {e key : Expr} (h : ReadsAs .exprPostfix (fmtExpr e).toList (.expr e))
    (hbegins : Begins (fmtExpr e).toList)
    (hkey : ReadsAs .expr (fmtExpr key).toList (.expr key)) : PrintReads (.index e key) := by
  obtain ⟨ts, hbase, hd⟩ := h
  obtain ⟨us, hinner, hdk⟩ := hkey
  have hprint : (fmtExpr (.index e key)).toList =
      (fmtExpr e).toList ++ ("[".toList ++ ((fmtExpr key).toList ++ "]".toList)) := by
    simp
  have hclose : LexesAs "]".toList [.sym "]"] := .sym (by decide) (by decide) (by decide)
  have hbrackets := hinner.append hclose (beginsStop_cons (by decide))
  refine printReads_intro hprint rfl (hbegins.append _)
    (hbase.append (.sym_append (by decide) (by decide) (by decide) hbrackets)
      (beginsStop_cons (by decide))) ?_
  rw [← List.cons_append, ← List.append_assoc]
  exact .index hd hdk

/-! ### Types in angle brackets -/

/-- The end of an even number of `>` and one more. -/
theorem closers_succ {k : Nat} (h : Even k) : closers (k + 1) = closers k ++ [.sym ">"] := by
  obtain ⟨m, rfl⟩ := h
  rw [← Nat.two_mul]
  exact closers_even m

theorem printReads_encode {ty : Ty} {e : Expr} (hty : TypeReads ty) (heven : Even (closes ty))
    (h : ReadsAs .exprOr (fmtExpr e).toList (.expr e)) : PrintReads (.encode ty e) := by
  obtain ⟨hbegins, os, hopen, hdt, -⟩ := hty
  obtain ⟨ts, hlex, hd⟩ := h
  have hprint : (fmtExpr (.encode ty e)).toList = "cam_encode".toList ++
      '<' :: ((fmtType ty).toList ++ '>' :: '(' :: ((fmtExpr e).toList ++ [')'])) := by
    simp
  refine printReads_intro hprint rfl (begins_cons (by decide)) ?_ (.encode hdt hd)
  intro rest us hstops hrest
  have hparens := hlex.parens rest us hstops hrest
  have htype := hopen 1 _ _ (closed_cons (by decide) (by decide)) hparens
  have hall := lexes_keyword (show "cam_encode" ∈ keywords by decide) (stops_cons (by decide)).ends
    (lexes_angle hbegins htype)
  rw [closers_succ heven] at hall
  simpa using hall

/-- A call with type arguments. -/
theorem printReads_turbofish {t t' : Tok} {ns name : String} {tps : List Ty} {args : List Expr}
    (hlex : t.Lexical) (ht : t.identStr = some ns) (hlex' : t'.Lexical)
    (ht' : t'.identStr = some name) (hscope : ns ∉ scopeWords) (hscope' : name ∉ scopeWords)
    (hne : tps ≠ []) (htypes : ∀ p ∈ tps, TypeReads p) (heven : Even (closesLast tps))
    (h : ArgsRead args) : PrintReads (.namespacedCall ns name args tps) := by
  obtain ⟨init, last, is, ls, hsplit, heach, hlast, -, hbegins, hopen⟩ := typesRead hne htypes
  obtain ⟨ts, hargs, hd⟩ := h.joined
  have hcomma : Derives (.comma .type) (is ++ (ls ++ closers (closes last)))
      (.list (tps.map .ty)) := by
    rw [hsplit, List.map_append, List.map_singleton]
    exact .commaLast heach hlast
  have hempty : tps.isEmpty = false := by
    simpa using hne
  have hprint : (fmtExpr (.namespacedCall ns name args tps)).toList =
      ns.toList ++ ':' :: ':' :: (name.toList ++ ':' :: ':' :: '<' ::
        ((commaJoin (fmtTypes tps)).toList ++
          '>' :: '(' :: ((commaJoin (args.map fmtExpr)).toList ++ [')']))) := by
    rw [fmtExpr, hempty]
    simp
  have hbehind : LexesAs ('<' :: ((commaJoin (fmtTypes tps)).toList ++
      '>' :: '(' :: ((commaJoin (args.map fmtExpr)).toList ++ [')'])))
      (.sym "<" :: (is ++ (ls ++ closers (closes last))) ++ .sym ">" :: parens ts) := by
    intro rest us hstops hrest
    have hparens := hargs.parens rest us hstops hrest
    have htypes := hopen 1 _ _ (closed_cons (by decide) (by decide)) hparens
    have hall := lexes_angle hbegins htypes
    rw [hsplit, closesLast_append] at heven
    rw [closers_succ heven] at hall
    simpa using hall
  have hall := LexesAs.name_colons hlex ht hscope (.name_colons hlex' ht' hscope' hbehind)
  refine printReads_intro hprint rfl (begins_of_name hlex ht) hall ?_
  simpa [printRule] using Derives.turbofish ht ht' hcomma hd

/-! ### Branches and bindings -/

theorem printReads_ifThen {c e : Expr} (hc : ReadsAs .exprOr (fmtExpr c).toList (.expr c))
    (h : ReadsAs .blockBody (fmtExpr e).toList (.expr e)) : PrintReads (.ifE c e none) := by
  obtain ⟨ts, hcond, hdc⟩ := hc
  obtain ⟨us, hthen, hdt⟩ := h
  have hprint : (fmtExpr (.ifE c e none)).toList = "if".toList ++ ' ' ::
      ((fmtExpr c).toList ++ ' ' :: '{' :: ' ' :: ((fmtExpr e).toList ++ [' ', '}'])) := by
    simp
  have hinner := hcond.append hthen.braces.blank (beginsStop_cons (by decide))
  exact printReads_intro hprint rfl (begins_cons (by decide))
    (.keyword_append (by decide) hinner.blank (beginsStop_cons (by decide))) (.ifThen hdc hdt)

theorem printReads_ifElse {c e e' : Expr} (hc : ReadsAs .exprOr (fmtExpr c).toList (.expr c))
    (h : ReadsAs .blockBody (fmtExpr e).toList (.expr e))
    (h' : ReadsAs .blockBody (fmtExpr e').toList (.expr e')) : PrintReads (.ifE c e (some e')) := by
  obtain ⟨ts, hcond, hdc⟩ := hc
  obtain ⟨us, hthen, hdt⟩ := h
  obtain ⟨ws, helse, hde⟩ := h'
  have hprint : (fmtExpr (.ifE c e (some e'))).toList = "if".toList ++ ' ' ::
      ((fmtExpr c).toList ++ ((' ' :: '{' :: ' ' :: ((fmtExpr e).toList ++ [' ', '}'])) ++
        ' ' :: ("else".toList ++ ' ' :: '{' :: ' ' :: ((fmtExpr e').toList ++ [' ', '}'])))) := by
    simp
  have htail : LexesAs ("else".toList ++
      ' ' :: '{' :: ' ' :: ((fmtExpr e').toList ++ [' ', '}'])) (.sym "else" :: braces ws) :=
    .keyword_append (by decide) helse.braces.blank (beginsStop_cons (by decide))
  have hinner := hcond.append (hthen.braces.blank.append htail.blank (beginsStop_cons (by decide)))
    (beginsStop_cons (by decide))
  refine printReads_intro hprint rfl (begins_cons (by decide))
    (.keyword_append (by decide) hinner.blank (beginsStop_cons (by decide))) ?_
  simpa [printRule] using Derives.ifElse hdc hdt hde

theorem printReads_letE {p : Pattern} {v b : Expr} (hp : PatternReads p)
    (hv : ReadsAs .letValue (fmtExpr v).toList (.expr v))
    (hb : ReadsAs .afterLetStmt (fmtExpr b).toList (.expr b)) : PrintReads (.letE p v b) := by
  obtain ⟨-, ts, hpat, hdp⟩ := hp
  obtain ⟨us, hvalue, hdv⟩ := hv
  obtain ⟨ws, hbody, hdb⟩ := hb
  have hprint : (fmtExpr (.letE p v b)).toList = "let".toList ++ ' ' :: ((fmtPattern p).toList ++
      ' ' :: ("=".toList ++ ' ' :: ((fmtExpr v).toList ++
        (";".toList ++ ' ' :: (fmtExpr b).toList)))) := by
    simp
  have hsemi : LexesAs (";".toList ++ ' ' :: (fmtExpr b).toList) (.sym ";" :: ws) :=
    .sym_blank (by decide) (by decide) hbody
  have hequals : LexesAs ("=".toList ++ ' ' :: ((fmtExpr v).toList ++
      (";".toList ++ ' ' :: (fmtExpr b).toList))) (.sym "=" :: (us ++ .sym ";" :: ws)) :=
    .sym_blank (by decide) (by decide) (hvalue.append hsemi (beginsStop_cons (by decide)))
  have hinner := hpat.append hequals.blank (beginsStop_cons (by decide))
  refine printReads_intro hprint rfl (begins_cons (by decide))
    (.keyword_append (by decide) hinner.blank (beginsStop_cons (by decide))) ?_
  simpa [printRule] using Derives.letChain (.letStmt hdp hdv) hdb

theorem printReads_closure {ps : List Pattern} {body : Expr} (hne : ps ≠ [])
    (hps : ∀ p ∈ ps, PatternReads p)
    (h : ReadsAs .closureBody (fmtExpr body).toList (.expr body)) :
    PrintReads (.closure ps body) := by
  obtain ⟨ts, hjoined, hdp⟩ := reads_joined fmtPattern .pat hne fun p hp => (hps p hp).2
  obtain ⟨us, hbody, hd⟩ := h
  have hprint : (fmtExpr (.closure ps body)).toList = "|".toList ++
      ((commaJoin (ps.map fmtPattern)).toList ++ ("|".toList ++ ' ' :: (fmtExpr body).toList)) := by
    simp
  have hbegins : Begins (commaJoin (ps.map fmtPattern)).toList := by
    obtain ⟨p, ps, rfl⟩ := List.exists_cons_of_ne_nil hne
    have hfirst : Begins (fmtPattern p).toList := (hps p (List.mem_cons_self ..)).1
    rw [toList_commaJoin]
    cases ps with
    | nil => simpa [List.intercalate] using hfirst
    | cons p' ps =>
      rw [List.map_cons, List.map_cons, List.map_cons, List.map_cons, intercalate_cons_cons]
      exact hfirst.append _
  have hbar : LexesAs ("|".toList ++ ' ' :: (fmtExpr body).toList) (.sym "|" :: us) :=
    .sym_blank (by decide) (by decide) hbody
  have hinner := hjoined.append hbar (beginsStop_cons (by decide))
  rw [PrintReads, hprint]
  refine ⟨fun hrule => absurd rfl hrule, _,
    .sym_begins (by decide) (by decide) (by decide) (hbegins.append _) hinner, ?_⟩
  exact .closure (.alt (List.mem_cons_self ..) hdp) hd

theorem reads_arm {p : MatchPattern} {e : Expr} (hp : MatchReads p)
    (h : ReadsAs .armBody (fmtExpr e).toList (.expr e)) :
    ReadsAs .matchArmDecl (fmtMatchPattern p ++ " => " ++ fmtExpr e).toList (.arm p e) := by
  obtain ⟨ts, hpat, hdp⟩ := hp
  obtain ⟨us, hbody, hd⟩ := h
  have hprint : (fmtMatchPattern p ++ " => " ++ fmtExpr e).toList =
      (fmtMatchPattern p).toList ++ ' ' :: ("=>".toList ++ ' ' :: (fmtExpr e).toList) := by
    simp
  have harrow : LexesAs ("=>".toList ++ ' ' :: (fmtExpr e).toList) (.sym "=>" :: us) :=
    .sym_blank (by decide) (by decide) hbody
  rw [hprint]
  exact ⟨ts ++ .sym "=>" :: us, hpat.append harrow.blank (beginsStop_cons (by decide)),
    .arm hdp hd⟩

theorem printReads_matchE {s : Expr} {arms : List (MatchPattern × Expr)} (hne : arms ≠ [])
    (hs : ReadsAs .exprOr (fmtExpr s).toList (.expr s))
    (h : ∀ a ∈ arms, ReadsAs .matchArmDecl (fmtMatchPattern a.1 ++ " => " ++ fmtExpr a.2).toList
      (.arm a.1 a.2)) : PrintReads (.matchE s arms) := by
  obtain ⟨ts, hsubject, hds⟩ := hs
  obtain ⟨us, hjoined, hd⟩ :=
    reads_joined _ (fun a : MatchPattern × Expr => Val.arm a.1 a.2) hne h
  have hprint : (fmtExpr (.matchE s arms)).toList = "match".toList ++ ' ' :: ((fmtExpr s).toList ++
      ' ' :: '{' :: ' ' :: ((commaJoin (arms.map fun a =>
        fmtMatchPattern a.1 ++ " => " ++ fmtExpr a.2)).toList ++ [' ', '}'])) := by
    simp
  have hinner := hsubject.append hjoined.braces.blank (beginsStop_cons (by decide))
  exact printReads_intro hprint rfl (begins_cons (by decide))
    (.keyword_append (by decide) hinner.blank (beginsStop_cons (by decide))) (.matchE hds hd)

theorem printReads_forE {p : Pattern} {it b : Expr} (hp : PatternReads p)
    (hi : ReadsAs .exprRange (fmtExpr it).toList (.expr it))
    (hb : ReadsAs .blockBody (fmtExpr b).toList (.expr b)) : PrintReads (.forE p it b) := by
  obtain ⟨-, ts, hpat, hdp⟩ := hp
  obtain ⟨us, hiter, hdi⟩ := hi
  obtain ⟨ws, hbody, hdb⟩ := hb
  have hprint : (fmtExpr (.forE p it b)).toList = "for".toList ++ ' ' :: ((fmtPattern p).toList ++
      ' ' :: ("in".toList ++ ' ' :: ((fmtExpr it).toList ++
        ' ' :: '{' :: ' ' :: ((fmtExpr b).toList ++ [' ', '}'])))) := by
    simp
  have hloop := hiter.append hbody.braces.blank (beginsStop_cons (by decide))
  have hin : LexesAs ("in".toList ++ ' ' :: ((fmtExpr it).toList ++
      ' ' :: '{' :: ' ' :: ((fmtExpr b).toList ++ [' ', '}']))) (.sym "in" :: (us ++ braces ws)) :=
    .keyword_append (by decide) hloop.blank (beginsStop_cons (by decide))
  have hinner := hpat.append hin.blank (beginsStop_cons (by decide))
  refine printReads_intro hprint rfl (begins_cons (by decide))
    (.keyword_append (by decide) hinner.blank (beginsStop_cons (by decide))) ?_
  simpa [printRule] using Derives.forE hdp hdi hdb

end CambrianLang.Syntax
