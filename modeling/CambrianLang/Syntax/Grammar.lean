/-
  **The grammar of expressions** (`cambrian.lalrpop`, from `Type` to the comma helpers).

  `Derives r ts v` says that the rule `r` turns the tokens `ts` into the value `v`.  A rule
  that only passes a value on is in `Rule.alts`; what the grammar writes out several times
  (an `if`, the alternatives behind `=>`) has a rule of its own here.  The generator takes
  no ambiguous grammar, so the parser returns `v` exactly when this holds.
-/
import CambrianLang.Ast.Expr
import CambrianLang.Syntax.Literals
import CambrianLang.Syntax.Tokens

namespace CambrianLang.Syntax

open Ast CambrianLang.Core

inductive Rule where
  | expr | exprRange | exprOr | exprAnd | exprBitOr | exprBitXor | exprBitAnd | exprEq | exprCmp
  | exprShift | exprAdd | exprMul | exprCast | exprUnary | exprPostfix | exprPrimary
  | exprClosure | recordLit | ifExpr | matchExpr | forExpr | braced | letChain
  | closureBody | letValue | armBody | blockBody | blockFinalExpr | afterLetStmt
  | recordFieldInit | matchArmDecl | letStmt | pattern | matchPatternDecl | type
  | each (r : Rule)
  | comma (r : Rule)
  | commaOrNone (r : Rule)
deriving DecidableEq

/-- The alternatives of a rule that pass their value on. -/
def Rule.alts : Rule → List Rule
  | .expr => [.exprClosure, .exprRange]
  | .exprRange => [.exprOr]
  | .exprOr => [.exprAnd]
  | .exprAnd => [.exprBitOr]
  | .exprBitOr => [.exprBitXor]
  | .exprBitXor => [.exprBitAnd]
  | .exprBitAnd => [.exprEq]
  | .exprEq => [.exprCmp]
  | .exprCmp => [.exprShift]
  | .exprShift => [.exprAdd]
  | .exprAdd => [.exprMul]
  | .exprMul => [.exprCast]
  | .exprCast => [.exprUnary]
  | .exprUnary => [.exprPostfix]
  | .exprPostfix => [.exprPrimary]
  | .closureBody => [.exprOr, .recordLit, .ifExpr, .braced]
  | .letValue => [.expr, .recordLit, .ifExpr, .matchExpr, .braced]
  | .armBody => [.expr, .braced]
  | .blockBody => [.expr, .recordLit, .ifExpr, .matchExpr, .forExpr, .braced, .letChain]
  | .blockFinalExpr => [.expr, .recordLit, .ifExpr, .matchExpr, .forExpr, .braced]
  | .afterLetStmt => [.blockFinalExpr, .letChain]
  | .commaOrNone r => [.comma r]
  | _ => []

/-- What a rule makes. -/
inductive Val where
  | expr (e : Expr)
  | field (name : String) (e : Expr)
  | arm (p : MatchPattern) (e : Expr)
  | stmt (p : Pattern) (e : Expr)
  | pat (p : Pattern)
  | matchPat (p : MatchPattern)
  | ty (t : Ty)
  | list (vs : List Val)

/-- The text of an operator. -/
def binOpText : BinOp → String
  | .add => "+" | .sub => "-" | .mul => "*" | .div => "/" | .mod => "%"
  | .wrappingAdd => "+%" | .wrappingSub => "-%" | .wrappingMul => "*%"
  | .bitAnd => "&" | .bitOr => "|" | .bitXor => "^" | .shl => "<<" | .shr => ">>"
  | .eq => "==" | .ne => "!=" | .lt => "<" | .le => "<=" | .gt => ">" | .ge => ">="
  | .and => "&&" | .or => "||"

def unaryOpText : UnaryOp → String
  | .not => "!"
  | .neg => "-"
  | .deref => "*"

/-- The rule of an operator: that of the whole and of the left operand, -/
def leftRule : BinOp → Rule
  | .or => .exprOr
  | .and => .exprAnd
  | .bitOr => .exprBitOr
  | .bitXor => .exprBitXor
  | .bitAnd => .exprBitAnd
  | .eq | .ne => .exprEq
  | .lt | .gt | .le | .ge => .exprCmp
  | .shl | .shr => .exprShift
  | .add | .sub | .wrappingAdd | .wrappingSub => .exprAdd
  | .mul | .div | .mod | .wrappingMul => .exprMul

/-- and that of the right one. -/
def rightRule : BinOp → Rule
  | .or => .exprAnd
  | .and => .exprBitOr
  | .bitOr => .exprBitXor
  | .bitXor => .exprBitAnd
  | .bitAnd => .exprEq
  | .eq | .ne => .exprCmp
  | .lt | .gt | .le | .ge => .exprShift
  | .shl | .shr => .exprAdd
  | .add | .sub | .wrappingAdd | .wrappingSub => .exprMul
  | .mul | .div | .mod | .wrappingMul => .exprCast

/-- `IdentStr`. -/
def Tok.identStr : Tok → Option String
  | .ident name => some name
  | .sym text => if text ∈ ["check", "action", "senders"] then some text else none
  | _ => none

/-- `IntLitVal`. -/
def Tok.intLitVal : Tok → Option U256
  | .int digits => fromDecimalStr digits
  | _ => none

/-- The action of `RecordLit`. -/
def recordLit (name : String) (fields : List (String × Expr)) : Expr :=
  if name.toList.head?.any Char.isUpper then .recordConstruct name fields
  else .recordUpdate (.ident name) fields

/-- The action of a pattern in parentheses. -/
def patternGroup : List Pattern → Pattern
  | [p] => p
  | ps => .tuple ps

/-- The tokens of a text in parentheses. -/
abbrev parens (ts : List Tok) : List Tok := .sym "(" :: ts ++ [.sym ")"]

/-- And in braces. -/
abbrev braces (ts : List Tok) : List Tok := .sym "\x7b" :: ts ++ [.sym "\x7d"]

inductive Derives : Rule → List Tok → Val → Prop
  | alt {r r' ts v} (hr : r' ∈ r.alts) (h : Derives r' ts v) : Derives r ts v
  -- comma helpers
  | eachNil {r} : Derives (.each r) [] (.list [])
  | eachCons {r ts us v vs} (h : Derives r ts v) (hs : Derives (.each r) us (.list vs)) :
      Derives (.each r) (ts ++ .sym "," :: us) (.list (v :: vs))
  | commaLast {r ts us v vs} (hs : Derives (.each r) ts (.list vs)) (h : Derives r us v) :
      Derives (.comma r) (ts ++ us) (.list (vs ++ [v]))
  | commaTrailing {r ts v vs} (hs : Derives (.each r) ts (.list (v :: vs))) :
      Derives (.comma r) ts (.list (v :: vs))
  | commaNone {r} : Derives (.commaOrNone r) [] (.list [])
  -- types
  | simpleType {t name} (ht : t.identStr = some name) : Derives .type [t] (.ty (.simple name))
  | genericType {t name ts params} (ht : t.identStr = some name)
      (h : Derives (.comma .type) ts (.list (params.map .ty))) :
      Derives .type (t :: .sym "<" :: ts ++ [.sym ">"]) (.ty (.generic name params))
  | nestedGeneric {t outer ts init t' inner us params} (ht : t.identStr = some outer)
      (hi : Derives (.each .type) ts (.list (init.map .ty))) (ht' : t'.identStr = some inner)
      (h : Derives (.comma .type) us (.list (params.map .ty))) :
      Derives .type (t :: .sym "<" :: ts ++ t' :: .sym "<" :: us ++ [.sym ">>"])
        (.ty (.generic outer (init ++ [.generic inner params])))
  | tupleType {ts us first rest} (h : Derives .type ts (.ty first))
      (hs : Derives (.comma .type) us (.list (rest.map .ty))) :
      Derives .type (parens (ts ++ .sym "," :: us)) (.ty (.tuple (first :: rest)))
  -- patterns
  | wildcardPattern : Derives .pattern [.sym "_"] (.pat .wildcard)
  | derefPattern {t name} (ht : t.identStr = some name) :
      Derives .pattern [.sym "*", t] (.pat (.deref (.ident name)))
  | somePattern {ts p} (h : Derives .pattern ts (.pat p)) :
      Derives .pattern (.sym "some" :: parens ts) (.pat (.some p))
  | nonePattern : Derives .pattern [.sym "none"] (.pat .none)
  | groupPattern {ts ps p} (h : Derives (.comma .pattern) ts (.list (ps.map .pat)))
      (hp : patternGroup ps = p) : Derives .pattern (parens ts) (.pat p)
  | identPattern {t name} (ht : t.identStr = some name) : Derives .pattern [t] (.pat (.ident name))
  | variantDataPattern {t enum t' variant ts ps} (ht : t.identStr = some enum)
      (ht' : t'.identStr = some variant)
      (h : Derives (.commaOrNone .pattern) ts (.list (ps.map .pat))) :
      Derives .matchPatternDecl (t :: .sym "::" :: t' :: parens ts)
        (.matchPat (.enumVariantWithData enum variant ps))
  | variantPattern {t enum t' variant} (ht : t.identStr = some enum)
      (ht' : t'.identStr = some variant) :
      Derives .matchPatternDecl [t, .sym "::", t'] (.matchPat (.enumVariant enum variant))
  | someMatch {ts p} (h : Derives .pattern ts (.pat p)) :
      Derives .matchPatternDecl (.sym "some" :: parens ts) (.matchPat (.some p))
  | noneMatch : Derives .matchPatternDecl [.sym "none"] (.matchPat .none)
  | wildcardMatch : Derives .matchPatternDecl [.sym "_"] (.matchPat .wildcard)
  | intMatch {t v} (ht : t.intLitVal = some v) :
      Derives .matchPatternDecl [t] (.matchPat (.intLiteral v))
  | trueMatch : Derives .matchPatternDecl [.sym "true"] (.matchPat (.boolLiteral true))
  | falseMatch : Derives .matchPatternDecl [.sym "false"] (.matchPat (.boolLiteral false))
  | identMatch {t name} (ht : t.identStr = some name) :
      Derives .matchPatternDecl [t] (.matchPat (.ident name))
  -- ranges, closures, records, blocks
  | range {ts us l r} (hl : Derives .exprOr ts (.expr l)) (hr : Derives .exprOr us (.expr r)) :
      Derives .exprRange (ts ++ .sym ".." :: us) (.expr (.range l r))
  | closure {ts us ps body} (hp : Derives (.commaOrNone .pattern) ts (.list (ps.map .pat)))
      (hb : Derives .closureBody us (.expr body)) :
      Derives .exprClosure (.sym "|" :: ts ++ .sym "|" :: us) (.expr (.closure ps body))
  | record {t name ts fields e} (ht : t.identStr = some name)
      (h : Derives (.comma .recordFieldInit) ts (.list (fields.map fun f => .field f.1 f.2)))
      (he : recordLit name fields = e) : Derives .recordLit (t :: braces ts) (.expr e)
  | fieldInit {t name ts e} (ht : t.identStr = some name) (h : Derives .expr ts (.expr e)) :
      Derives .recordFieldInit (t :: .sym ":" :: ts) (.field name e)
  | ifThen {ts us c e} (hc : Derives .exprOr ts (.expr c)) (h : Derives .blockBody us (.expr e)) :
      Derives .ifExpr (.sym "if" :: ts ++ braces us) (.expr (.ifE c e none))
  | ifElse {ts us ws c e e'} (hc : Derives .exprOr ts (.expr c))
      (h : Derives .blockBody us (.expr e)) (h' : Derives .blockBody ws (.expr e')) :
      Derives .ifExpr (.sym "if" :: ts ++ braces us ++ .sym "else" :: braces ws)
        (.expr (.ifE c e (some e')))
  | matchE {ts us s arms} (hs : Derives .exprOr ts (.expr s))
      (h : Derives (.comma .matchArmDecl) us (.list (arms.map fun a => .arm a.1 a.2))) :
      Derives .matchExpr (.sym "match" :: ts ++ braces us) (.expr (.matchE s arms))
  | arm {ts us p e} (hp : Derives .matchPatternDecl ts (.matchPat p))
      (h : Derives .armBody us (.expr e)) :
      Derives .matchArmDecl (ts ++ .sym "=>" :: us) (.arm p e)
  | forE {ts us ws p it body} (hp : Derives .pattern ts (.pat p))
      (hi : Derives .exprRange us (.expr it)) (hb : Derives .blockBody ws (.expr body)) :
      Derives .forExpr (.sym "for" :: ts ++ .sym "in" :: us ++ braces ws) (.expr (.forE p it body))
  | braced {ts e} (h : Derives .blockBody ts (.expr e)) : Derives .braced (braces ts) (.expr e)
  | letChain {ts us p e body} (hs : Derives .letStmt ts (.stmt p e))
      (hb : Derives .afterLetStmt us (.expr body)) :
      Derives .letChain (ts ++ us) (.expr (.letE p e body))
  | letStmt {ts us p e} (hp : Derives .pattern ts (.pat p)) (h : Derives .letValue us (.expr e)) :
      Derives .letStmt (.sym "let" :: ts ++ .sym "=" :: us ++ [.sym ";"]) (.stmt p e)
  -- operators
  | binOp {rule ts us l op r} (hop : leftRule op = rule) (hl : Derives rule ts (.expr l))
      (hr : Derives (rightRule op) us (.expr r)) :
      Derives rule (ts ++ .sym (binOpText op) :: us) (.expr (.binOp l op r))
  | cast {ts t e name} (h : Derives .exprCast ts (.expr e)) (ht : t.identStr = some name) :
      Derives .exprCast (ts ++ [.sym "as", t]) (.expr (.cast e (.simple name)))
  | unaryOp {ts op e} (h : Derives .exprUnary ts (.expr e)) :
      Derives .exprUnary (.sym (unaryOpText op) :: ts) (.expr (.unaryOp op e))
  | fieldAccess {ts t e name} (h : Derives .exprPostfix ts (.expr e))
      (ht : t.identStr = some name) :
      Derives .exprPostfix (ts ++ [.sym ".", t]) (.expr (.fieldAccess e name))
  | methodCall {ts t us e name args} (h : Derives .exprPostfix ts (.expr e))
      (ht : t.identStr = some name)
      (ha : Derives (.commaOrNone .expr) us (.list (args.map .expr))) :
      Derives .exprPostfix (ts ++ .sym "." :: t :: parens us) (.expr (.methodCall e name args))
  | tupleField {ts t e v} (h : Derives .exprPostfix ts (.expr e)) (ht : t.intLitVal = some v) :
      Derives .exprPostfix (ts ++ [.sym ".", t])
        (.expr (.fieldAccess e (String.ofList (display v))))
  | index {ts us e key} (h : Derives .exprPostfix ts (.expr e))
      (hk : Derives .expr us (.expr key)) :
      Derives .exprPostfix (ts ++ .sym "[" :: us ++ [.sym "]"]) (.expr (.index e key))
  -- primary expressions
  | intLit {t v} (ht : t.intLitVal = some v) : Derives .exprPrimary [t] (.expr (.intLiteral v))
  | hexLit {digits v} (h : fromHexDigits (digits.drop 2) = some v) :
      Derives .exprPrimary [.hex digits] (.expr (.intLiteral v))
  | binLit {digits v} (h : fromBinaryDigits digits = some v) :
      Derives .exprPrimary [.bin digits] (.expr (.intLiteral v))
  | strLit {raw} : Derives .exprPrimary [.str raw] (.expr (.stringLiteral (parseStringLiteral raw)))
  | bytesLit {raw} :
      Derives .exprPrimary [.bytes raw]
        (.expr (.bytesLiteral (parseBytesLiteral raw.toUTF8.data.toList)))
  | trueLit : Derives .exprPrimary [.sym "true"] (.expr (.boolLiteral true))
  | falseLit : Derives .exprPrimary [.sym "false"] (.expr (.boolLiteral false))
  | arrayLit {ts es} (h : Derives (.commaOrNone .expr) ts (.list (es.map .expr))) :
      Derives .exprPrimary (.sym "array" :: parens ts) (.expr (.arrayLit es))
  | temporalRef {t name} (ht : t.identStr = some name) :
      Derives .exprPrimary [.sym "^", t] (.expr (.temporalRef name))
  | macroRef {t name ts args} (ht : t.identStr = some name)
      (h : Derives (.commaOrNone .expr) ts (.list (args.map .expr))) :
      Derives .exprPrimary (.sym "@" :: t :: parens ts) (.expr (.macroRef name args))
  | msgField {t field} (ht : t.identStr = some field) :
      Derives .exprPrimary [.sym "msg::", t] (.expr (.msgField field))
  | sysField {t field} (ht : t.identStr = some field) :
      Derives .exprPrimary [.sym "sys::", t] (.expr (.sysField field))
  | traceCall {t name t' route} (ht : t.identStr = some name) (ht' : t'.identStr = some route) :
      Derives .exprPrimary (.sym "trace::" :: t :: parens [t']) (.expr (.traceCall name route))
  | traceField {t field} (ht : t.identStr = some field) :
      Derives .exprPrimary [.sym "trace::", t] (.expr (.traceField field))
  | emptyCollection : Derives .exprPrimary (braces []) (.expr .emptyCollection)
  | someE {ts e} (h : Derives .expr ts (.expr e)) :
      Derives .exprPrimary (.sym "some" :: parens ts) (.expr (.someE e))
  | noneE : Derives .exprPrimary [.sym "none"] (.expr .noneE)
  | stdCall {t ns t' sub t'' name ts args} (ht : t.identStr = some ns)
      (ht' : t'.identStr = some sub) (ht'' : t''.identStr = some name)
      (h : Derives (.commaOrNone .expr) ts (.list (args.map .expr))) :
      Derives .exprPrimary (t :: .sym "::" :: t' :: .sym "::" :: t'' :: parens ts)
        (.expr (.namespacedCall (ns ++ "::" ++ sub) name args []))
  | turbofish {t ns t' name us tps ts args} (ht : t.identStr = some ns)
      (ht' : t'.identStr = some name) (hp : Derives (.comma .type) us (.list (tps.map .ty)))
      (h : Derives (.commaOrNone .expr) ts (.list (args.map .expr))) :
      Derives .exprPrimary
        (t :: .sym "::" :: t' :: .sym "::" :: .sym "<" :: us ++ .sym ">" :: parens ts)
        (.expr (.namespacedCall ns name args tps))
  | enumVariantWithData {t enum t' variant ts args} (ht : t.identStr = some enum)
      (ht' : t'.identStr = some variant)
      (h : Derives (.commaOrNone .expr) ts (.list (args.map .expr))) :
      Derives .exprPrimary (t :: .sym "::" :: t' :: parens ts)
        (.expr (.enumVariantWithData enum variant args))
  | enumVariant {t enum t' variant} (ht : t.identStr = some enum)
      (ht' : t'.identStr = some variant) :
      Derives .exprPrimary [t, .sym "::", t'] (.expr (.enumVariant enum variant))
  | fnCall {t name ts args} (ht : t.identStr = some name)
      (h : Derives (.commaOrNone .expr) ts (.list (args.map .expr))) :
      Derives .exprPrimary (t :: parens ts) (.expr (.fnCall name args))
  | tuple {ts us first rest} (h : Derives .expr ts (.expr first))
      (hs : Derives (.comma .expr) us (.list (rest.map .expr))) :
      Derives .exprPrimary (parens (ts ++ .sym "," :: us)) (.expr (.tuple (first :: rest)))
  | paren {ts e} (h : Derives .expr ts (.expr e)) : Derives .exprPrimary (parens ts) (.expr e)
  | addressOf {t entity ts args} (ht : t.identStr = some entity)
      (h : Derives (.commaOrNone .expr) ts (.list (args.map .expr))) :
      Derives .exprPrimary (.sym "address_of" :: t :: parens ts)
        (.expr (.addressOf entity args []))
  | encode {us ty ts e} (ht : Derives .type us (.ty ty)) (h : Derives .exprOr ts (.expr e)) :
      Derives .exprPrimary (.sym "cam_encode" :: .sym "<" :: us ++ .sym ">" :: parens ts)
        (.expr (.encode ty e))
  | ident {t name} (ht : t.identStr = some name) : Derives .exprPrimary [t] (.expr (.ident name))

/-- The rule reads the text as the expression. -/
def Parses (r : Rule) (text : String) (e : Expr) : Prop :=
  ∃ ts, Lexes text.toList ts ∧ Derives r ts (.expr e)

end CambrianLang.Syntax
