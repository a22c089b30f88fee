/-
  **Printed expressions** (`fmt_expr`, `fmt_type`, `fmt_pattern` and `fmt_match_pattern` in
  `pretty.rs`).
-/
import CambrianLang.Syntax.Grammar

namespace CambrianLang.Syntax

open Ast CambrianLang.Core

/-- `join(", ")`. -/
def commaJoin (ss : List String) : String := ", ".intercalate ss

mutual
/-- `fmt_type`. -/
def fmtType : Ty → String
  | .simple name => name
  | .generic name params => name ++ "<" ++ commaJoin (fmtTypes params) ++ ">"
  | .tuple elems => "(" ++ commaJoin (fmtTypes elems) ++ ")"
  | .typedAddress entity => "Address<" ++ entity ++ ">"
def fmtTypes : List Ty → List String
  | [] => []
  | t :: ts => fmtType t :: fmtTypes ts
end

mutual
/-- `fmt_pattern`. -/
def fmtPattern : Pattern → String
  | .ident name => name
  | .wildcard => "_"
  | .tuple pats => "(" ++ commaJoin (fmtPatterns pats) ++ ")"
  | .deref inner => "*" ++ fmtPattern inner
  | .some inner => "some(" ++ fmtPattern inner ++ ")"
  | .none => "none"
def fmtPatterns : List Pattern → List String
  | [] => []
  | p :: ps => fmtPattern p :: fmtPatterns ps
end

/-- `fmt_match_pattern`. -/
def fmtMatchPattern : MatchPattern → String
  | .enumVariant e v => e ++ "::" ++ v
  | .enumVariantWithData e v bindings =>
    e ++ "::" ++ v ++ "(" ++ commaJoin (fmtPatterns bindings) ++ ")"
  | .some inner => "some(" ++ fmtPattern inner ++ ")"
  | .none => "none"
  | .wildcard => "_"
  | .intLiteral n => String.ofList (display n)
  | .boolLiteral b => if b then "true" else "false"
  | .ident name => name

/-- How an integer is printed. -/
def fmtInt (v : U256) : String :=
  if v.hi ≠ 0 then "0x" ++ String.ofList (u256HexDigits v)
  else String.ofList ((toDisplayDecimal v).getD [])

mutual
/-- `fmt_expr`. -/
def fmtExpr : Expr → String
  | .intLiteral v => fmtInt v
  | .stringLiteral s => "\"" ++ s ++ "\""
  | .bytesLiteral bytes => "b\"" ++ fromUtf8Lossy bytes ++ "\""
  | .boolLiteral b => if b then "true" else "false"
  | .arrayLit elems => "array(" ++ commaJoin (fmtExprs elems) ++ ")"
  | .emptyCollection => "\x7b\x7d"
  | .ident name => name
  | .temporalRef name => "^" ++ name
  | .macroRef name args => "@" ++ name ++ "(" ++ commaJoin (fmtExprs args) ++ ")"
  | .msgField field => "msg::" ++ field
  | .sysField field => "sys::" ++ field
  | .traceField field => "trace::" ++ field
  | .traceCall name route => "trace::" ++ name ++ "(" ++ route ++ ")"
  | .binOp l op r => "(" ++ fmtExpr l ++ " " ++ binOpText op ++ " " ++ fmtExpr r ++ ")"
  | .unaryOp op e => unaryOpText op ++ fmtExpr e
  | .fieldAccess base field => fmtExpr base ++ "." ++ field
  | .index base key => fmtExpr base ++ "[" ++ fmtExpr key ++ "]"
  | .methodCall base method args =>
    fmtExpr base ++ "." ++ method ++ "(" ++ commaJoin (fmtExprs args) ++ ")"
  | .fnCall name args => name ++ "(" ++ commaJoin (fmtExprs args) ++ ")"
  | .ifE c t (some e) =>
    "if " ++ fmtExpr c ++ " \x7b " ++ fmtExpr t ++ " \x7d else \x7b " ++ fmtExpr e ++ " \x7d"
  | .ifE c t none => "if " ++ fmtExpr c ++ " \x7b " ++ fmtExpr t ++ " \x7d"
  | .letE p v b => "let " ++ fmtPattern p ++ " = " ++ fmtExpr v ++ "; " ++ fmtExpr b
  | .block items => "\x7b " ++ "; ".intercalate (fmtExprs items) ++ " \x7d"
  | .recordConstruct name fields => name ++ " \x7b " ++ commaJoin (fmtFields fields) ++ " \x7d"
  | .recordUpdate base fields =>
    fmtExpr base ++ " \x7b " ++ commaJoin (fmtFields fields) ++ " \x7d"
  | .closure params body => "|" ++ commaJoin (fmtPatterns params) ++ "| " ++ fmtExpr body
  | .cast e ty => fmtExpr e ++ " as " ++ fmtType ty
  | .tuple elems => "(" ++ commaJoin (fmtExprs elems) ++ ")"
  | .matchE subject arms =>
    "match " ++ fmtExpr subject ++ " \x7b " ++ commaJoin (fmtArms arms) ++ " \x7d"
  | .enumVariant e v => e ++ "::" ++ v
  | .enumVariantWithData e v args => e ++ "::" ++ v ++ "(" ++ commaJoin (fmtExprs args) ++ ")"
  | .someE e => "some(" ++ fmtExpr e ++ ")"
  | .noneE => "none"
  | .range l r => fmtExpr l ++ ".." ++ fmtExpr r
  | .forE p it b =>
    "for " ++ fmtPattern p ++ " in " ++ fmtExpr it ++ " \x7b " ++ fmtExpr b ++ " \x7d"
  | .namespacedCall ns name args typeParams =>
    if typeParams.isEmpty then ns ++ "::" ++ name ++ "(" ++ commaJoin (fmtExprs args) ++ ")"
    else
      ns ++ "::" ++ name ++ "::<" ++ commaJoin (fmtTypes typeParams) ++ ">(" ++
        commaJoin (fmtExprs args) ++ ")"
  | .addressOf entity args withParams =>
    if withParams.isEmpty then
      "address_of " ++ entity ++ "(" ++ commaJoin (fmtExprs args) ++ ")"
    else
      "address_of " ++ entity ++ "(" ++ commaJoin (fmtExprs args) ++ ") with \x7b " ++
        commaJoin (fmtFields withParams) ++ " \x7d"
  | .encode ty e => "cam_encode<" ++ fmtType ty ++ ">(" ++ fmtExpr e ++ ")"
def fmtExprs : List Expr → List String
  | [] => []
  | e :: es => fmtExpr e :: fmtExprs es
def fmtFields : List (String × Expr) → List String
  | [] => []
  | (n, v) :: fs => (n ++ ": " ++ fmtExpr v) :: fmtFields fs
def fmtArms : List (MatchPattern × Expr) → List String
  | [] => []
  | (p, b) :: arms => (fmtMatchPattern p ++ " => " ++ fmtExpr b) :: fmtArms arms
end

end CambrianLang.Syntax
