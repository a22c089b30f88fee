/-
  **The signature of a send to an untyped address** (`codegen/solidity/evm/emitter.rs`,
  `evm/route.rs`, `evm/interface.rs`).

  A named send whose destination has no entity is a low-level call with a signature in its
  data, and the types in it are read off the arguments: off three kinds of literals, off the
  printed types of names that are bound, and `uint256` for everything else. The callee is
  selected by the signature its interface declares.
-/
import CambrianLang.Analysis.SendTarget
import CambrianLang.Layout.Emitted

namespace CambrianLang.Solidity

open Ast Analysis Layout

/-! ### The emitted send -/

/-- The names `sol_sanitize_ident` escapes. -/
def solReserved : List String :=
  ["address", "bool", "bytes", "string", "int", "int8", "int16", "int24", "int32", "int40",
    "int48", "int56", "int64", "int72", "int80", "int88", "int96", "int104", "int112", "int120",
    "int128", "int136", "int144", "int152", "int160", "int168", "int176", "int184", "int192",
    "int200", "int208", "int216", "int224", "int232", "int240", "int248", "int256", "uint",
    "uint8", "uint16", "uint24", "uint32", "uint40", "uint48", "uint56", "uint64", "uint72",
    "uint80", "uint88", "uint96", "uint104", "uint112", "uint120", "uint128", "uint136",
    "uint144", "uint152", "uint160", "uint168", "uint176", "uint184", "uint192", "uint200",
    "uint208", "uint216", "uint224", "uint232", "uint240", "uint248", "uint256", "fixed",
    "ufixed", "after", "alias", "apply", "auto", "byte", "case", "copyof", "default", "define",
    "final", "implements", "in", "inline", "let", "macro", "match", "mutable", "null", "of",
    "partial", "promise", "reference", "relocatable", "sealed", "sizeof", "static", "supports",
    "switch", "typedef", "typeof", "var", "abstract", "anonymous", "as", "assembly", "break",
    "calldata", "catch", "constant", "constructor", "continue", "contract", "delete", "do",
    "else", "emit", "enum", "event", "external", "fallback", "false", "for", "function", "hex",
    "if", "immutable", "import", "indexed", "interface", "internal", "is", "library", "mapping",
    "memory", "modifier", "new", "override", "payable", "pragma", "private", "public", "pure",
    "receive", "return", "returns", "storage", "struct", "throw", "true", "try", "type",
    "unchecked", "using", "view", "virtual", "while", "now", "block", "msg", "tx", "this",
    "super", "abi", "keccak256", "sha256", "ripemd160", "ecrecover", "addmod", "mulmod",
    "selfdestruct", "suicide", "blockhash", "gasleft", "require", "revert", "assert"]

/-- `sol_sanitize_ident`. -/
def solSanitizeIdent (name : String) : String :=
  if solReserved.contains name then "_" ++ name else name

/-- What `sig_type_from_sol_ty` knows. -/
def sigTypes : List String :=
  ["address", "bool", "string", "bytes", "bytes32", "uint8", "uint16", "uint32", "uint64",
    "uint128", "uint256", "int8", "int16", "int32", "int64", "int128", "int256"]

/-- A printed type without its data location. -/
def baseType (ty : String) : String := String.ofList (ty.toList.takeWhile (· != ' '))

/-- `sig_type_from_sol_ty`. -/
def sigTypeFromSolTy (ty : String) : String :=
  if sigTypes.contains (baseType ty) then baseType ty else "uint256"

/-- The printed types of the parameters and locals in scope, innermost first. -/
abbrev LetBindings := List (String × String)

/-- `infer_sig_type`. -/
def inferSigType (scratch : LetBindings) : Expr → String
  | .boolLiteral _ => "bool"
  | .stringLiteral _ => "string"
  | .intLiteral _ => "uint256"
  | .msgField name => if name = "sender" then "address" else "uint256"
  | .ident name => ((scratch.lookup name).map sigTypeFromSolTy).getD "uint256"
  | _ => "uint256"

/-- `resolve_send_target`. -/
def resolveSendTarget (target : SendTarget) (dest : Expr) (entity : Entity) (route : Route) :
    Option String :=
  (sendTargetEntityName entity.name target).or (resolveTargetEntity dest entity route)

inductive EmittedSend where
  | interfaceCall (target function : String) (args : List Expr)
  | encodedCall (signature : String) (args : List Expr)

/-- A signature, of the name of a function and the types of its parameters. -/
def signatureText (name : String) (types : List String) : String :=
  name ++ "(" ++ ",".intercalate types ++ ")"

/-- `emit_send_impl` for a send with a message. -/
def emitSendImpl (message : String) (args : List Expr) (dest : Expr) (target : SendTarget)
    (entity : Entity) (route : Route) (scratch : LetBindings) : EmittedSend :=
  match resolveSendTarget target dest entity route with
  | some callee => .interfaceCall callee (solSanitizeIdent message) args
  | none => .encodedCall (signatureText message (args.map (inferSigType scratch))) args

/-! ### The ABI -/

mutual
/-- The ABI type of a printed type. A struct is the tuple of its fields and an enum is its
    number; a mapping has none. A declared type is not called like an elementary one. -/
inductive AbiOf (types : SolTypes) : SolScope → SolTy → String → Prop where
  | value {scope : SolScope} {name : String} {bytes : ℕ}
      (hname : (elementaryBytes name).isSome = true) : AbiOf types scope (.value name bytes) name
  | tag {scope : SolScope} {name : String} {bytes : ℕ} (hname : name ∉ sigTypes)
      (htag : elementaryBytes name = none) : AbiOf types scope (.value name bytes) "uint8"
  | string {scope : SolScope} : AbiOf types scope .string "string"
  | bytes {scope : SolScope} : AbiOf types scope .bytes "bytes"
  | array {scope : SolScope} {elem : SolTy} {s : String} (helem : AbiOf types scope elem s) :
      AbiOf types scope (.array elem) (s ++ "[]")
  | struct {scope home : SolScope} {name : String} {fields : List SolTy} {ss : List String}
      (hname : name ∉ sigTypes) (hdecl : types.resolve scope name = some (home, .struct fields))
      (hfields : AbiOfAll types home fields ss) : AbiOf types scope (.named name) (signatureText "" ss)
  | enum {scope home : SolScope} {name : String} (hname : name ∉ sigTypes)
      (hdecl : types.resolve scope name = some (home, .enum)) : AbiOf types scope (.named name) "uint8"
  | elementary {scope : SolScope} {name : String} (hdecl : types.resolve scope name = none) :
      AbiOf types scope (.named name) name
  | option {scope : SolScope} {inner : Ty} {s : String}
      (hinner : AbiOf types .file (payloadSolTy inner) s) :
      AbiOf types scope (.option inner) (signatureText "" ["uint8", s])
inductive AbiOfAll (types : SolTypes) : SolScope → List SolTy → List String → Prop where
  | nil {scope : SolScope} : AbiOfAll types scope [] []
  | cons {scope : SolScope} {ty : SolTy} {s : String} {tys : List SolTy} {ss : List String}
      (hty : AbiOf types scope ty s) (htys : AbiOfAll types scope tys ss) :
      AbiOfAll types scope (ty :: tys) (s :: ss)
end

/-- The integer types: signed or not, and the number of bits. -/
def integerTypes : List (String × Bool × ℕ) :=
  [("uint8", false, 8), ("uint16", false, 16), ("uint32", false, 32), ("uint64", false, 64),
    ("uint128", false, 128), ("uint256", false, 256), ("int8", true, 8), ("int16", true, 16),
    ("int32", true, 32), ("int64", true, 64), ("int128", true, 128), ("int256", true, 256)]

def integerType (ty : String) : Option (Bool × ℕ) := integerTypes.lookup ty

/-- An argument of one type where another is declared: the types are one, or the declared one
    has all the integers of the other. -/
def Converts (given declared : String) : Prop :=
  given = declared ∨
    ∃ a b, integerType given = some a ∧ integerType declared = some b ∧
      if a.1 = b.1 then a.2 ≤ b.2 else a.1 = false ∧ a.2 < b.2

/-- A value in the data of a call: a number, or something of another type. -/
inductive AbiValue (V : Type) where
  | number (n : ℤ)
  | other (v : V)

/-- The values a type has. -/
def AbiValue.Has {V : Type} (ty : String) : AbiValue V → Prop
  | .number _ => (integerType ty).isSome = true
  | .other _ => integerType ty = none

/-- The encoding of a value at a type: of a number its two's complement in a word, and what
    `encodeOther` says of other values. -/
def abiEncode {V : Type} (encodeOther : String → V → List ℕ) (ty : String) : AbiValue V → List ℕ
  | .number n => [(n % 2 ^ 256).toNat]
  | .other v => encodeOther ty v

/-- The type the compiler finds for an argument: that of a literal or of a bound name, and for
    the rest what `typeOf` says. -/
def argType (scratch : LetBindings) (typeOf : Expr → String) : Expr → String
  | .boolLiteral _ => "bool"
  | .stringLiteral _ => "string"
  | .msgField name => if name = "sender" then "address" else typeOf (.msgField name)
  | .ident name => ((scratch.lookup name).map baseType).getD (typeOf (.ident name))
  | e => typeOf e

/-! ### The types that are guessed -/

/-- What an argument shows of its type: some literals, and what a bound name is printed with. -/
inductive Shows (scratch : LetBindings) : Expr → String → Prop where
  | bool (b : Bool) : Shows scratch (.boolLiteral b) "bool"
  | string (s : String) : Shows scratch (.stringLiteral s) "string"
  | sender : Shows scratch (.msgField "sender") "address"
  | name {x ty : String} (h : scratch.lookup x = some ty) : Shows scratch (.ident x) (baseType ty)

/-- An argument for a `uint256` is not a name of another elementary type, and one for another
    type shows it, the type being one the guess knows. -/
def ArgFits (scratch : LetBindings) (arg : Expr) (param : SolTy) : Prop :=
  if param.text = "uint256" then ∀ s ∈ sigTypes, Shows scratch arg s → s = "uint256"
  else param.text ∈ sigTypes ∧ Shows scratch arg param.text

theorem Shows.unique {scratch : LetBindings} {arg : Expr} {s s' : String} (h : Shows scratch arg s)
    (h' : Shows scratch arg s') : s = s' := by
  cases h with
  | bool b =>
    cases h'
    rfl
  | string s =>
    cases h'
    rfl
  | sender =>
    cases h'
    rfl
  | name h =>
    cases h' with
    | name h' =>
      rw [h] at h'
      cases h'
      rfl

/-- The guess is what the argument shows, if it is known, and else `uint256`. -/
theorem inferSigType_cases (scratch : LetBindings) (arg : Expr) :
    (∃ s ∈ sigTypes, Shows scratch arg s ∧ inferSigType scratch arg = s) ∨
      (∀ s ∈ sigTypes, ¬ Shows scratch arg s) ∧ inferSigType scratch arg = "uint256" := by
  cases arg with
  | boolLiteral b => exact Or.inl ⟨"bool", by decide, .bool b, rfl⟩
  | stringLiteral s => exact Or.inl ⟨"string", by decide, .string s, rfl⟩
  | msgField name =>
    by_cases hname : name = "sender"
    · subst hname
      exact Or.inl ⟨"address", by decide, .sender, rfl⟩
    · refine Or.inr ⟨fun s _ hs => ?_, if_neg hname⟩
      cases hs
      exact hname rfl
  | ident x =>
    cases hx : scratch.lookup x with
    | none =>
      refine Or.inr ⟨fun s _ hs => ?_, by rw [inferSigType, hx]; rfl⟩
      cases hs with
      | name h =>
        rw [hx] at h
        cases h
    | some ty =>
      by_cases hmem : baseType ty ∈ sigTypes
      · refine Or.inl ⟨baseType ty, hmem, .name hx, ?_⟩
        rw [inferSigType, hx, Option.map_some, sigTypeFromSolTy,
          if_pos (List.contains_iff_mem.mpr hmem)]
        rfl
      · refine Or.inr ⟨fun s hs hshow => ?_, ?_⟩
        · cases hshow with
          | name h =>
            rw [hx] at h
            cases h
            exact hmem hs
        · rw [inferSigType, hx, Option.map_some, sigTypeFromSolTy,
            if_neg fun h => hmem (List.contains_iff_mem.mp h)]
          rfl
  | _ => exact Or.inr ⟨fun s _ hs => (nomatch hs), rfl⟩

theorem Shows.argType_eq {scratch : LetBindings} {typeOf : Expr → String} {arg : Expr} {s : String}
    (h : Shows scratch arg s) : argType scratch typeOf arg = s := by
  cases h with
  | bool b => rfl
  | string s => rfl
  | sender => rfl
  | name h =>
    rw [argType, h]
    rfl

theorem not_mem_sigTypes_of_last {s : String} {c : Char} (hc : c = ']' ∨ c = ')')
    (h : s.toList.getLast? = some c) : s ∉ sigTypes := by
  have hlast : ∀ t ∈ sigTypes, t.toList.getLast? ≠ some ']' ∧ t.toList.getLast? ≠ some ')' := by
    decide
  intro hs
  rcases hc with rfl | rfl
  · exact (hlast s hs).1 h
  · exact (hlast s hs).2 h

theorem array_not_mem_sigTypes (s : String) : s ++ "[]" ∉ sigTypes := by
  refine not_mem_sigTypes_of_last (Or.inl rfl) ?_
  rw [String.toList_append, List.getLast?_append]
  rfl

theorem signatureText_not_mem_sigTypes (name : String) (ss : List String) :
    signatureText name ss ∉ sigTypes := by
  refine not_mem_sigTypes_of_last (Or.inr rfl) ?_
  rw [signatureText, String.toList_append, List.getLast?_append]
  rfl

theorem optionStructName_not_mem_sigTypes (inner : Ty) : optionStructName inner ∉ sigTypes := by
  have hfirst : ∀ t ∈ sigTypes, t.toList.head? ≠ some 'O' := by decide
  intro hs
  refine hfirst _ hs ?_
  rw [optionStructName, String.toList_append]
  rfl

/-- Where a printed type is one the guess knows, it is its own ABI type; otherwise the ABI type
    is none of them, or the number of an enum. -/
theorem AbiOf.cases_sigTypes {types : SolTypes} {scope : SolScope} {ty : SolTy} {s : String}
    (h : AbiOf types scope ty s) :
    ty.text ∈ sigTypes ∧ s = ty.text ∨ ty.text ∉ sigTypes ∧ (s ∉ sigTypes ∨ s = "uint8") := by
  cases h with
  | value hname =>
    exact (Classical.em (_ ∈ sigTypes)).imp (fun h => ⟨h, rfl⟩) fun h => ⟨h, Or.inl h⟩
  | tag hname htag => exact Or.inr ⟨hname, Or.inr rfl⟩
  | string => exact Or.inl ⟨by decide, rfl⟩
  | bytes => exact Or.inl ⟨by decide, rfl⟩
  | array helem => exact Or.inr ⟨array_not_mem_sigTypes _, Or.inl (array_not_mem_sigTypes _)⟩
  | struct hname hdecl hfields =>
    exact Or.inr ⟨hname, Or.inl (signatureText_not_mem_sigTypes _ _)⟩
  | enum hname hdecl => exact Or.inr ⟨hname, Or.inr rfl⟩
  | elementary hdecl =>
    exact (Classical.em (_ ∈ sigTypes)).imp (fun h => ⟨h, rfl⟩) fun h => ⟨h, Or.inl h⟩
  | option hinner =>
    exact Or.inr ⟨optionStructName_not_mem_sigTypes _, Or.inl (signatureText_not_mem_sigTypes _ _)⟩

theorem mem_sigTypes_of_integerType {ty : String} {a : Bool × ℕ} (h : integerType ty = some a) :
    ty ∈ sigTypes := by
  have hall : ∀ p ∈ integerTypes, p.1 ∈ sigTypes := by decide
  obtain ⟨before, after, hsplit, -⟩ := List.lookup_eq_some_iff.mp h
  refine hall (ty, a) ?_
  rw [hsplit]
  exact List.mem_append_right before List.mem_cons_self

theorem inferSigType_mem (scratch : LetBindings) (arg : Expr) :
    inferSigType scratch arg ∈ sigTypes := by
  rcases inferSigType_cases scratch arg with ⟨s, hs, -, heq⟩ | ⟨-, heq⟩
  · exact heq ▸ hs
  · exact heq ▸ by decide

/-- **The guess is the declared type** of a well-typed argument exactly when the argument fits
    its parameter. -/
theorem inferSigType_eq_iff {types : SolTypes} {scope : SolScope} {param : SolTy} {s : String}
    (habi : AbiOf types scope param s) {scratch : LetBindings} {typeOf : Expr → String} {arg : Expr}
    (hconv : Converts (argType scratch typeOf arg) param.text) :
    inferSigType scratch arg = s ↔ ArgFits scratch arg param := by
  rw [ArgFits]
  rcases habi.cases_sigTypes with ⟨hmem, rfl⟩ | ⟨hmem, hs⟩
  · split
    · rename_i hword
      rw [hword]
      rcases inferSigType_cases scratch arg with ⟨t, ht, hshow, heq⟩ | ⟨hnone, heq⟩
      · rw [heq]
        exact ⟨fun h t' _ hshow' => (hshow'.unique hshow).trans h, fun h => h t ht hshow⟩
      · exact iff_of_true heq fun t ht hshow => absurd hshow (hnone t ht)
    · rename_i hword
      rcases inferSigType_cases scratch arg with ⟨t, ht, hshow, heq⟩ | ⟨hnone, heq⟩
      · rw [heq]
        exact ⟨fun h => ⟨hmem, h ▸ hshow⟩, fun h => hshow.unique h.2⟩
      · exact iff_of_false (fun h => hword (h.symm.trans heq)) fun h => hnone _ hmem h.2
  · have hword : param.text ≠ "uint256" := fun h => hmem (h ▸ by decide)
    rw [if_neg hword]
    refine iff_of_false (fun heq => ?_) fun h => hmem h.1
    rcases hs with hs | rfl
    · exact hs (heq ▸ inferSigType_mem scratch arg)
    · rcases inferSigType_cases scratch arg with ⟨t, -, hshow, ht⟩ | ⟨-, ht⟩
      · -- an enum takes no argument that shows a number
        rw [heq] at ht
        rw [← ht] at hshow
        rw [hshow.argType_eq] at hconv
        rcases hconv with htext | ⟨a, b, -, hb, -⟩
        · exact hmem (htext ▸ by decide)
        · exact hmem (mem_sigTypes_of_integerType hb)
      · rw [heq] at ht
        exact absurd ht (by decide)

/-! ### Joined types -/

theorem count_intercalate {β : Type} [BEq β] [LawfulBEq β] (sep : β) (xs : List (List β)) :
    ([sep].intercalate xs).count sep = (xs.length - 1) + (xs.map (List.count sep)).sum := by
  induction xs with
  | nil => rfl
  | cons x xs ih =>
    cases xs with
    | nil => simp
    | cons y xs =>
      rw [List.intercalate_cons_cons, List.count_append, List.count_append, ih]
      simp
      omega

/-- Lists of texts as long as each other, one of them without separators, are one when they are
    joined to the same text. -/
theorem intercalate_inj {β : Type} [BEq β] [LawfulBEq β] {sep : β} {xs ys : List (List β)}
    (hlen : xs.length = ys.length) (hx : ∀ x ∈ xs, sep ∉ x)
    (h : [sep].intercalate xs = [sep].intercalate ys) : xs = ys := by
  have hcount := congrArg (List.count sep) h
  have hzero : (xs.map (List.count sep)).sum = 0 :=
    List.sum_eq_zero fun n hn => by
      obtain ⟨x, hmem, rfl⟩ := List.mem_map.mp hn
      exact List.count_eq_zero.mpr (hx x hmem)
  rw [count_intercalate, count_intercalate, hlen, hzero] at hcount
  have hsum : (ys.map (List.count sep)).sum = 0 := by omega
  have hy : ∀ y ∈ ys, sep ∉ y := fun y hy =>
    List.count_eq_zero.mp (List.sum_eq_zero_iff.mp hsum _ (List.mem_map_of_mem hy))
  cases xs with
  | nil => exact (List.length_eq_zero_iff.mp hlen.symm).symm
  | cons x xs =>
    have hne : ys ≠ [] := fun hnil => by
      rw [hnil] at hlen
      cases hlen
    rw [← List.splitOn_intercalate sep hx (List.cons_ne_nil x xs), h,
      List.splitOn_intercalate sep hy hne]

/-- The sanitized name of a function is the name, or starts with another character. -/
theorem solSanitizeIdent_cases (name : String) :
    solSanitizeIdent name = name ∨
      name ∈ solReserved ∧ solSanitizeIdent name = "_" ++ name := by
  rw [solSanitizeIdent]
  split
  · exact Or.inr ⟨List.contains_iff_mem.mp ‹_›, rfl⟩
  · exact Or.inl rfl

theorem toList_signatureText (name : String) (ss : List String) :
    (signatureText name ss).toList =
      name.toList ++ '(' :: ([','].intercalate (ss.map String.toList) ++ [')']) := by
  rw [signatureText, String.toList_append, String.toList_append, String.toList_append,
    String.toList_intercalate, List.append_assoc, List.append_assoc]
  rfl

/-- Another character in front moves the stop. -/
theorem append_ne_cons_append {α : Type} {c stop : α} (hc : c ≠ stop) (l : List α) {xs ys : List α} :
    l ++ stop :: xs ≠ c :: (l ++ stop :: ys) := by
  induction l generalizing c with
  | nil => exact fun h => hc (List.cons.inj h).1.symm
  | cons d l ih =>
    intro h
    obtain ⟨rfl, hrest⟩ := List.cons.inj h
    exact ih hc hrest

/-- **A signature determines its parts**, the types on one side being without commas. -/
theorem signatureText_eq_iff {name : String} {ss ss' : List String} (hlen : ss.length = ss'.length)
    (hcomma : ∀ s ∈ ss, ',' ∉ s.toList) :
    signatureText name ss = signatureText (solSanitizeIdent name) ss' ↔
      solSanitizeIdent name = name ∧ ss = ss' := by
  constructor
  · intro h
    rcases solSanitizeIdent_cases name with hname | ⟨hmem, hname⟩
    · refine ⟨hname, ?_⟩
      have htext := congrArg String.toList h
      rw [hname, toList_signatureText, toList_signatureText, List.append_cancel_left_eq,
        List.cons.injEq, List.append_cancel_right_eq] at htext
      have hmap : ss.map String.toList = ss'.map String.toList := by
        refine intercalate_inj ?_ ?_ htext.2
        · rw [List.length_map, List.length_map, hlen]
        · intro x hx
          obtain ⟨s, hs, rfl⟩ := List.mem_map.mp hx
          exact hcomma s hs
      exact List.map_injective_iff.mpr (fun a b => String.toList_inj.mp) hmap
    · have htext := congrArg String.toList h
      rw [hname, toList_signatureText, toList_signatureText, String.toList_append,
        List.append_assoc] at htext
      exact absurd htext (append_ne_cons_append (by decide) _)
  · rintro ⟨hname, rfl⟩
    rw [hname]

/-! ### Untyped sends -/

section Sends

variable (program : Program) (callee : Entity) (target : Route)

/-- The printed types of the parameters in the interface of the callee. -/
def interfaceTypes : List SolTy := target.params.map fun p => solTypeEntity program callee p.ty

/-- What is asked of an untyped send: its data has the signature of the route in the interface,
    and each argument is encoded as a value of its parameter's type. -/
def ReachesRoute {V : Type} (encodeOther : String → V → List ℕ) (abi : List String)
    (typeOf : Expr → String) (args : List Expr) (scratch : LetBindings) (sent : EmittedSend) : Prop :=
  sent = .encodedCall (signatureText (solSanitizeIdent target.name) abi) args ∧
    List.Forall₂ (fun arg param => ∀ v : AbiValue V, v.Has (argType scratch typeOf arg) →
      abiEncode encodeOther (argType scratch typeOf arg) v = abiEncode encodeOther param.text v)
      args (interfaceTypes program callee target)

variable {program callee target}

theorem AbiOfAll.length_eq {types : SolTypes} {scope : SolScope} {tys : List SolTy} {ss : List String}
    (h : AbiOfAll types scope tys ss) : tys.length = ss.length := by
  induction tys generalizing ss with
  | nil =>
    cases h
    rfl
  | cons ty tys ih =>
    cases h with
    | cons _ htys => exact congrArg (· + 1) (ih htys)

theorem abiEncode_of_converts {V : Type} (encodeOther : String → V → List ℕ) {given declared : String}
    (h : Converts given declared) (v : AbiValue V) (hv : v.Has given) :
    abiEncode encodeOther given v = abiEncode encodeOther declared v := by
  rcases h with rfl | ⟨a, b, ha, -, -⟩
  · rfl
  · cases v with
    | number n => rfl
    | other v =>
      rw [AbiValue.Has, ha] at hv
      cases hv

theorem map_inferSigType_eq_iff {types : SolTypes} {scope : SolScope} {tys : List SolTy}
    {ss : List String} (habi : AbiOfAll types scope tys ss) {scratch : LetBindings}
    {typeOf : Expr → String} {args : List Expr}
    (hargs : List.Forall₂ (fun arg ty => Converts (argType scratch typeOf arg) ty.text) args tys) :
    args.map (inferSigType scratch) = ss ↔ List.Forall₂ (ArgFits scratch) args tys := by
  induction hargs generalizing ss with
  | nil =>
    cases habi
    exact iff_of_true rfl .nil
  | cons harg _ ih =>
    cases habi with
    | cons hty htys =>
      rw [List.map_cons, List.cons.injEq, inferSigType_eq_iff hty harg, ih htys,
        List.forall₂_cons]

/-- A route with these parameters and actions, and nothing else. -/
def plainRoute (name : String) (params : List Param) (actions : List RouteAction) : Route :=
  { name := name, params := params, fromClauses := [], whereClauses := [], returnType := none,
    body := .unphased actions, isView := false, isPure := false, isInit := false,
    isAccept := false, isPrivate := false, recoverTag := none, factoryOnly := false }

/-- `ping(a: address)` of the callee. -/
def pingRoute : Route := plainRoute "ping" [⟨"a", .simple "address"⟩] []

def pingTarget : Entity :=
  { name := "Target", records := [], enums := [], typeAliases := [], constants := [], macros := [],
    routes := [pingRoute], members := [] }

/-- `go(to: address)`, which sends `ping(owner) ~> to` with a member and `ping(to) ~> to`. -/
def goRoute : Route :=
  plainRoute "go" [⟨"to", .simple "address"⟩]
    [.send (some "ping") [.ident "owner"] (.ident "to") none,
      .send (some "ping") [.ident "to"] (.ident "to") none]

def pingSender : Entity :=
  { name := "Sender", records := [], enums := [], typeAliases := [], constants := [], macros := [],
    routes := [goRoute],
    members := [{ name := "owner", ty := .simple "address", isIdentity := false,
                  defaultValue := none, transforms := [] }] }

def pingProgram : Program :=
  { imports := [], pureFns := [], typeAliases := [], records := [], enums := [],
    entities := [pingTarget, pingSender], externEntities := [], libraries := [] }

/-- The `let` table at the sends of `go`. -/
def goBindings : LetBindings := [("to", "address")]

end Sends

end CambrianLang.Solidity
