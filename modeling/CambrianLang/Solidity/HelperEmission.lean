/-
  **Emitted helpers and emitted calls** (`gen_stdlib_helpers`, `gen_std_call_evm`).

  The back end writes a helper into the file when one of the searches of
  `HelperDetection` finds a use of it.  The calls themselves are written wherever
  expressions are lowered, and that is in more places than the searches look at.
-/
import CambrianLang.Solidity.HelperDetection

namespace CambrianLang.Solidity

open Ast Relation

/-- `STD_MATH_PREFIXED`. -/
inductive StdMathFn where
  | min | max | clamp | divc | divr | divmod
deriving DecidableEq

def StdMathFn.name : StdMathFn → String
  | .min => "min"
  | .max => "max"
  | .clamp => "clamp"
  | .divc => "divc"
  | .divr => "divr"
  | .divmod => "divmod"

def StdMathFn.all : List StdMathFn := [.min, .max, .clamp, .divc, .divr, .divmod]

theorem StdMathFn.mem_all (f : StdMathFn) : f ∈ StdMathFn.all := by
  cases f <;> decide

/-- The helper texts. -/
inductive Helper where
  | bare (f : StdMathFn)
  | prefixed (f : StdMathFn)
  | muldiv | muldivmod | pow | modpow2 | abs | sign
  | tryParseRadix | tryParseRadixSigned
  | itoa | formatPad6 | stringSplit | bytesToU8s
deriving DecidableEq

/-- The functions a helper text defines, overloads counted once. -/
def Helper.functions : Helper → List String
  | .bare f => [f.name]
  | .prefixed f => ["_cam_std_" ++ f.name]
  | .muldiv =>
      ["_cam_muldiv", "_cam_u512_mul", "_cam_u512_mul_lo", "_cam_u512_mul_hi", "_cam_u512_div_u256",
        "_cam_u512_gte", "_cam_u512_sub", "_cam_u512_shl_u256", "_cam_clz"]
  | .muldivmod => ["_cam_muldivmod"]
  | .pow => ["_cam_pow"]
  | .modpow2 => ["_cam_modpow2"]
  | .abs => ["_cam_abs"]
  | .sign => ["_cam_sign"]
  | .tryParseRadix => ["_cam_try_parse_radix", "_cam_parse_radix_or_zero"]
  | .tryParseRadixSigned => ["_cam_try_parse_radix_signed", "_cam_parse_radix_signed_or_zero"]
  | .itoa => ["_cam_itoa"]
  | .formatPad6 => ["_cam_format_pad6"]
  | .stringSplit => ["_cam_string_split", "_cam_string_slice"]
  | .bytesToU8s => ["_cam_bytes_to_u8s"]

/-- The other helpers a helper text calls. -/
def Helper.uses : Helper → List Helper
  | .muldivmod => [.muldiv]
  | .formatPad6 => [.itoa]
  | _ => []

/-! ### Emission -/

def needsMuldiv (program : Program) : Bool :=
  stdlibFnUsedInProgram program "muldiv" || stdNsCallUsedInProgram program "std::math" "muldiv" ||
    stdNsCallUsedInProgram program "std::math" "muldivmod"

/-- `STDLIB_FN_NAMES`. -/
def stdlibFnNames : List Helper :=
  [.bare .min, .bare .max, .bare .clamp, .muldiv, .bare .divc, .bare .divr, .bare .divmod]

/-- A name the program defines itself is left to the program. -/
def bareUsed (program : Program) : Helper → Bool
  | .bare f =>
      !(program.pureFns.any (·.name == f.name)) && stdlibFnUsedInProgram program f.name
  | _ => needsMuldiv program

def prefixedUsed (program : Program) (f : StdMathFn) : Bool :=
  stdNsCallUsedInProgram program "std::math" f.name ||
    (stdNsCallUsedInProgram program "std::math" "minmax" && (f == .min || f == .max))

def emitWhen (used : Bool) (helpers : List Helper) : List Helper := if used then helpers else []

/-- `gen_std_ns_evm_helpers`. -/
def genStdNsEvmHelpers (program : Program) : List Helper :=
  emitWhen (stdNsCallUsedInProgram program "std::math" "pow") [.pow] ++
  emitWhen (stdNsCallUsedInProgram program "std::math" "modpow2") [.modpow2] ++
  emitWhen (stdNsCallUsedInProgram program "std::math" "abs") [.abs] ++
  emitWhen (stdNsCallUsedInProgram program "std::math" "sign") [.sign] ++
  emitWhen (stdNsCallUsedInProgram program "std::math" "muldivmod") [.muldivmod] ++
  emitWhen (stdStrParseUsedInProgram program)
    (.tryParseRadix :: emitWhen (stdStrParseNeedsSignedHelper program) [.tryParseRadixSigned]) ++
  emitWhen (stdNsCallUsedInProgram program "std::str" "format")
    (.itoa :: emitWhen (stdFormatPad6UsedInProgram program) [.formatPad6])

/-- `gen_stdlib_helpers`. -/
def genStdlibHelpers (program : Program) : List Helper :=
  stdlibFnNames.filter (bareUsed program) ++
  (StdMathFn.all.filter (prefixedUsed program)).map .prefixed ++
  emitWhen (methodUsedInProgram program "split") [.stringSplit] ++
  emitWhen (stdNsCallUsedInProgram program "std::crypto" "sha256") [.bytesToU8s] ++
  genStdNsEvmHelpers program

/-- How often the file defines a function of that name: in a helper or as a pure function. -/
def definedTimes (program : Program) (name : String) : Nat :=
  ((genStdlibHelpers program).flatMap Helper.functions).count name +
    (program.pureFns.map (·.name)).count name

/-! ### Calls -/

/-- The text contains `\x7b\x7d`. -/
def hasHole : List Char → Bool
  | [] => false
  | c :: cs => (c == '\x7b' && cs.head? == some '\x7d') || hasHole cs

/-- The text ends in its only `\x7b\x7d`. -/
def endsInOnlyHole (s : String) : Bool :=
  match s.toList.reverse with
  | close :: opening :: front => close == '\x7d' && opening == '\x7b' && !hasHole front.reverse
  | _ => false

/-- `gen_std_format_evm`; any other format becomes a call of `_cam_format`, which is no helper. -/
def formatHelpers : List Expr → List Helper
  | [.stringLiteral s, _] =>
      if s = "\x7b:06\x7d" then [.formatPad6] else if endsInOnlyHole s then [.itoa] else []
  | _ => []

/-- The `std::math` arms of `gen_std_call_evm`. -/
def mathHelpers : String → List Helper
  | "min" => [.prefixed .min]
  | "max" => [.prefixed .max]
  | "clamp" => [.prefixed .clamp]
  | "muldiv" => [.muldiv]
  | "divc" => [.prefixed .divc]
  | "divr" => [.prefixed .divr]
  | "divmod" => [.prefixed .divmod]
  | "abs" => [.abs]
  | "sign" => [.sign]
  | "minmax" => [.prefixed .min, .prefixed .max]
  | "muldivmod" => [.muldivmod]
  | "pow" => [.pow]
  | "modpow2" => [.modpow2]
  | _ => []

/-- `gen_std_call_evm`. -/
def stdCallHelpers (ns name : String) (args : List Expr) : List Helper :=
  if ns = "std::str" then
    match parseStrMeta name with
    | some info => [if info.signed then .tryParseRadixSigned else .tryParseRadix]
    | none => if name = "format" then formatHelpers args else []
  else if ns = "std::math" then mathHelpers name
  else []

/-- The libraries that declare a function, once for each declaration. -/
def libraryOwners (program : Program) (name : String) : List String :=
  program.libraries.flatMap fun l => (l.pureFns.filter (·.name == name)).map fun _ => l.name

/-- A call `name(..)` that is written without a library: not the function of exactly one
    library, nor one of the library it stands in. -/
def isUnqualified (program : Program) (scope : Option LibraryDecl) (name : String) : Bool :=
  (libraryOwners program name).length != 1 &&
    !(scope.any fun l => l.pureFns.any (·.name == name))

/-- The helpers the lowering of a call names. -/
def callHelpers (program : Program) (scope : Option LibraryDecl) : Expr → List Helper
  | .fnCall name _ =>
      if isUnqualified program scope name then
        (StdMathFn.all.filter (·.name == name)).map .bare
      else []
  | .namespacedCall ns name args _ => stdCallHelpers ns name args
  | .methodCall _ method [_] => if method = "split" then [.stringSplit] else []
  | _ => []

/-- The subexpressions that are lowered with an expression: there is no lowering of `encode`,
    and `address_of` is lowered to its arguments, under deterministic addresses only. -/
def loweredChildren (deterministic : Bool) : Expr → List Expr
  | .encode .. => []
  | .addressOf _ args _ => if deterministic then args else []
  | e => e.children

/-- The error arguments of a `from` check: those of the first clause, when all clauses
    share one error name. -/
def fromErrorArgs (route : Route) : List Expr :=
  match route.fromClauses with
  | [] => []
  | first :: rest =>
      match first.errorName with
      | some err => if rest.all (·.errorName == some err) then first.errorArgs else []
      | none => []

/-- The expressions that are lowered, each with the library it stands in. -/
inductive EmittedIn (program : Program) : Option LibraryDecl → Expr → Prop
  | whereCondition {ent : Entity} {r : Route} {w : WhereClause} :
      ent ∈ program.entities → r ∈ ent.routes → w ∈ r.whereClauses →
      EmittedIn program none w.condition
  | whereErrorArg {ent : Entity} {r : Route} {w : WhereClause} {e : Expr} :
      ent ∈ program.entities → r ∈ ent.routes → w ∈ r.whereClauses → w.errorName.isSome = true →
      e ∈ w.errorArgs → EmittedIn program none e
  | fromArg {ent : Entity} {r : Route} {fc : FromClause} {e : Expr} :
      ent ∈ program.entities → r ∈ ent.routes → fc ∈ r.fromClauses → fc.kind = .entity →
      e ∈ fc.args → EmittedIn program none e
  | fromErrorArg {ent : Entity} {r : Route} {e : Expr} :
      ent ∈ program.entities → r ∈ ent.routes → e ∈ fromErrorArgs r → EmittedIn program none e
  | phaseCondition {ent : Entity} {r : Route} {p : PhaseBlock} {w : WhereClause} :
      ent ∈ program.entities → r ∈ ent.routes → p ∈ r.body.phaseBlocks → w ∈ p.whereClauses →
      EmittedIn program none w.condition
  | phaseErrorArg {ent : Entity} {r : Route} {p : PhaseBlock} {w : WhereClause} {e : Expr} :
      ent ∈ program.entities → r ∈ ent.routes → p ∈ r.body.phaseBlocks → w ∈ p.whereClauses →
      w.errorName.isSome = true → e ∈ w.errorArgs → EmittedIn program none e
  | action {ent : Entity} {r : Route} {a b : RouteAction} {e : Expr} :
      ent ∈ program.entities → r ∈ ent.routes → a ∈ r.body.allActions → Subaction a b →
      e ∈ b.exprs → EmittedIn program none e
  | transform {ent : Entity} {m : Member} {t : MemberTransform} :
      ent ∈ program.entities → m ∈ ent.members → t ∈ m.transforms → EmittedIn program none t.body
  | default {ent : Entity} {m : Member} {e : Expr} :
      ent ∈ program.entities → m ∈ ent.members → m.defaultValue = some e → EmittedIn program none e
  | macroBody {ent : Entity} {mac : Macro} :
      ent ∈ program.entities → mac ∈ ent.macros → EmittedIn program none mac.body
  | constant {ent : Entity} {c : Const} :
      ent ∈ program.entities → c ∈ ent.constants → EmittedIn program none c.value
  | pureFn {pf : PureFn} : pf ∈ program.pureFns → EmittedIn program none pf.body
  | libraryFn {l : LibraryDecl} {pf : PureFn} :
      l ∈ program.libraries → pf ∈ l.pureFns → EmittedIn program (some l) pf.body
  | libraryConstant {l : LibraryDecl} {c : Const} :
      l ∈ program.libraries → c ∈ l.constants → EmittedIn program (some l) c.value

/-- From an expression to one that is lowered with it. -/
def Lowers (deterministic : Bool) : Expr → Expr → Prop :=
  ReflTransGen fun a b => b ∈ loweredChildren deterministic a

/-- The helpers named in the emitted file. -/
inductive Referenced (program : Program) (deterministic : Bool) : Helper → Prop
  | call {scope : Option LibraryDecl} {e c : Expr} {h : Helper} : EmittedIn program scope e →
      Lowers deterministic e c → h ∈ callHelpers program scope c → Referenced program deterministic h
  /-- A `Vec<u8>` member assigned a digest. -/
  | bytes {ent : Entity} {m : Member} {t : MemberTransform} {args : List Expr} {tys : List Ty} :
      ent ∈ program.entities → m ∈ ent.members → m.ty = .generic "Vec" [.simple "u8"] →
      t ∈ m.transforms → t.body = .namespacedCall "std::crypto" "sha256" args tys →
      Referenced program deterministic .bytesToU8s
  | body {h h' : Helper} : h ∈ genStdlibHelpers program → h' ∈ h.uses →
      Referenced program deterministic h'

/-- Every function of every helper named in the file is defined in it, once. -/
def HelpersDefinedOnce (program : Program) (deterministic : Bool) : Prop :=
  ∀ h, Referenced program deterministic h → ∀ f ∈ h.functions, definedTimes program f = 1

/-! ### When a helper is emitted -/

/-- The search whose going past a call of the helper causes its emission. -/
def Helper.descent : Helper → Descent
  | .bare _ => stdlibFnDescent
  | .tryParseRadix | .tryParseRadixSigned => stdStrParseDescent
  | .formatPad6 => formatPad6Descent
  | .stringSplit => methodDescent
  | .prefixed _ | .muldiv | .muldivmod | .pow | .modpow2 | .abs | .sign | .itoa | .bytesToU8s =>
      stdNsDescent

/-- What makes the back end emit a helper, the program's own functions aside. -/
inductive Provoked (program : Program) : Helper → Prop
  | bare {f : StdMathFn} {c : Expr} : (∀ pf ∈ program.pureFns, pf.name ≠ f.name) →
      stdlibFnDescent.Sees program c → isFnCall f.name c = true → Provoked program (.bare f)
  | prefixed {f : StdMathFn} {c : Expr} : stdNsDescent.Sees program c →
      isStdCall "std::math" f.name c = true → Provoked program (.prefixed f)
  | minmax {f : StdMathFn} {c : Expr} : stdNsDescent.Sees program c →
      isStdCall "std::math" "minmax" c = true → f = .min ∨ f = .max → Provoked program (.prefixed f)
  | bareMuldiv {c : Expr} : stdlibFnDescent.Sees program c → isFnCall "muldiv" c = true →
      Provoked program .muldiv
  | muldiv {c : Expr} : stdNsDescent.Sees program c → isStdCall "std::math" "muldiv" c = true →
      Provoked program .muldiv
  | muldivForMod {c : Expr} : stdNsDescent.Sees program c →
      isStdCall "std::math" "muldivmod" c = true → Provoked program .muldiv
  | muldivmod {c : Expr} : stdNsDescent.Sees program c →
      isStdCall "std::math" "muldivmod" c = true → Provoked program .muldivmod
  | pow {c : Expr} : stdNsDescent.Sees program c → isStdCall "std::math" "pow" c = true →
      Provoked program .pow
  | modpow2 {c : Expr} : stdNsDescent.Sees program c → isStdCall "std::math" "modpow2" c = true →
      Provoked program .modpow2
  | abs {c : Expr} : stdNsDescent.Sees program c → isStdCall "std::math" "abs" c = true →
      Provoked program .abs
  | sign {c : Expr} : stdNsDescent.Sees program c → isStdCall "std::math" "sign" c = true →
      Provoked program .sign
  | parse {c : Expr} : stdStrParseDescent.Sees program c → isStdStrParse c = true →
      Provoked program .tryParseRadix
  | parseSigned {c : Expr} : stdStrParseDescent.Sees program c → isStdStrParse c = true →
      SignedParseSuspected program → Provoked program .tryParseRadixSigned
  | format {c : Expr} : stdNsDescent.Sees program c → isStdCall "std::str" "format" c = true →
      Provoked program .itoa
  | pad6 {c c' : Expr} : stdNsDescent.Sees program c → isStdCall "std::str" "format" c = true →
      formatPad6Descent.Sees program c' → isFormatPad6 c' = true → Provoked program .formatPad6
  | split {c : Expr} : methodDescent.Sees program c → isMethodCall "split" c = true →
      Provoked program .stringSplit
  | bytes {c : Expr} : stdNsDescent.Sees program c → isStdCall "std::crypto" "sha256" c = true →
      Provoked program .bytesToU8s

/-- The condition under which `gen_stdlib_helpers` writes a helper. -/
def emits (program : Program) : Helper → Bool
  | .bare f => bareUsed program (.bare f)
  | .prefixed f => prefixedUsed program f
  | .muldiv => needsMuldiv program
  | .muldivmod => stdNsCallUsedInProgram program "std::math" "muldivmod"
  | .pow => stdNsCallUsedInProgram program "std::math" "pow"
  | .modpow2 => stdNsCallUsedInProgram program "std::math" "modpow2"
  | .abs => stdNsCallUsedInProgram program "std::math" "abs"
  | .sign => stdNsCallUsedInProgram program "std::math" "sign"
  | .tryParseRadix => stdStrParseUsedInProgram program
  | .tryParseRadixSigned =>
      stdStrParseUsedInProgram program && stdStrParseNeedsSignedHelper program
  | .itoa => stdNsCallUsedInProgram program "std::str" "format"
  | .formatPad6 =>
      stdNsCallUsedInProgram program "std::str" "format" && stdFormatPad6UsedInProgram program
  | .stringSplit => methodUsedInProgram program "split"
  | .bytesToU8s => stdNsCallUsedInProgram program "std::crypto" "sha256"

theorem mem_emitWhen {used : Bool} {h : Helper} {hs : List Helper} :
    h ∈ emitWhen used hs ↔ used = true ∧ h ∈ hs := by
  cases used <;> simp [emitWhen]

theorem emits_iff_mem {program : Program} {h : Helper} :
    h ∈ genStdlibHelpers program ↔ emits program h = true := by
  cases h with
  | bare f =>
    cases f <;> simp [genStdlibHelpers, genStdNsEvmHelpers, mem_emitWhen, stdlibFnNames, emits]
  | prefixed f =>
    simp [genStdlibHelpers, genStdNsEvmHelpers, mem_emitWhen, stdlibFnNames, emits, StdMathFn.mem_all]
  | _ =>
    simp [genStdlibHelpers, genStdNsEvmHelpers, mem_emitWhen, stdlibFnNames, emits, bareUsed]

theorem noPureFn_iff {program : Program} {name : String} :
    (!(program.pureFns.any (·.name == name))) = true ↔ ∀ pf ∈ program.pureFns, pf.name ≠ name := by
  rw [Bool.not_eq_true', List.any_eq_false]
  exact forall₂_congr fun _ _ => by rw [beq_iff_eq]

/-- **Which helpers are emitted.** -/
theorem mem_genStdlibHelpers {program : Program} {h : Helper} :
    h ∈ genStdlibHelpers program ↔ Provoked program h := by
  rw [emits_iff_mem]
  constructor
  · intro hemits
    cases h with
    | bare f =>
      rw [emits, bareUsed, Bool.and_eq_true, noPureFn_iff, stdlibFnUsedInProgram,
        Descent.usedInProgram_iff] at hemits
      obtain ⟨hfree, c, hsees, hcall⟩ := hemits
      exact .bare hfree hsees hcall
    | prefixed f =>
      rw [emits, prefixedUsed, Bool.or_eq_true, Bool.and_eq_true, Bool.or_eq_true, beq_iff_eq,
        beq_iff_eq, stdNsCallUsedInProgram, stdNsCallUsedInProgram, Descent.usedInProgram_iff,
        Descent.usedInProgram_iff] at hemits
      rcases hemits with ⟨c, hsees, hcall⟩ | ⟨⟨c, hsees, hcall⟩, hf⟩
      · exact .prefixed hsees hcall
      · exact .minmax hsees hcall hf
    | muldiv =>
      rw [emits, needsMuldiv, Bool.or_eq_true, Bool.or_eq_true, stdlibFnUsedInProgram,
        stdNsCallUsedInProgram, stdNsCallUsedInProgram, Descent.usedInProgram_iff,
        Descent.usedInProgram_iff, Descent.usedInProgram_iff] at hemits
      rcases hemits with (⟨c, hsees, hcall⟩ | ⟨c, hsees, hcall⟩) | ⟨c, hsees, hcall⟩
      · exact .bareMuldiv hsees hcall
      · exact .muldiv hsees hcall
      · exact .muldivForMod hsees hcall
    | tryParseRadixSigned =>
      rw [emits, Bool.and_eq_true, stdStrParseUsedInProgram, Descent.usedInProgram_iff,
        stdStrParseNeedsSignedHelper_iff] at hemits
      obtain ⟨⟨c, hsees, hcall⟩, hsigned⟩ := hemits
      exact .parseSigned hsees hcall hsigned
    | formatPad6 =>
      rw [emits, Bool.and_eq_true, stdNsCallUsedInProgram, stdFormatPad6UsedInProgram,
        Descent.usedInProgram_iff, Descent.usedInProgram_iff] at hemits
      obtain ⟨⟨c, hsees, hcall⟩, c', hsees', hcall'⟩ := hemits
      exact .pad6 hsees hcall hsees' hcall'
    | muldivmod =>
      obtain ⟨c, hsees, hcall⟩ := (Descent.usedInProgram_iff _).mp hemits
      exact .muldivmod hsees hcall
    | pow =>
      obtain ⟨c, hsees, hcall⟩ := (Descent.usedInProgram_iff _).mp hemits
      exact .pow hsees hcall
    | modpow2 =>
      obtain ⟨c, hsees, hcall⟩ := (Descent.usedInProgram_iff _).mp hemits
      exact .modpow2 hsees hcall
    | abs =>
      obtain ⟨c, hsees, hcall⟩ := (Descent.usedInProgram_iff _).mp hemits
      exact .abs hsees hcall
    | sign =>
      obtain ⟨c, hsees, hcall⟩ := (Descent.usedInProgram_iff _).mp hemits
      exact .sign hsees hcall
    | tryParseRadix =>
      obtain ⟨c, hsees, hcall⟩ := (Descent.usedInProgram_iff _).mp hemits
      exact .parse hsees hcall
    | itoa =>
      obtain ⟨c, hsees, hcall⟩ := (Descent.usedInProgram_iff _).mp hemits
      exact .format hsees hcall
    | stringSplit =>
      obtain ⟨c, hsees, hcall⟩ := (Descent.usedInProgram_iff _).mp hemits
      exact .split hsees hcall
    | bytesToU8s =>
      obtain ⟨c, hsees, hcall⟩ := (Descent.usedInProgram_iff _).mp hemits
      exact .bytes hsees hcall
  · intro hprov
    have hns : ∀ {ns name : String} {c : Expr}, stdNsDescent.Sees program c →
        isStdCall ns name c = true → stdNsCallUsedInProgram program ns name = true :=
      fun hsees hcall => (Descent.usedInProgram_iff _).mpr ⟨_, hsees, hcall⟩
    cases hprov with
    | bare hfree hsees hcall =>
      rw [emits, bareUsed, Bool.and_eq_true, noPureFn_iff]
      exact ⟨hfree, (Descent.usedInProgram_iff _).mpr ⟨_, hsees, hcall⟩⟩
    | prefixed hsees hcall =>
      rw [emits, prefixedUsed, Bool.or_eq_true]
      exact Or.inl (hns hsees hcall)
    | minmax hsees hcall hf =>
      rw [emits, prefixedUsed, Bool.or_eq_true, Bool.and_eq_true, Bool.or_eq_true, beq_iff_eq,
        beq_iff_eq]
      exact Or.inr ⟨hns hsees hcall, hf⟩
    | bareMuldiv hsees hcall =>
      rw [emits, needsMuldiv, Bool.or_eq_true, Bool.or_eq_true]
      exact Or.inl (Or.inl ((Descent.usedInProgram_iff _).mpr ⟨_, hsees, hcall⟩))
    | muldiv hsees hcall =>
      rw [emits, needsMuldiv, Bool.or_eq_true, Bool.or_eq_true]
      exact Or.inl (Or.inr (hns hsees hcall))
    | muldivForMod hsees hcall =>
      rw [emits, needsMuldiv, Bool.or_eq_true, Bool.or_eq_true]
      exact Or.inr (hns hsees hcall)
    | parse hsees hcall => exact (Descent.usedInProgram_iff _).mpr ⟨_, hsees, hcall⟩
    | parseSigned hsees hcall hsigned =>
      rw [emits, Bool.and_eq_true, stdStrParseNeedsSignedHelper_iff]
      exact ⟨(Descent.usedInProgram_iff _).mpr ⟨_, hsees, hcall⟩, hsigned⟩
    | pad6 hsees hcall hsees' hcall' =>
      rw [emits, Bool.and_eq_true]
      exact ⟨hns hsees hcall, (Descent.usedInProgram_iff _).mpr ⟨_, hsees', hcall'⟩⟩
    | split hsees hcall => exact (Descent.usedInProgram_iff _).mpr ⟨_, hsees, hcall⟩
    | muldivmod hsees hcall => exact hns hsees hcall
    | pow hsees hcall => exact hns hsees hcall
    | modpow2 hsees hcall => exact hns hsees hcall
    | abs hsees hcall => exact hns hsees hcall
    | sign hsees hcall => exact hns hsees hcall
    | format hsees hcall => exact hns hsees hcall
    | bytes hsees hcall => exact hns hsees hcall

end CambrianLang.Solidity
