/-
  **Collecting parse errors** (`recover_parse_diagnostics`, `parse_recover.rs`).

  A file that does not parse is parsed again from a later position: from a keyword that the
  error points to, from the next place where a declaration may start, or, when there is none,
  from two bytes after the start of what was not understood.  The positions count bytes.  The
  first two kinds are found at ASCII characters; the third is taken as it comes, and slicing
  the text there panics when it is inside a character.

  The parser is generated and not modelled: any function from texts to errors will do.
-/
import CambrianLang.Lib.Utf8Text
import Mathlib.Algebra.GroupWithZero.Nat
import Mathlib.Logic.Relation

namespace CambrianLang.Project

open Utf8Text

/-! ### Parse errors and their diagnostics -/

inductive ParseError where
  | invalidToken (location : Nat)
  | unrecognizedEof (location : Nat) (expected : List String)
  | unrecognizedToken (start : Nat) (token : String) (stop : Nat) (expected : List String)
  | extraToken (start : Nat) (token : String) (stop : Nat)
  | user (error : String)
deriving DecidableEq

structure SourceSpan where
  byteStart : Nat
  byteEnd : Nat
  line : Nat
  column : Nat
deriving DecidableEq

/-- A `Diagnostic` of the parse phase; its severity is always an error. -/
structure ParseDiagnostic where
  code : String
  message : String
  path : String
  span : Option SourceSpan
  unexpected : Option String
  expected : Option (List String)
deriving DecidableEq

/-- The positions after line breaks, in a text that starts at the given one. -/
def lineStartsFrom : Nat → List Char → List Nat
  | _, [] => []
  | i, c :: text =>
      if c = '\n' then (i + 1) :: lineStartsFrom (i + c.utf8Size) text
      else lineStartsFrom (i + c.utf8Size) text

/-- `SourceMapper::new`. -/
def lineStarts (source : List Char) : List Nat := 0 :: lineStartsFrom 0 source

/-- `line_of`: the search ends behind the last line that starts at the offset or before. -/
def lineOf (starts : List Nat) (offset : Nat) : Nat := starts.countP (· ≤ offset)

/-- `column_of`. -/
def columnOf (starts : List Nat) (offset : Nat) : Nat :=
  offset - (starts[lineOf starts offset - 1]?).getD 0 + 1

/-- `span_from_source`. -/
def spanFromSource (source : List Char) (byteStart byteEnd : Nat) : SourceSpan :=
  let mapper := lineStarts source
  { byteStart := byteStart
    byteEnd := max byteEnd byteStart
    line := lineOf mapper byteStart
    column := columnOf mapper byteStart }

def tvmOnlyTokens : List String := ["\"rescue\"", "\"recover\"", "\"onBounce\""]

/-- `diagnostic_from_parse_error`. -/
def diagnosticFromParseError (err : ParseError) (path : String) (source : List Char) (base : Nat) :
    ParseDiagnostic :=
  match err with
  | .invalidToken location =>
      { code := "PARSE_INVALID_TOKEN"
        message := "Invalid token at byte " ++ toString (location + base)
        path := path
        span := some (spanFromSource source (location + base) (location + base + 1))
        unexpected := none
        expected := none }
  | .unrecognizedEof location expected =>
      { code := "PARSE_EOF"
        message := "Unexpected end of file at byte " ++ toString (location + base)
        path := path
        span := some (spanFromSource source (location + base) (location + base))
        unexpected := none
        expected := some expected }
  | .unrecognizedToken start token stop expected =>
      { code := "PARSE_UNEXPECTED_TOKEN"
        message := "Unexpected token `" ++ token ++ "`"
        path := path
        span := some (spanFromSource source (start + base) (stop + base))
        unexpected := some token
        expected := some (expected.filter fun t => !tvmOnlyTokens.contains t) }
  | .extraToken start token stop =>
      { code := "PARSE_EXTRA_TOKEN"
        message := "Extra token `" ++ token ++ "`"
        path := path
        span := some (spanFromSource source (start + base) (stop + base))
        unexpected := some token
        expected := none }
  | .user error =>
      { code := "PARSE_USER", message := error, path := path, span := none, unexpected := none
        expected := none }

/-! ### Scanning bytes -/

def toplevelKws : List String :=
  ["entity", "pure", "test", "fuzz", "property", "invariant", "record", "enum", "type", "event",
    "error", "library", "extern", "import", "use", "const", "macro"]

def isToplevelKw (ident : List UInt8) : Bool := toplevelKws.any fun kw => bytes kw.toList == ident

/-- `is_ident_start`: an underscore or an ASCII letter. -/
def isIdentStart (c : UInt8) : Bool := c == 95 || (65 ≤ c && c ≤ 90) || (97 ≤ c && c ≤ 122)

/-- `is_ident_continue`. -/
def isIdentContinue (c : UInt8) : Bool := isIdentStart c || (48 ≤ c && c ≤ 57)

/-- `u8::is_ascii_whitespace`. -/
def isAsciiWhitespace (c : UInt8) : Bool := c == 32 || c == 9 || c == 10 || c == 12 || c == 13

/-- `skip_ws`. -/
def skipWs (src : List Char) (i : Nat) : Nat :=
  i + (((bytes src).drop i).takeWhile isAsciiWhitespace).length

/-- `read_ident`; `none` is a slice that panics. -/
def readIdent (src : List Char) (start : Nat) : Option (List UInt8 × Nat) :=
  match (bytes src)[start]? with
  | none => some ([], start)
  | some c =>
      if isIdentStart c then
        let stop := start + 1 + (((bytes src).drop (start + 1)).takeWhile isIdentContinue).length
        if IsBoundary src start ∧ IsBoundary src stop then
          some (((bytes src).take stop).drop start, stop)
        else none
      else some ([], start)

/-- Where a scan is: `in_str`, `in_line_comment` or neither. -/
inductive Lex where
  | code | string | lineComment
deriving DecidableEq

/-- The lines both scans start a round with: what a byte does inside or at the start of a
    string or a comment, and where the scan goes on. -/
def lexStep (bs : List UInt8) (lex : Lex) (i : Nat) (c : UInt8) : Option (Lex × Nat) :=
  match lex with
  | .lineComment => some (if c == 10 then .code else .lineComment, i + 1)
  | .string =>
      if c == 92 && i + 1 < bs.length then some (.string, i + 2)
      else some (if c == 34 then .code else .string, i + 1)
  | .code =>
      if c == 47 && bs[i + 1]? == some 47 then some (.lineComment, i + 2)
      else if c == 34 then some (.string, i + 1)
      else none

/-- `depth.saturating_sub(1)`. -/
def satPred (depth : Int32) : Int32 := if depth = Int32.minValue then depth else depth - 1

def depthLoop (bs : List UInt8) (stop : Nat) : Nat → Nat → Lex → Int32 → Option Int32
  | 0, _, _, _ => none
  | fuel + 1, i, lex, depth =>
      if i < stop then
        match bs[i]? with
        | none => none
        | some c =>
            match lexStep bs lex i c with
            | some (lex, j) => depthLoop bs stop fuel j lex depth
            | none =>
                if c == 123 then depthLoop bs stop fuel (i + 1) .code (depth + 1)
                else if c == 125 then depthLoop bs stop fuel (i + 1) .code (satPred depth)
                else depthLoop bs stop fuel (i + 1) .code depth
      else some depth

/-- `depth_before`. -/
def depthBefore (src : List Char) (stop : Nat) : Option Int32 :=
  depthLoop (bytes src) (min stop (byteLen src)) (byteLen src + 1) 0 .code 0

/-- The loop of `next_sync_point`; the inner `none` is that there is no such point. -/
def nextSyncLoop (src : List Char) (start : Nat) : Nat → Nat → Lex → Int32 → Option (Option Nat)
  | 0, _, _, _ => none
  | fuel + 1, i, lex, depth =>
      match (bytes src)[i]? with
      | none => some none
      | some c =>
          match lexStep (bytes src) lex i c with
          | some (lex, j) => nextSyncLoop src start fuel j lex depth
          | none =>
              if c == 125 then
                if satPred depth = 0 then some (some (skipWs src (i + 1)))
                else nextSyncLoop src start fuel (i + 1) .code (satPred depth)
              else if c == 93 || c == 59 then some (some (i + 1))
              else
                let depth := if c == 123 then depth + 1 else depth
                if depth = 0 ∧ isIdentStart c = true then
                  match readIdent src i with
                  | none => none
                  | some (ident, stop) =>
                      if isToplevelKw ident && start < stop then some (some i)
                      else nextSyncLoop src start fuel stop .code depth
                else nextSyncLoop src start fuel (i + 1) .code depth

/-- `next_sync_point`. -/
def nextSyncPoint (src : List Char) (start : Nat) : Option (Option Nat) :=
  if byteLen src ≤ start then some none
  else (depthBefore src start).bind (nextSyncLoop src start (byteLen src + 1) start .code)

/-! ### The loop -/

section Loop

variable {π : Type} (parse : List Char → Except ParseError π) (src : List Char) (path : String)
  (maxErrors : Nat)

structure LoopState where
  pos : Nat
  diags : List ParseDiagnostic
  guard : Nat

/-- Where the loop goes after a new diagnostic. -/
inductive Target where
  /-- A keyword at the error or a synchronization point. -/
  | resume (pos : Nat)
  /-- Neither: past the end of the error. -/
  | skip (pos : Nat)

/-- `end.saturating_add(1).max(pos + 1)`. -/
def pastEnd (stop pos : Nat) : Nat := max (min (stop + 1) (2 ^ 64 - 1)) (pos + 1)

/-- `from_kw`. -/
def fromKeyword (start pos : Nat) : Option (Option Nat) :=
  match sliceFrom src start with
  | none => some none
  | some rest =>
      (readIdent rest 0).map fun r => if isToplevelKw r.1 && pos < start then some start else none

def target (start stop pos : Nat) : Option Target := do
  match ← fromKeyword src start pos with
  | some kw => return .resume kw
  | none =>
      match ← nextSyncPoint src (max stop (pos + 1)) with
      | some n => return if pos < n then .resume n else .skip (pastEnd stop pos)
      | none => return .skip (pastEnd stop pos)

inductive Step where
  | done (diags : List ParseDiagnostic)
  | panicked
  | next (s : LoopState)

/-- The diagnostic of an error at a position, with the start and the end it counts with. -/
def errorAt (err : ParseError) (pos : Nat) : ParseDiagnostic × Nat × Nat :=
  let d := diagnosticFromParseError err path src pos
  (d, (d.span.map (·.byteStart)).getD pos, (d.span.map (·.byteEnd)).getD (pos + 1))

/-- The error is not one that is already listed. -/
def isNew (s : LoopState) (d : ParseDiagnostic) : Bool :=
  s.pos == 0 || !s.diags.any fun prev => prev.span == d.span && prev.code == d.code

/-- The test at the top of the loop. -/
def Stops (s : LoopState) : Prop :=
  maxErrors ≤ s.diags.length ∨ byteLen src ≤ s.pos ∨ byteLen src + 2 < s.guard

instance (s : LoopState) : Decidable (Stops src maxErrors s) :=
  inferInstanceAs (Decidable (_ ∨ _ ∨ _))

/-- One round of the loop. -/
def recoverStep (s : LoopState) : Step :=
  if Stops src maxErrors s then .done s.diags
  else match sliceFrom src s.pos with
  | none => .panicked
  | some slice =>
      match parse slice with
      | .ok _ => .done (if s.pos = 0 then [] else s.diags)
      | .error err =>
          let (d, start, stop) := errorAt src path err s.pos
          if isNew s d then
            match target src start stop s.pos with
            | none => .panicked
            | some (.resume p) => .next ⟨p, s.diags ++ [d], s.guard + 1⟩
            | some (.skip p) =>
                if byteLen src ≤ p then .done (s.diags ++ [d])
                else .next ⟨p, s.diags ++ [d], s.guard + 1⟩
          else .next ⟨pastEnd stop s.pos, s.diags, s.guard + 1⟩

inductive Outcome where
  | returned (diags : List ParseDiagnostic)
  | panicked

def recoverLoop : Nat → LoopState → Option Outcome
  | 0, _ => none
  | fuel + 1, s =>
      match recoverStep parse src path maxErrors s with
      | .done diags => some (.returned diags)
      | .panicked => some .panicked
      | .next s' => recoverLoop fuel s'

def start : LoopState := { pos := 0, diags := [], guard := 0 }

/-- `recover_parse_diagnostics`. -/
def recoverParseDiagnostics (fuel : Nat) : Option Outcome :=
  recoverLoop parse src path (min (max maxErrors 1) 10000) fuel start

end Loop

end CambrianLang.Project
