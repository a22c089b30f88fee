/-
  **The tokens of a text** (the `match` block of `cambrian.lalrpop`).

  The longest match wins, and a fixed text wins over a pattern of the same length.  Only
  words, numbers and the two string forms have matches of any length; which of them is
  possible shows in the first characters.
-/
import CambrianLang.Lib.Scanner
import Mathlib

namespace CambrianLang.Syntax

open Scanner

/-- A token: a fixed text, or a pattern with what it matched.  The texts of strings and bytes are
    those between the quotes. -/
inductive Tok where
  | sym (text : String)
  | ident (name : String)
  | int (digits : List Char)
  | hex (digits : List Char)
  | bin (digits : List Char)
  | str (raw : String)
  | bytes (raw : String)
deriving DecidableEq

def keywords : List String :=
  ["use", "import", "library", "using", "pure", "fn", "entity", "record", "enum", "const", "macro",
    "routes", "if", "else", "let", "in", "as", "match", "type", "view", "from", "true", "false",
    "some", "none", "array", "for", "init", "accept", "where", "throw", "return", "with",
    "onBounce", "identity", "deploy", "rescue", "recover", "private", "call", "var", "test",
    "expect", "effects", "skip", "registry", "fuzz", "property", "assume", "bound", "invariant",
    "action", "check", "senders", "ctx", "track", "derived", "exclude", "selectors",
    "advanceTime", "address_of", "cam_encode", "extern", "route", "event", "indexed", "emit",
    "error", "solidity_import"]

/-- The words that make one token with a `::` right behind them. -/
def scopeWords : List String := ["msg", "sys", "trace"]

/-- The fixed texts that are no words, longer ones before what they begin with. -/
def symbols : List String :=
  ["..=", "=>", "->", "~>", "::", "..", "&&", "||", "==", "!=", "<=", ">=", "<<", ">>", "+%", "-%",
    "*%", "+", "-", "*", "/", "%", "&", "|", "<", ">", "!", "@", "^", "#", "(", ")", "\x7b",
    "\x7d", "[", "]", ",", ":", ";", ".", "="]

/-- `[a-zA-Z_]`. -/
def wordStart (c : Char) : Bool := c.isAlpha || c == '_'

/-- `[a-zA-Z0-9_]`. -/
def wordChar (c : Char) : Bool := c.isAlphanum || c == '_'

/-- `[0-9a-fA-F]`. -/
def hexChar (c : Char) : Bool :=
  c.isDigit || ('a' ≤ c && c ≤ 'f') || ('A' ≤ c && c ≤ 'F')

/-- `\s`. -/
def spaceChar (c : Char) : Bool :=
  ('\t' ≤ c && c ≤ '\r') || c == ' ' || c == '\u0085' || c == '\u00a0' || c == '\u1680' ||
    ('\u2000' ≤ c && c ≤ '\u200a') || c == '\u2028' || c == '\u2029' || c == '\u202f' ||
    c == '\u205f' || c == '\u3000'

/-- What stands between the quotes, `cs` coming after the first one. -/
def quoted (cs : List Char) : Option (String × List Char) :=
  match cs.dropWhile (· ≠ '"') with
  | _ :: rest => some (String.ofList (cs.takeWhile (· ≠ '"')), rest)
  | [] => none

/-- The token of a word, `rest` coming behind it. -/
def wordToken (word : String) (rest : List Char) : Tok × List Char :=
  match scopeWords.contains word, word == "b", rest with
  | true, _, ':' :: ':' :: rest => (.sym (word ++ "::"), rest)
  | _, true, '"' :: rest' =>
    match quoted rest' with
    | some (raw, rest'') => (.bytes raw, rest'')
    | none => (.ident word, rest)
  | _, _, _ =>
    if keywords.contains word || word == "_" then (.sym word, rest) else (.ident word, rest)

/-- The token of a number that begins with these characters. -/
def numberToken (cs : List Char) : Tok × List Char :=
  let decimal := (Tok.int (cs.takeWhile fun c => c.isDigit || c == '_'),
    cs.dropWhile fun c => c.isDigit || c == '_')
  match cs with
  | '0' :: 'x' :: c :: rest =>
    if hexChar c then
      (.hex ('0' :: 'x' :: (c :: rest).takeWhile hexChar), (c :: rest).dropWhile hexChar)
    else decimal
  | '0' :: 'b' :: c :: rest =>
    if c == '0' || c == '1' then
      (.bin ('0' :: 'b' :: (c :: rest).takeWhile fun d => d == '0' || d == '1' || d == '_'),
        (c :: rest).dropWhile fun d => d == '0' || d == '1' || d == '_')
    else decimal
  | _ => decimal

/-- One match off the front: whitespace, a comment, or a token. -/
def nextMatch : List Char → Option (Option Tok × List Char)
  | [] => none
  | c :: cs =>
    if spaceChar c then some (none, cs.dropWhile spaceChar)
    else if c == '/' && cs.head? == some '/' then
      some (none, (cs.dropWhile fun d => d ≠ '\n' && d ≠ '\r').dropWhile fun d =>
        d == '\n' || d == '\r')
    else if wordStart c then
      let (t, rest) := wordToken (String.ofList ((c :: cs).takeWhile wordChar))
        ((c :: cs).dropWhile wordChar)
      some (some t, rest)
    else if c.isDigit then
      let (t, rest) := numberToken (c :: cs)
      some (some t, rest)
    else if c == '"' then (quoted cs).map fun (raw, rest) => (some (.str raw), rest)
    else
      (symbols.find? fun s => s.toList.isPrefixOf (c :: cs)).map fun s =>
        (some (.sym s), (c :: cs).drop s.length)

/-- The text has these tokens. -/
abbrev Lexes (cs : List Char) (ts : List Tok) : Prop := Scans nextMatch cs ts

/-! ### Words -/

/-- `Ident` matches. -/
def IsWord (name : String) : Prop :=
  ∃ c cs, name.toList = c :: cs ∧ wordStart c = true ∧ ∀ d ∈ cs, wordChar d = true

/-- The same of a text as a check. -/
def wordText : List Char → Bool
  | c :: cs => wordStart c && cs.all wordChar
  | [] => false

theorem isWord_of_wordText {name : String} (h : wordText name.toList = true) : IsWord name := by
  unfold wordText at h
  split at h
  · next c cs htext =>
    rw [Bool.and_eq_true] at h
    exact ⟨c, cs, htext, h.1, List.all_eq_true.mp h.2⟩
  · cases h

/-- The tokens that the lexer makes. -/
def Tok.Lexical : Tok → Prop
  | .ident name => IsWord name ∧ name ∉ keywords ∧ name ≠ "_"
  | .str raw | .bytes raw => '"' ∉ raw.toList
  | _ => True

theorem wordChar_of_wordStart {c : Char} (h : wordStart c = true) : wordChar c = true := by
  simp only [wordStart, wordChar, Char.isAlphanum, Bool.or_eq_true] at h ⊢
  tauto

theorem wordChar_of_hexChar {c : Char} (h : hexChar c = true) : wordChar c = true := by
  simp only [hexChar, wordChar, Char.isAlphanum, Char.isAlpha, Char.isUpper, Char.isLower,
    Char.isDigit, Char.le_def, UInt32.le_iff_toNat_le, Bool.or_eq_true, Bool.and_eq_true,
    decide_eq_true_eq, ge_iff_le, beq_iff_eq] at h ⊢
  rcases h with (hdigit | ⟨hlo, hhi⟩) | ⟨hlo, hhi⟩
  · exact .inl (.inr hdigit)
  · exact .inl (.inl (.inr ⟨hlo, hhi.trans (by decide)⟩))
  · exact .inl (.inl (.inl ⟨hlo, hhi.trans (by decide)⟩))

theorem toNat_of_wordStart {c : Char} (h : wordStart c = true) : 65 ≤ c.toNat ∧ c.toNat < 128 := by
  simp only [wordStart, Char.isAlpha, Char.isUpper, Char.isLower, Bool.or_eq_true,
    Bool.and_eq_true, decide_eq_true_eq, UInt32.le_iff_toNat_le, ge_iff_le, beq_iff_eq] at h
  rcases h with (⟨hlo, hhi⟩ | ⟨hlo, hhi⟩) | rfl
  · exact ⟨hlo, hhi.trans_lt (by decide)⟩
  · exact ⟨le_trans (by decide) hlo, hhi.trans_lt (by decide)⟩
  · decide

/-- The visible characters of ASCII are no whitespace. -/
theorem not_spaceChar {c : Char} (hlo : 33 ≤ c.toNat) (hhi : c.toNat < 128) :
    spaceChar c = false := by
  have hne : ∀ d : Char, (d.toNat < 33 ∨ 128 ≤ d.toNat) → (c == d) = false := by
    intro d hd
    rw [beq_eq_false_iff_ne]
    rintro rfl
    omega
  have hcontrol : ¬ c ≤ '\r' := by
    intro h
    have hle : c.toNat ≤ 13 := h
    omega
  have hwide : ¬ '\u2000' ≤ c := by
    intro h
    have hle : 8192 ≤ c.toNat := h
    omega
  simp only [spaceChar, hne ' ' (by decide), hne '\u0085' (by decide), hne '\u00a0' (by decide),
    hne '\u1680' (by decide), hne '\u2028' (by decide), hne '\u2029' (by decide),
    hne '\u202f' (by decide), hne '\u205f' (by decide), hne '\u3000' (by decide), hcontrol, hwide,
    decide_false, Bool.and_false, Bool.false_and, Bool.or_false]

theorem spaceChar_of_wordStart {c : Char} (h : wordStart c = true) : spaceChar c = false := by
  obtain ⟨hlo, hhi⟩ := toNat_of_wordStart h
  exact not_spaceChar (by omega) hhi

theorem digit_facts {c : Char} (h : c.isDigit = true) :
    spaceChar c = false ∧ c ≠ '/' ∧ wordStart c = false := by
  have hbounds : 48 ≤ c.toNat ∧ c.toNat ≤ 57 := by
    simp only [Char.isDigit, Bool.and_eq_true, decide_eq_true_eq, ge_iff_le,
      UInt32.le_iff_toNat_le] at h
    exact h
  refine ⟨not_spaceChar (by omega) (by omega), ?_, ?_⟩
  · rintro rfl
    revert h
    decide
  · rw [Bool.eq_false_iff]
    intro hstart
    have hlo := (toNat_of_wordStart hstart).1
    omega

theorem symbols_length : ∀ s ∈ symbols, 0 < s.length := by decide

/-! ### Matches are not empty -/

theorem length_dropWhile_le (p : Char → Bool) (cs : List Char) :
    (cs.dropWhile p).length ≤ cs.length :=
  (List.dropWhile_sublist p).length_le

theorem quoted_length {cs : List Char} {p : String × List Char} (h : quoted cs = some p) :
    p.2.length < cs.length := by
  unfold quoted at h
  split at h
  · next c rest hdrop =>
    cases h
    have hle := length_dropWhile_le (· ≠ '"') cs
    rw [hdrop, List.length_cons] at hle
    exact hle
  · cases h

theorem wordToken_length (word : String) (rest : List Char) :
    (wordToken word rest).2.length ≤ rest.length := by
  unfold wordToken
  split
  · simp only [List.length_cons]
    omega
  · split
    · next hquoted =>
      exact (quoted_length hquoted).le.trans (Nat.le_succ _)
    · exact le_rfl
  · split <;> exact le_rfl

theorem numberToken_length {c : Char} {cs : List Char} (h : c.isDigit = true) :
    (numberToken (c :: cs)).2.length < (c :: cs).length := by
  have hdecimal : ((c :: cs).dropWhile fun d => d.isDigit || d == '_').length <
      (c :: cs).length := by
    rw [List.dropWhile_cons_of_pos (by rw [h]; rfl), List.length_cons]
    exact Nat.lt_succ_of_le (length_dropWhile_le ..)
  have hafter : ∀ (p : Char → Bool) (a b d : Char) (rest : List Char),
      ((d :: rest).dropWhile p).length < (a :: b :: d :: rest).length := by
    intro p a b d rest
    have hle := length_dropWhile_le p (d :: rest)
    simp only [List.length_cons] at hle ⊢
    omega
  unfold numberToken
  dsimp only
  split
  · next d rest heq =>
    rw [heq] at hdecimal ⊢
    split
    · exact hafter hexChar _ _ d rest
    · exact hdecimal
  · next d rest heq =>
    rw [heq] at hdecimal ⊢
    split
    · exact hafter (fun d => d == '0' || d == '1' || d == '_') _ _ d rest
    · exact hdecimal
  · exact hdecimal

theorem nextMatch_shrinks : Shrinks nextMatch := by
  intro cs p h
  unfold nextMatch at h
  split at h
  · cases h
  · next c cs =>
    split at h
    · cases h
      exact Nat.lt_succ_of_le (length_dropWhile_le ..)
    · split at h
      · cases h
        exact Nat.lt_succ_of_le ((length_dropWhile_le ..).trans (length_dropWhile_le ..))
      · split at h
        · next hword =>
          cases h
          refine (wordToken_length ..).trans_lt ?_
          have hpos : wordChar c = true := wordChar_of_wordStart hword
          rw [List.dropWhile_cons_of_pos hpos]
          exact Nat.lt_succ_of_le (length_dropWhile_le ..)
        · split at h
          · next hdigit =>
            cases h
            exact numberToken_length hdigit
          · split at h
            · obtain ⟨q, hq, rfl⟩ := Option.map_eq_some_iff.mp h
              exact (quoted_length hq).trans (Nat.lt_succ_self _)
            · obtain ⟨s, hs, rfl⟩ := Option.map_eq_some_iff.mp h
              have hlength : 0 < s.length := symbols_length s (List.mem_of_find?_eq_some hs)
              rw [List.length_drop]
              simp only [List.length_cons]
              omega

/-! ### The tokens that are made -/

theorem not_mem_quoted {cs : List Char} {p : String × List Char} (h : quoted cs = some p) :
    '"' ∉ p.1.toList := by
  unfold quoted at h
  split at h
  · cases h
    rw [String.toList_ofList]
    intro hmem
    have hall := List.all_eq_true.mp List.all_takeWhile '"' hmem
    revert hall
    decide
  · cases h

theorem lexical_wordToken {word : String} {rest : List Char} (hword : IsWord word) :
    (wordToken word rest).1.Lexical := by
  unfold wordToken
  split
  · trivial
  · next hb =>
    split
    · next hquoted => exact not_mem_quoted hquoted
    · have heq : word = "b" := beq_iff_eq.mp hb
      subst heq
      exact ⟨hword, by decide, by decide⟩
  · split
    · trivial
    · next hkeyword =>
      rw [Bool.or_eq_true, List.contains_iff_mem, beq_iff_eq, not_or] at hkeyword
      exact ⟨hword, hkeyword⟩

theorem lexical_numberToken (cs : List Char) : (numberToken cs).1.Lexical := by
  unfold numberToken
  dsimp only
  split
  · split <;> trivial
  · split <;> trivial
  · trivial

/-- Every match that is a token. -/
theorem lexical_nextMatch {cs rest : List Char} {t : Tok} (h : nextMatch cs = some (some t, rest)) :
    t.Lexical := by
  unfold nextMatch at h
  split at h
  · cases h
  · next c cs =>
    split at h
    · cases h
    · split at h
      · cases h
      · split at h
        · next hstart =>
          have hword : IsWord (String.ofList ((c :: cs).takeWhile wordChar)) := by
            refine ⟨c, cs.takeWhile wordChar, ?_, hstart, List.all_eq_true.mp List.all_takeWhile⟩
            rw [String.toList_ofList, List.takeWhile_cons_of_pos (wordChar_of_wordStart hstart)]
          cases h
          exact lexical_wordToken hword
        · split at h
          · cases h
            exact lexical_numberToken _
          · split at h
            · obtain ⟨q, hq, heq⟩ := Option.map_eq_some_iff.mp h
              cases heq
              exact not_mem_quoted hq
            · obtain ⟨s, -, heq⟩ := Option.map_eq_some_iff.mp h
              cases heq
              trivial

theorem Lexes.lexical {cs : List Char} {ts : List Tok} (h : Lexes cs ts) : ∀ t ∈ ts, t.Lexical :=
  Scans.forall_mem nextMatch_shrinks (fun _ _ _ => lexical_nextMatch) h

/-! ### Tokens at the front of a text -/

variable {rest : List Char} {ts : List Tok}

theorem lexes_nil : Lexes [] [] := scans_nil

theorem nextMatch_space {c : Char} (h : spaceChar c = true) :
    nextMatch (c :: rest) = some (none, rest.dropWhile spaceChar) := by
  rw [nextMatch, if_pos h]

/-- Whitespace in front changes nothing, -/
theorem lexes_dropWhile : Lexes (rest.dropWhile spaceChar) ts ↔ Lexes rest ts := by
  cases rest with
  | nil => rfl
  | cons c rest =>
    by_cases h : spaceChar c = true
    · rw [List.dropWhile_cons_of_pos h]
      constructor
      · exact Scans.skip nextMatch_shrinks (nextMatch_space h)
      · intro hscan
        rw [Lexes, Scans, scan_cons nextMatch_shrinks, nextMatch_space h, Option.bind_some] at hscan
        simpa [Lexes, Scans] using hscan
    · rw [List.dropWhile_cons_of_neg h]

/-- and neither does a blank. -/
theorem lexes_blank (h : Lexes rest ts) : Lexes (' ' :: rest) ts :=
  Scans.skip nextMatch_shrinks (nextMatch_space rfl) (lexes_dropWhile.mpr h)

/-- The characters that make a longer fixed text of this one. -/
def extensions (s : String) : List Char :=
  (symbols.filter fun s' => s.toList.isPrefixOf s'.toList).filterMap fun s' =>
    (s'.toList.drop s.length).head?

/-- The next character makes no longer fixed text, nor a comment. -/
def Clear (s : String) (rest : List Char) : Prop :=
  ∀ c, rest.head? = some c → c ∉ extensions s ∧ (s = "/" → c ≠ '/')

/-- In the list of the fixed texts, those that come before one are not shorter. -/
theorem symbols_sorted : symbols.Pairwise fun s s' => s'.length ≤ s.length := by decide

theorem symbols_nodup : symbols.Nodup := by decide

/-- Nothing that comes before it matches. -/
theorem find_symbol {s : String} (hs : s ∈ symbols) (hclear : Clear s rest) :
    (symbols.find? fun s' => s'.toList.isPrefixOf (s.toList ++ rest)) = some s := by
  obtain ⟨before, after, hsplit⟩ := List.append_of_mem hs
  rw [List.find?_eq_some_iff_append]
  refine ⟨List.isPrefixOf_iff_prefix.mpr (List.prefix_append ..), before, after, hsplit, ?_⟩
  intro s' hs'
  rw [Bool.not_eq_true', Bool.eq_false_iff]
  intro hprefix
  have hprefix' : s'.toList <+: s.toList ++ rest := List.isPrefixOf_iff_prefix.mp hprefix
  have hsorted : s.length ≤ s'.length := by
    have hpair := symbols_sorted
    rw [hsplit, List.pairwise_append] at hpair
    exact hpair.2.2 s' hs' s (List.mem_cons_self ..)
  have hne : s' ≠ s := by
    rintro rfl
    have hnodup := symbols_nodup
    rw [hsplit, List.nodup_append] at hnodup
    exact hnodup.2.2 s' hs' s' (List.mem_cons_self ..) rfl
  obtain ⟨more, hmore⟩ := hprefix'
  rcases List.append_eq_append_iff.mp hmore with ⟨x, hx, -⟩ | ⟨x, hx, hrest⟩
  · -- `s` is no longer than `s'`
    have hlength := congrArg List.length hx
    rw [List.length_append, String.length_toList, String.length_toList] at hlength
    have hnil : x = [] := List.length_eq_zero_iff.mp (by omega)
    rw [hnil, List.append_nil] at hx
    exact hne (String.toList_injective hx.symm)
  · cases x with
    | nil =>
      rw [List.append_nil] at hx
      exact hne (String.toList_injective hx)
    | cons c x =>
      have hmem : s' ∈ symbols := hsplit ▸ List.mem_append_left _ hs'
      have hc : c ∈ extensions s := by
        apply List.mem_filterMap.mpr
        refine ⟨s', List.mem_filter.mpr ⟨hmem, ?_⟩, ?_⟩
        · exact List.isPrefixOf_iff_prefix.mpr ⟨c :: x, hx.symm⟩
        · rw [hx, ← String.length_toList, List.drop_left]
          rfl
      refine (hclear c ?_).1 hc
      rw [hrest]
      rfl

/-- What a fixed text begins with. -/
theorem symbols_head {s : String} (hs : s ∈ symbols) : ∃ c cs, s.toList = c :: cs ∧
    spaceChar c = false ∧ wordStart c = false ∧ c.isDigit = false ∧ c ≠ '"' ∧
    (c = '/' → s = "/") := by
  have hall : ∀ s ∈ symbols, s.toList ≠ [] ∧ (s.toList.take 1).Forall fun c =>
      spaceChar c = false ∧ wordStart c = false ∧ c.isDigit = false ∧ c ≠ '"' ∧
        (c = '/' → s = "/") := by decide
  obtain ⟨hne, hfirst⟩ := hall s hs
  obtain ⟨c, cs, htext⟩ := List.exists_cons_of_ne_nil hne
  rw [htext] at hfirst
  exact ⟨c, cs, htext, List.forall_iff_forall_mem.mp hfirst c (List.mem_cons_self ..)⟩

/-- A fixed text. -/
theorem lexes_sym {s : String} (hs : s ∈ symbols) (hclear : Clear s rest) (h : Lexes rest ts) :
    Lexes (s.toList ++ rest) (.sym s :: ts) := by
  obtain ⟨c, cs, htext, hspace, hword, hdigit, hquote, hslash⟩ := symbols_head hs
  have hfind := find_symbol hs hclear
  have hdrop : (s.toList ++ rest).drop s.length = rest := by
    rw [← String.length_toList, List.drop_left]
  rw [htext, List.cons_append] at hfind hdrop ⊢
  apply Scans.token nextMatch_shrinks _ h
  have hno : (c == '/' && (cs ++ rest).head? == some '/') = false := by
    rw [Bool.and_eq_false_iff]
    by_cases hc : c = '/'
    · right
      have hnil : cs = [] := by
        rw [hslash hc] at htext
        exact (List.cons.inj htext).2.symm
      rw [hnil, List.nil_append, beq_eq_false_iff_ne]
      exact fun hhead => (hclear '/' hhead).2 (hslash hc) rfl
    · left
      exact beq_eq_false_iff_ne.mpr hc
  rw [nextMatch]
  simp only [hspace, hno, hword, hdigit, beq_eq_false_iff_ne.mpr hquote, Bool.false_eq_true,
    if_false, hfind, Option.map_some, hdrop]

/-! ### Words, numbers and quoted texts -/

/-- A run of characters of one kind, up to the first of another. -/
theorem span_run {p : Char → Bool} {run : List Char} (hrun : ∀ d ∈ run, p d = true)
    (hrest : ∀ c, rest.head? = some c → p c = false) :
    (run ++ rest).takeWhile p = run ∧ (run ++ rest).dropWhile p = rest := by
  have hstop : rest.takeWhile p = [] ∧ rest.dropWhile p = rest := by
    cases rest with
    | nil => exact ⟨rfl, rfl⟩
    | cons c rest =>
      have hc : ¬ p c = true := by
        rw [hrest c rfl]
        exact Bool.false_ne_true
      exact ⟨List.takeWhile_cons_of_neg hc, List.dropWhile_cons_of_neg hc⟩
  constructor
  · rw [List.takeWhile_append_of_pos hrun, hstop.1, List.append_nil]
  · rw [List.dropWhile_append_of_pos hrun, hstop.2]

/-- No word and no quoted text goes on here. -/
def Ends (rest : List Char) : Prop := ∀ c, rest.head? = some c → wordChar c = false ∧ c ≠ '"'

/-- A word that ends, without `::` behind a word that takes it. -/
theorem lexes_word {word : String} (hword : IsWord word) (hends : Ends rest)
    (hscope : word ∈ scopeWords → ¬ [':', ':'] <+: rest) (h : Lexes rest ts) :
    Lexes (word.toList ++ rest)
      ((if keywords.contains word || word == "_" then .sym word else .ident word) :: ts) := by
  obtain ⟨c, cs, htext, hstart, hall⟩ := hword
  have hrun : ∀ d ∈ word.toList, wordChar d = true := by
    rw [htext]
    intro d hd
    rcases List.mem_cons.mp hd with rfl | hd
    · exact wordChar_of_wordStart hstart
    · exact hall d hd
  obtain ⟨htake, hdrop⟩ := span_run hrun fun c hc => (hends c hc).1
  have htoken : wordToken word rest =
      (if keywords.contains word || word == "_" then .sym word else .ident word, rest) := by
    unfold wordToken
    split
    · next hmem =>
      exact absurd (List.prefix_append [':', ':'] _) (hscope (List.contains_iff_mem.mp hmem))
    · exact absurd rfl (hends '"' rfl).2
    · split <;> rfl
  rw [htext, List.cons_append] at htake hdrop ⊢
  apply Scans.token nextMatch_shrinks _ h
  have hspace : spaceChar c = false := spaceChar_of_wordStart hstart
  have hslash : c ≠ '/' := by
    rintro rfl
    revert hstart
    decide
  rw [nextMatch]
  simp only [hspace, beq_eq_false_iff_ne.mpr hslash, Bool.false_and, Bool.false_eq_true, if_false,
    hstart, if_true, htake, hdrop, ← htext, String.ofList_toList, htoken]

/-- A word and the `::` that belongs to it. -/
theorem lexes_scope {word : String} (hword : word ∈ scopeWords) (h : Lexes rest ts) :
    Lexes (word.toList ++ ':' :: ':' :: rest) (.sym (word ++ "::") :: ts) := by
  have hall : ∀ word ∈ scopeWords, wordText word.toList = true := by decide
  obtain ⟨c, cs, htext, hstart, hchars⟩ := isWord_of_wordText (hall word hword)
  have hspace : spaceChar c = false := spaceChar_of_wordStart hstart
  have hslash : c ≠ '/' := by
    rintro rfl
    cases hstart
  have hrun : ∀ d ∈ word.toList, wordChar d = true := by
    rw [htext]
    intro d hd
    rcases List.mem_cons.mp hd with rfl | hd
    · exact wordChar_of_wordStart hstart
    · exact hchars d hd
  have hhead : ∀ c, (':' :: ':' :: rest).head? = some c → wordChar c = false := by
    intro c hc
    cases hc
    rfl
  obtain ⟨htake, hdrop⟩ := span_run hrun hhead
  have htoken : wordToken word (':' :: ':' :: rest) = (.sym (word ++ "::"), rest) := by
    unfold wordToken
    rw [List.contains_iff_mem.mpr hword]
    rfl
  rw [htext, List.cons_append] at htake hdrop ⊢
  apply Scans.token nextMatch_shrinks _ h
  rw [nextMatch]
  simp only [hspace, beq_eq_false_iff_ne.mpr hslash, Bool.false_and, Bool.false_eq_true, if_false,
    hstart, if_true, htake, hdrop, ← htext, String.ofList_toList, htoken]

/-- A decimal number. -/
theorem lexes_int {ds : List Char} (hne : ds ≠ []) (hds : ∀ d ∈ ds, d.isDigit = true)
    (hends : Ends rest) (h : Lexes rest ts) : Lexes (ds ++ rest) (.int ds :: ts) := by
  obtain ⟨c, cs, rfl⟩ := List.exists_cons_of_ne_nil hne
  have hc : c.isDigit = true := hds c (List.mem_cons_self ..)
  obtain ⟨hspace, hslash, hword⟩ := digit_facts hc
  have hrun : ∀ d ∈ c :: cs, (d.isDigit || d == '_') = true := fun d hd => by rw [hds d hd]; rfl
  have hstop : ∀ c, rest.head? = some c → (c.isDigit || c == '_') = false := by
    intro c hhead
    have hchar := (hends c hhead).1
    simp only [wordChar, Char.isAlphanum, Bool.or_eq_false_iff] at hchar ⊢
    exact ⟨hchar.1.2, hchar.2⟩
  obtain ⟨htake, hdrop⟩ := span_run hrun hstop
  -- a second character that is a letter is no digit and does not come behind the number
  have hsecond : ∀ d rest', (c :: cs) ++ rest = c :: d :: rest' → d.isDigit = false →
      wordChar d = false := by
    intro d rest' heq hd
    cases cs with
    | nil =>
      have hrest : rest = d :: rest' := (List.cons.inj heq).2
      exact (hends d (by rw [hrest]; rfl)).1
    | cons d' cs =>
      have hdd : d' = d := (List.cons.inj (List.cons.inj heq).2).1
      have hdigit := hds d' (List.mem_cons_of_mem _ (List.mem_cons_self ..))
      rw [hdd, hd] at hdigit
      cases hdigit
  have htoken : numberToken (c :: cs ++ rest) = (.int (c :: cs), rest) := by
    unfold numberToken
    dsimp only
    rw [htake, hdrop]
    split
    · next heq =>
      have hx := hsecond 'x' _ (by rw [heq, (List.cons.inj heq).1]) rfl
      exact absurd hx (by decide)
    · next heq =>
      have hx := hsecond 'b' _ (by rw [heq, (List.cons.inj heq).1]) rfl
      exact absurd hx (by decide)
    · rfl
  have hnext : nextMatch (c :: (cs ++ rest)) = some (some (.int (c :: cs)), rest) := by
    rw [List.cons_append] at htoken
    rw [nextMatch]
    simp only [hspace, beq_eq_false_iff_ne.mpr hslash, Bool.false_and, Bool.false_eq_true,
      if_false, hword, hc, if_true, htoken]
  exact Scans.token nextMatch_shrinks hnext h

/-- A hexadecimal number. -/
theorem lexes_hex {ds : List Char} (hne : ds ≠ []) (hds : ∀ d ∈ ds, hexChar d = true)
    (hends : Ends rest) (h : Lexes rest ts) :
    Lexes ('0' :: 'x' :: ds ++ rest) (.hex ('0' :: 'x' :: ds) :: ts) := by
  have hstop : ∀ c, rest.head? = some c → hexChar c = false := by
    intro c hhead
    have hchar := (hends c hhead).1
    rw [Bool.eq_false_iff] at hchar ⊢
    exact fun hhex => hchar (wordChar_of_hexChar hhex)
  obtain ⟨htake, hdrop⟩ := span_run hds hstop
  obtain ⟨c, cs, rfl⟩ := List.exists_cons_of_ne_nil hne
  have htoken : numberToken ('0' :: 'x' :: ((c :: cs) ++ rest)) =
      (.hex ('0' :: 'x' :: c :: cs), rest) := by
    rw [List.cons_append] at htake hdrop ⊢
    change (if hexChar c = true then
        (Tok.hex ('0' :: 'x' :: (c :: (cs ++ rest)).takeWhile hexChar),
          (c :: (cs ++ rest)).dropWhile hexChar)
      else _) = _
    rw [if_pos (hds c (List.mem_cons_self ..)), htake, hdrop]
  have hzero : nextMatch ('0' :: 'x' :: ((c :: cs) ++ rest)) =
      some (some (.hex ('0' :: 'x' :: c :: cs)), rest) := by
    rw [nextMatch]
    simp only [show spaceChar '0' = false from rfl, show ('0' == '/') = false from rfl,
      show wordStart '0' = false from rfl, show ('0' : Char).isDigit = true from rfl,
      Bool.false_and, Bool.false_eq_true, if_false, if_true, htoken]
  exact Scans.token nextMatch_shrinks hzero h

theorem quoted_append {raw : String} (hraw : '"' ∉ raw.toList) :
    quoted (raw.toList ++ '"' :: rest) = some (raw, rest) := by
  have hrun : ∀ d ∈ raw.toList, decide (d ≠ '"') = true := fun d hd =>
    decide_eq_true fun heq => hraw (heq ▸ hd)
  have hhead : ∀ c, ('"' :: rest).head? = some c → decide (c ≠ '"') = false := by
    intro c hc
    cases hc
    rfl
  obtain ⟨htake, hdrop⟩ := span_run hrun hhead
  rw [quoted, hdrop, htake, String.ofList_toList]

/-- A text between quotes. -/
theorem lexes_str {raw : String} (hraw : '"' ∉ raw.toList) (h : Lexes rest ts) :
    Lexes ('"' :: (raw.toList ++ '"' :: rest)) (.str raw :: ts) := by
  apply Scans.token nextMatch_shrinks _ h
  rw [nextMatch]
  simp only [show spaceChar '"' = false from rfl, show ('"' == '/') = false from rfl,
    show wordStart '"' = false from rfl, show ('"' : Char).isDigit = false from rfl,
    Bool.false_and, Bool.false_eq_true, if_false, BEq.rfl, if_true, quoted_append hraw,
    Option.map_some]

/-- A text between quotes with a `b` in front. -/
theorem lexes_bytes {raw : String} (hraw : '"' ∉ raw.toList) (h : Lexes rest ts) :
    Lexes ('b' :: '"' :: (raw.toList ++ '"' :: rest)) (.bytes raw :: ts) := by
  apply Scans.token nextMatch_shrinks _ h
  have htoken : wordToken "b" ('"' :: (raw.toList ++ '"' :: rest)) = (.bytes raw, rest) := by
    change (match quoted (raw.toList ++ '"' :: rest) with
      | some (raw, rest) => (Tok.bytes raw, rest)
      | none => _) = _
    rw [quoted_append hraw]
  rw [nextMatch]
  simp only [show spaceChar 'b' = false from rfl, show ('b' == '/') = false from rfl,
    show wordStart 'b' = true from rfl, Bool.false_and, Bool.false_eq_true, if_false, if_true,
    List.takeWhile_cons, List.dropWhile_cons, show wordChar 'b' = true from rfl,
    show wordChar '"' = false from rfl, show String.ofList ['b'] = "b" from rfl, htoken]

end CambrianLang.Syntax
