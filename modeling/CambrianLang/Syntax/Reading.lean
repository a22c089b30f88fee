/-
  **Texts that a rule reads.**

  `ReadsAs r text v`: wherever the text stands in front of a character that ends a token, its
  tokens are the same, and the rule makes `v` of them.  The lemmas put such texts together.
-/
import CambrianLang.Syntax.Printer

namespace CambrianLang.Syntax

open Ast Relation

/-! ### Between tokens -/

/-- Characters that stand right behind an expression, a type, a pattern or a name. -/
def stopChars : List Char := [' ', ',', ')', ']', '.', '[', ';', '(', '|', '<', '>', '}']

/-- The text ends or goes on with such a character. -/
def Stops (rest : List Char) : Prop := ∀ c, rest.head? = some c → c ∈ stopChars

theorem stops_cons {c : Char} {rest : List Char} (h : c ∈ stopChars) : Stops (c :: rest) := by
  intro d hd
  cases hd
  exact h

theorem stops_nil : Stops [] := nofun

theorem Stops.ends {rest : List Char} (h : Stops rest) : Ends rest := by
  have hall : stopChars.Forall fun c => wordChar c = false ∧ c ≠ '"' := by decide
  exact fun c hc => List.forall_iff_forall_mem.mp hall c (h c hc)

theorem Stops.not_colons {rest : List Char} (h : Stops rest) : ¬ [':', ':'] <+: rest := by
  rintro ⟨more, rfl⟩
  have hcolon := h ':' rfl
  revert hcolon
  decide

/-- A fixed text that is the beginning of no other. -/
theorem clear_of_extensions {s : String} (h : extensions s = []) (hs : s ≠ "/")
    (rest : List Char) : Clear s rest := by
  intro c _
  rw [h]
  exact ⟨List.not_mem_nil, fun heq => absurd heq hs⟩

theorem clear_cons {s : String} {c : Char} {rest : List Char} (h : c ∉ extensions s)
    (hs : s ≠ "/") : Clear s (c :: rest) := by
  intro d hd
  cases hd
  exact ⟨h, fun heq => absurd heq hs⟩

variable {rest : List Char} {us : List Tok}

/-- A name, where none goes on. -/
theorem lexes_name {t : Tok} {name : String} (hlex : t.Lexical) (ht : t.identStr = some name)
    (hends : Ends rest) (hscope : name ∈ scopeWords → ¬ [':', ':'] <+: rest)
    (h : Lexes rest us) : Lexes (name.toList ++ rest) (t :: us) := by
  cases t with
  | ident name' =>
    cases ht
    obtain ⟨hword, hkeyword, hwild⟩ := hlex
    have hlexes := lexes_word hword hends hscope h
    rwa [if_neg] at hlexes
    rw [Bool.or_eq_true, List.contains_iff_mem, beq_iff_eq]
    rintro (hmem | heq)
    · exact hkeyword hmem
    · exact hwild heq
  | sym text =>
    rw [Tok.identStr] at ht
    split at ht
    · next hmem =>
      cases ht
      have hword : IsWord name ∧ (keywords.contains name || name == "_") = true := by
        simp only [List.mem_cons, List.not_mem_nil, or_false] at hmem
        rcases hmem with rfl | rfl | rfl <;> exact ⟨isWord_of_wordText (by decide), by decide⟩
      have hlexes := lexes_word hword.1 hends hscope h
      rwa [if_pos hword.2] at hlexes
    · cases ht
  | _ => cases ht

/-- A keyword in front of a blank or a stop. -/
theorem lexes_keyword {word : String} (hmem : word ∈ keywords) (hends : Ends rest)
    (h : Lexes rest us) : Lexes (word.toList ++ rest) (.sym word :: us) := by
  have hall : ∀ word ∈ keywords, wordText word.toList = true ∧ word ∉ scopeWords := by decide +kernel
  obtain ⟨htext, hscope⟩ := hall word hmem
  have hlexes := lexes_word (isWord_of_wordText htext) hends (fun hmem => absurd hmem hscope) h
  rwa [if_pos] at hlexes
  rw [Bool.or_eq_true, List.contains_iff_mem]
  exact .inl hmem

/-- What may make a longer operator of the one in front of it. -/
def operatorTails : List Char := ['=', '>', '<', '%', '|']

/-- The text begins with none of them. -/
def Begins (text : List Char) : Prop := ∃ c cs, text = c :: cs ∧ c ∉ operatorTails

theorem Begins.append {text : List Char} (h : Begins text) (more : List Char) :
    Begins (text ++ more) := by
  obtain ⟨c, cs, rfl, hc⟩ := h
  exact ⟨c, cs ++ more, rfl, hc⟩

theorem begins_cons {c : Char} {cs : List Char} (h : c ∉ operatorTails) :
    Begins (c :: cs) := ⟨c, cs, rfl, h⟩

theorem Begins.clear {s : String} {text rest : List Char} (h : Begins text)
    (hs : extensions s ⊆ operatorTails) (hne : s ≠ "/") :
    Clear s (text ++ rest) := by
  obtain ⟨c, cs, rfl, hc⟩ := h
  exact clear_cons (fun hmem => hc (hs hmem)) hne

/-- A name begins with a letter. -/
theorem begins_name {t : Tok} {name : String} (hlex : t.Lexical) (ht : t.identStr = some name) :
    ∃ c cs, name.toList = c :: cs ∧ wordStart c = true := by
  cases t with
  | ident name' =>
    cases ht
    obtain ⟨⟨c, cs, htext, hstart, -⟩, -, -⟩ := hlex
    exact ⟨c, cs, htext, hstart⟩
  | sym text =>
    rw [Tok.identStr] at ht
    split at ht
    · next hmem =>
      cases ht
      simp only [List.mem_cons, List.not_mem_nil, or_false] at hmem
      rcases hmem with rfl | rfl | rfl
      · exact ⟨'c', ['h', 'e', 'c', 'k'], rfl, rfl⟩
      · exact ⟨'a', ['c', 't', 'i', 'o', 'n'], rfl, rfl⟩
      · exact ⟨'s', ['e', 'n', 'd', 'e', 'r', 's'], rfl, rfl⟩
    · cases ht
  | _ => cases ht

theorem begins_of_wordStart {c : Char} {cs : List Char} (h : wordStart c = true) :
    Begins (c :: cs) := by
  refine ⟨c, cs, rfl, ?_⟩
  intro hmem
  have hlo := (toNat_of_wordStart h).1
  have hall : operatorTails.Forall fun c => c.toNat < 65 ∨ wordStart c = false := by decide
  rcases List.forall_iff_forall_mem.mp hall c hmem with hlt | hno
  · omega
  · rw [h] at hno
    cases hno

/-! ### Texts and rules -/

/-- The tokens of the text in front of a stop. -/
def LexesAs (text : List Char) (ts : List Tok) : Prop :=
  ∀ rest us, Stops rest → Lexes rest us → Lexes (text ++ rest) (ts ++ us)

/-- The text has tokens that the rule makes `v` of. -/
def ReadsAs (r : Rule) (text : List Char) (v : Val) : Prop := ∃ ts, LexesAs text ts ∧ Derives r ts v

variable {r r' : Rule} {text : List Char} {v : Val}

/-- One rule passes on what the other makes. -/
def Reaches : Rule → Rule → Prop := ReflTransGen fun r r' => r' ∈ r.alts

/-- The rules that a rule passes on from, up to a number of steps. -/
def below : Nat → Rule → List Rule
  | 0, r => [r]
  | n + 1, r => r :: r.alts.flatMap (below n)

theorem reaches_of_mem {n : Nat} (h : r' ∈ below n r) : Reaches r r' := by
  induction n generalizing r with
  | zero =>
    rw [below, List.mem_singleton] at h
    exact h ▸ .refl
  | succ n ih =>
    rw [below, List.mem_cons, List.mem_flatMap] at h
    rcases h with rfl | ⟨r₁, hstep, hmem⟩
    · exact .refl
    · exact .head hstep (ih hmem)

theorem Derives.reach {ts : List Tok} (h : Reaches r r') (hd : Derives r' ts v) :
    Derives r ts v := by
  induction h using ReflTransGen.head_induction_on with
  | refl => exact hd
  | head hstep _ ih => exact .alt hstep ih

theorem ReadsAs.reach (h : Reaches r r') (hr : ReadsAs r' text v) : ReadsAs r text v := by
  obtain ⟨ts, hlex, hd⟩ := hr
  exact ⟨ts, hlex, hd.reach h⟩

/-- A text that a rule reads is a text that parses. -/
theorem ReadsAs.parses {s : String} {e : Expr} (h : ReadsAs r s.toList (.expr e)) :
    Parses r s e := by
  obtain ⟨ts, hlex, hd⟩ := h
  have hall := hlex [] [] stops_nil lexes_nil
  rw [List.append_nil, List.append_nil] at hall
  exact ⟨ts, hall, hd⟩

/-! ### Putting texts together -/

section Texts

variable {a b : List Char} {ts ws : List Tok} {s : String}

/-- The text begins with a stop. -/
def BeginsStop (text : List Char) : Prop := ∃ c cs, text = c :: cs ∧ c ∈ stopChars

theorem beginsStop_cons {c : Char} {cs : List Char} (h : c ∈ stopChars) : BeginsStop (c :: cs) :=
  ⟨c, cs, rfl, h⟩

theorem BeginsStop.stops (h : BeginsStop a) : Stops (a ++ rest) := by
  obtain ⟨c, cs, rfl, hc⟩ := h
  exact stops_cons hc

theorem LexesAs.append (ha : LexesAs a ts) (hb : LexesAs b ws) (hstop : BeginsStop b) :
    LexesAs (a ++ b) (ts ++ ws) := by
  intro rest us hstops hrest
  rw [List.append_assoc, List.append_assoc]
  exact ha _ _ hstop.stops (hb rest us hstops hrest)

theorem LexesAs.blank (h : LexesAs a ts) : LexesAs (' ' :: a) ts := fun rest us hstops hrest =>
  lexes_blank (h rest us hstops hrest)

/-- A fixed text that nothing makes longer. -/
theorem LexesAs.sym (hs : s ∈ symbols) (hext : extensions s = []) (hne : s ≠ "/") :
    LexesAs s.toList [.sym s] := fun rest _ _ hrest =>
  lexes_sym hs (clear_of_extensions hext hne rest) hrest

/-- And in front of a text. -/
theorem LexesAs.sym_append (hs : s ∈ symbols) (hext : extensions s = []) (hne : s ≠ "/")
    (h : LexesAs a ts) : LexesAs (s.toList ++ a) (.sym s :: ts) := by
  intro rest us hstops hrest
  rw [List.append_assoc]
  exact lexes_sym hs (clear_of_extensions hext hne _) (h rest us hstops hrest)

/-- A fixed text in front of one that does not make it longer. -/
theorem LexesAs.sym_begins (hs : s ∈ symbols)
    (hext : extensions s ⊆ operatorTails) (hne : s ≠ "/")
    (hbegins : Begins a) (h : LexesAs a ts) : LexesAs (s.toList ++ a) (.sym s :: ts) := by
  intro rest us hstops hrest
  rw [List.append_assoc]
  exact lexes_sym hs (hbegins.clear hext hne) (h rest us hstops hrest)

/-- A fixed text between blanks. -/
theorem LexesAs.sym_blank (hs : s ∈ symbols) (hext : ' ' ∉ extensions s) (h : LexesAs a ts) :
    LexesAs (s.toList ++ ' ' :: a) (.sym s :: ts) := by
  intro rest us hstops hrest
  rw [List.append_assoc, List.cons_append]
  refine lexes_sym hs ?_ (lexes_blank (h rest us hstops hrest))
  intro c hc
  cases hc
  exact ⟨hext, fun _ => by decide⟩

theorem LexesAs.keyword {word : String} (hmem : word ∈ keywords) :
    LexesAs word.toList [.sym word] := fun _ _ hstops hrest =>
  lexes_keyword hmem hstops.ends hrest

theorem LexesAs.keyword_append {word : String} (hmem : word ∈ keywords) (h : LexesAs a ts)
    (hstop : BeginsStop a) : LexesAs (word.toList ++ a) (.sym word :: ts) :=
  (LexesAs.keyword hmem).append h hstop

theorem LexesAs.name {t : Tok} {name : String} (hlex : t.Lexical) (ht : t.identStr = some name) :
    LexesAs name.toList [t] := fun _ _ hstops hrest =>
  lexes_name hlex ht hstops.ends (fun _ => hstops.not_colons) hrest

theorem LexesAs.name_append {t : Tok} {name : String} (hlex : t.Lexical)
    (ht : t.identStr = some name) (h : LexesAs a ts) (hstop : BeginsStop a) :
    LexesAs (name.toList ++ a) (t :: ts) := (LexesAs.name hlex ht).append h hstop

/-- A name and a `::`. -/
theorem LexesAs.name_colons {t : Tok} {name : String} (hlex : t.Lexical)
    (ht : t.identStr = some name) (hscope : name ∉ scopeWords) (h : LexesAs a ts) :
    LexesAs (name.toList ++ ':' :: ':' :: a) (t :: .sym "::" :: ts) := by
  intro rest us hstops hrest
  have hcolons : Lexes (':' :: ':' :: (a ++ rest)) (.sym "::" :: (ts ++ us)) :=
    lexes_sym (s := "::") (by decide) (clear_of_extensions (by decide) (by decide) _)
      (h rest us hstops hrest)
  rw [List.append_assoc]
  refine lexes_name hlex ht ?_ (fun hmem => absurd hmem hscope) hcolons
  intro c hc
  cases hc
  decide

theorem LexesAs.parens (h : LexesAs a ts) : LexesAs ('(' :: (a ++ [')'])) (parens ts) := by
  have hclose : LexesAs [')'] [.sym ")"] := .sym (s := ")") (by decide) (by decide) (by decide)
  exact .sym_append (s := "(") (by decide) (by decide) (by decide)
    (h.append hclose (beginsStop_cons (by decide)))

theorem LexesAs.braces (h : LexesAs a ts) :
    LexesAs ('{' :: ' ' :: (a ++ [' ', '}'])) (braces ts) := by
  have hclose : LexesAs [' ', '}'] [.sym "\x7d"] :=
    .blank (.sym (s := "\x7d") (by decide) (by decide) (by decide))
  exact .sym_append (s := "\x7b") (by decide) (by decide) (by decide)
    (.blank (h.append hclose (beginsStop_cons (by decide))))

end Texts

/-! ### Lists -/

theorem Derives.comma_cons {ts us : List Tok} {vs : List Val} (h : Derives r ts v)
    (hs : Derives (.comma r) us (.list vs)) :
    Derives (.comma r) (ts ++ .sym "," :: us) (.list (v :: vs)) := by
  generalize hr' : Rule.comma r = r' at hs
  generalize hv' : Val.list vs = v' at hs
  cases hs with
  | alt hr =>
    subst hr'
    cases hr
  | commaLast hs hlast =>
    cases hr'
    cases hv'
    have hall := Derives.commaLast (.eachCons h hs) hlast
    rwa [List.append_assoc, List.cons_append] at hall
  | commaTrailing hs =>
    cases hr'
    cases hv'
    exact .commaTrailing (.eachCons h hs)
  | binOp => cases hv'
  | _ => cases hr'

theorem Derives.comma_one {ts : List Tok} (h : Derives r ts v) :
    Derives (.comma r) ts (.list [v]) := .commaLast .eachNil h

/-- Texts with commas between them. -/
theorem reads_comma {texts : List (List Char)} {vs : List Val}
    (h : List.Forall₂ (ReadsAs r) texts vs) (hne : texts ≠ []) :
    ReadsAs (.comma r) ([',', ' '].intercalate texts) (.list vs) := by
  induction h with
  | nil => exact absurd rfl hne
  | @cons text v texts vs hhead htail ih =>
    obtain ⟨ts, hlex, hd⟩ := hhead
    cases htail with
    | nil =>
      refine ⟨ts, ?_, hd.comma_one⟩
      simpa [List.intercalate] using hlex
    | @cons text' v' texts vs hnext htail =>
      obtain ⟨us, hlexs, hds⟩ := ih (List.cons_ne_nil _ _)
      refine ⟨ts ++ .sym "," :: us, ?_, hd.comma_cons hds⟩
      intro rest ws hstops hrest
      have hjoin : [',', ' '].intercalate (text :: text' :: texts) =
          text ++ ',' :: ' ' :: [',', ' '].intercalate (text' :: texts) := by
        simp [List.intercalate]
      rw [hjoin, List.append_assoc, List.append_assoc]
      apply hlex _ _ (stops_cons (by decide))
      exact LexesAs.sym_blank (s := ",") (by decide) (by decide) hlexs rest ws hstops hrest

theorem reads_commaOrNone {texts : List (List Char)} {vs : List Val}
    (h : List.Forall₂ (ReadsAs r) texts vs) :
    ReadsAs (.commaOrNone r) ([',', ' '].intercalate texts) (.list vs) := by
  cases h with
  | nil => exact ⟨[], fun _ _ _ hrest => hrest, .commaNone⟩
  | cons hhead htail =>
    exact (reads_comma (.cons hhead htail) (List.cons_ne_nil _ _)).reach
      (.single (List.mem_cons_self ..))

end CambrianLang.Syntax
