/-
  **Printed types.**

  The `>` at the end of nested generic types make `>>` two by two.  The grammar takes a `>>`
  for the ends of a type and of its last parameter, so a type is read back whatever the
  number is; a `>` of the text around it comes on top.
-/
import CambrianLang.Syntax.Reading

namespace CambrianLang.Syntax

open Ast

mutual
/-- How many `>` the text of a type ends with. -/
def closes : Ty → Nat
  | .generic _ params => closesLast params + 1
  | .typedAddress _ => 1
  | _ => 0
def closesLast : List Ty → Nat
  | [] => 0
  | [t] => closes t
  | _ :: ts => closesLast ts
end

/-- The tokens of a number of `>`. -/
def closers : Nat → List Tok
  | 0 => []
  | 1 => [.sym ">"]
  | k + 2 => .sym ">>" :: closers k

theorem closers_even : ∀ m, closers (2 * m + 1) = closers (2 * m) ++ [.sym ">"]
  | 0 => rfl
  | m + 1 => congrArg (Tok.sym ">>" :: ·) (closers_even m)

theorem closers_odd : ∀ m, closers (2 * m + 2) = closers (2 * m) ++ [.sym ">>"]
  | 0 => rfl
  | m + 1 => congrArg (Tok.sym ">>" :: ·) (closers_odd m)

/-- A stop that is no `>`. -/
def Closed (rest : List Char) : Prop := Stops rest ∧ rest.head? ≠ some '>'

theorem closed_cons {c : Char} {rest : List Char} (h : c ∈ stopChars) (hc : c ≠ '>') :
    Closed (c :: rest) := by
  refine ⟨stops_cons h, ?_⟩
  intro hhead
  exact hc (Option.some.inj hhead)

theorem lexes_closers {rest : List Char} {us : List Tok} (hclosed : Closed rest)
    (h : Lexes rest us) : ∀ k, Lexes (List.replicate k '>' ++ rest) (closers k ++ us)
  | 0 => h
  | 1 => by
    refine lexes_sym (s := ">") (by decide) ?_ h
    intro c hc
    have hstop : c ∈ stopChars := hclosed.1 c hc
    have hne : c ≠ '>' := by
      rintro rfl
      exact hclosed.2 hc
    have hall : stopChars.Forall fun c => c ≠ '>' → c ∉ extensions ">" ∧ (">" = "/" → c ≠ '/') := by
      decide
    exact List.forall_iff_forall_mem.mp hall c hstop hne
  | k + 2 => by
    have hrest := lexes_closers hclosed h k
    exact lexes_sym (s := ">>") (by decide) (clear_of_extensions (by decide) (by decide) _) hrest

theorem stops_closers {rest : List Char} (h : Stops rest) (k : Nat) :
    Stops (List.replicate k '>' ++ rest) := by
  cases k with
  | zero => exact h
  | succ k => exact stops_cons (by decide)

/-- The tokens of a type but for the `>` at its end, in front of any more of them. -/
def LexesOpen (t : Ty) (os : List Tok) : Prop :=
  ∀ k rest us, Closed rest → Lexes rest us →
    Lexes ((fmtType t).toList ++ (List.replicate k '>' ++ rest))
      (os ++ (closers (closes t + k) ++ us))

/-- The parts of a generic type, as the two rules for generic types need them. -/
def OpenGeneric (t : Ty) (os : List Tok) : Prop :=
  ∀ name params, t = .generic name params →
    ∃ tok is init last ls, tok.identStr = some name ∧ params = init ++ [last] ∧
      os = tok :: .sym "<" :: (is ++ ls) ∧ closes t = closes last + 1 ∧
      Derives (.each .type) is (.list (init.map .ty)) ∧
      Derives .type (ls ++ closers (closes last)) (.ty last)

/-- A type whose text is read back. -/
def TypeReads (t : Ty) : Prop :=
  Begins (fmtType t).toList ∧
    ∃ os, LexesOpen t os ∧ Derives .type (os ++ closers (closes t)) (.ty t) ∧ OpenGeneric t os

theorem closesLast_append (init : List Ty) (last : Ty) :
    closesLast (init ++ [last]) = closes last := by
  induction init with
  | nil => rfl
  | cons t init ih =>
    cases init with
    | nil => rfl
    | cons t' init => exact ih

theorem toList_commaJoin (ss : List String) :
    (commaJoin ss).toList = [',', ' '].intercalate (ss.map String.toList) := by
  rw [commaJoin, String.toList_intercalate]
  rfl

theorem intercalate_cons_cons (text text' : List Char) (texts : List (List Char)) :
    [',', ' '].intercalate (text :: text' :: texts) =
      text ++ ',' :: ' ' :: [',', ' '].intercalate (text' :: texts) := by
  simp [List.intercalate]

/-- A comma and a blank. -/
theorem lexes_comma {rest : List Char} {us : List Tok} (h : Lexes rest us) :
    Lexes (',' :: ' ' :: rest) (.sym "," :: us) :=
  lexes_sym (s := ",") (by decide) (clear_of_extensions (by decide) (by decide) _) (lexes_blank h)

/-- The types of a list, the last one open. -/
theorem typesRead {ps : List Ty} (hne : ps ≠ []) (h : ∀ p ∈ ps, TypeReads p) :
    ∃ init last is ls, ps = init ++ [last] ∧ Derives (.each .type) is (.list (init.map .ty)) ∧
      Derives .type (ls ++ closers (closes last)) (.ty last) ∧ OpenGeneric last ls ∧
      Begins (commaJoin (fmtTypes ps)).toList ∧ ∀ k rest us, Closed rest → Lexes rest us →
        Lexes ((commaJoin (fmtTypes ps)).toList ++ (List.replicate k '>' ++ rest))
          (is ++ (ls ++ (closers (closes last + k) ++ us))) := by
  induction ps with
  | nil => exact absurd rfl hne
  | cons p ps ih =>
    obtain ⟨hbegins, os, hlex, hd, hopen⟩ := h p (List.mem_cons_self ..)
    cases ps with
    | nil =>
      have hone : (commaJoin (fmtTypes [p])).toList = (fmtType p).toList := by
        rw [toList_commaJoin]
        simp [fmtTypes, List.intercalate]
      refine ⟨[], p, [], os, rfl, .eachNil, hd, hopen, ?_, ?_⟩
      · rwa [hone]
      · intro k rest us hclosed hrest
        rw [hone]
        exact hlex k rest us hclosed hrest
    | cons p' ps =>
      obtain ⟨init, last, is, ls, hsplit, heach, hlast, hopenLast, -, hlexes⟩ :=
        ih (List.cons_ne_nil _ _) fun q hq => h q (List.mem_cons_of_mem _ hq)
      have hjoin : (commaJoin (fmtTypes (p :: p' :: ps))).toList = (fmtType p).toList ++
          ',' :: ' ' :: (commaJoin (fmtTypes (p' :: ps))).toList := by
        rw [toList_commaJoin, toList_commaJoin, fmtTypes, List.map_cons, fmtTypes, List.map_cons,
          intercalate_cons_cons]
      refine ⟨p :: init, last, os ++ closers (closes p) ++ .sym "," :: is, ls, ?_, ?_, hlast,
        hopenLast, ?_, ?_⟩
      · rw [hsplit, List.cons_append]
      · exact .eachCons hd heach
      · rw [hjoin]
        exact hbegins.append _
      · intro k rest us hclosed hrest
        have hbehind := lexes_comma (hlexes k rest us hclosed hrest)
        have hfront := hlex 0 _ _ (closed_cons (c := ',') (by decide) (by decide)) hbehind
        rw [hjoin]
        simp only [List.append_assoc, List.cons_append, List.replicate_zero, List.nil_append,
          Nat.add_zero] at hfront ⊢
        exact hfront

theorem typeReads_simple {t : Tok} {name : String} (hlex : t.Lexical)
    (ht : t.identStr = some name) : TypeReads (.simple name) := by
  obtain ⟨c, cs, htext, hstart⟩ := begins_name hlex ht
  refine ⟨?_, [t], ?_, .simpleType ht, nofun⟩
  · rw [fmtType, htext]
    exact begins_of_wordStart hstart
  · intro k rest us hclosed hrest
    have hstops := stops_closers hclosed.1 k
    have hall := lexes_name hlex ht hstops.ends (fun _ => hstops.not_colons)
      (lexes_closers hclosed hrest k)
    simpa [fmtType, closes] using hall

/-- The grammar makes no such type. -/
theorem not_derives_typedAddress {ts : List Tok} {entity : String} :
    ¬ Derives .type ts (.ty (.typedAddress entity)) := by
  intro h
  cases h with
  | alt hr => cases hr

/-- A `<` in front of a type. -/
theorem lexes_angle {text rest : List Char} {us : List Tok} (hbegins : Begins text)
    (h : Lexes (text ++ rest) us) : Lexes ('<' :: (text ++ rest)) (.sym "<" :: us) :=
  lexes_sym (s := "<") (by decide) (hbegins.clear (by decide) (by decide)) h

/-- **A generic type**, whatever it ends with. -/
theorem typeReads_generic {t : Tok} {name : String} {params : List Ty} (hlex : t.Lexical)
    (ht : t.identStr = some name) (hne : params ≠ []) (h : ∀ p ∈ params, TypeReads p) :
    TypeReads (.generic name params) := by
  obtain ⟨init, last, is, ls, hsplit, heach, hlast, hopen, hbegins, hlexes⟩ := typesRead hne h
  obtain ⟨c, cs, htext, hstart⟩ := begins_name hlex ht
  have hcloses : closes (.generic name params) = closes last + 1 := by
    rw [closes, hsplit, closesLast_append]
  have hprint : (fmtType (.generic name params)).toList =
      name.toList ++ '<' :: ((commaJoin (fmtTypes params)).toList ++ ['>']) := by
    simp [fmtType]
  refine ⟨?_, t :: .sym "<" :: (is ++ ls), ?_, ?_, ?_⟩
  · rw [hprint, htext]
    exact begins_of_wordStart hstart
  · intro k rest us hclosed hrest
    have hparams := hlexes (k + 1) rest us hclosed hrest
    have hangle := lexes_angle hbegins hparams
    have hname := lexes_name hlex ht (stops_cons (c := '<') (by decide)).ends
      (fun _ => (stops_cons (by decide)).not_colons) hangle
    have hk : closes last + (k + 1) = closes last + 1 + k := by omega
    rw [hprint, hcloses, ← hk]
    simpa [List.replicate_succ] using hname
  · rw [hcloses]
    rcases Nat.even_or_odd' (closes last) with ⟨m, hm | hm⟩
    · -- the end of the parameters is a token of its own
      rw [hm, closers_even, ← hm, hsplit]
      have hcomma : Derives (.comma .type) (is ++ (ls ++ closers (closes last)))
          (.list ((init ++ [last]).map .ty)) := by
        rw [List.map_append, List.map_singleton]
        exact .commaLast heach hlast
      simpa using Derives.genericType ht hcomma
    · -- it is one with that of the last parameter
      cases last with
      | generic inner ips =>
        obtain ⟨t', is', init', last', ls', ht', hips, hls, hcount, heach', hlast'⟩ :=
          hopen inner ips rfl
        have heven : closes last' = 2 * m := by omega
        have hcomma : Derives (.comma .type) (is' ++ (ls' ++ closers (closes last')))
            (.list (ips.map .ty)) := by
          rw [hips, List.map_append, List.map_singleton]
          exact .commaLast heach' hlast'
        rw [hm, closers_odd, ← heven, hsplit, hls]
        simpa using Derives.nestedGeneric ht heach ht' hcomma
      | simple | tuple =>
        rw [closes] at hm
        · omega
        all_goals exact nofun
      | typedAddress entity => exact (not_derives_typedAddress hlast).elim
  · rintro _ _ ⟨⟩
    exact ⟨t, is, init, last, ls, ht, hsplit, rfl, hcloses, heach, hlast⟩

/-- **A tuple type.** -/
theorem typeReads_tuple {first : Ty} {more : List Ty} (hne : more ≠ [])
    (hfirst : TypeReads first) (h : ∀ p ∈ more, TypeReads p) :
    TypeReads (.tuple (first :: more)) := by
  obtain ⟨init, last, is, ls, hsplit, heach, hlast, -, -, hlexes⟩ := typesRead hne h
  obtain ⟨-, os, hlex, hd, -⟩ := hfirst
  have hcomma : Derives (.comma .type) (is ++ (ls ++ closers (closes last)))
      (.list (more.map .ty)) := by
    rw [hsplit, List.map_append, List.map_singleton]
    exact .commaLast heach hlast
  obtain ⟨p, ps, rfl⟩ := List.exists_cons_of_ne_nil hne
  have hprint : (fmtType (.tuple (first :: p :: ps))).toList =
      '(' :: ((fmtType first).toList ++ ',' :: ' ' ::
        ((commaJoin (fmtTypes (p :: ps))).toList ++ [')'])) := by
    rw [fmtType, String.toList_append, String.toList_append, toList_commaJoin, toList_commaJoin,
      fmtTypes, List.map_cons, fmtTypes, List.map_cons, intercalate_cons_cons]
    simp
  refine ⟨?_, parens (os ++ closers (closes first) ++
    .sym "," :: (is ++ (ls ++ closers (closes last)))), ?_, ?_, nofun⟩
  · rw [hprint]
    exact begins_cons (by decide)
  · intro k rest us hclosed hrest
    have hclose : Lexes (')' :: (List.replicate k '>' ++ rest)) (.sym ")" :: (closers k ++ us)) :=
      lexes_sym (s := ")") (by decide) (clear_of_extensions (by decide) (by decide) _)
        (lexes_closers hclosed hrest k)
    have hmore := lexes_comma (hlexes 0 _ _ (closed_cons (by decide) (by decide)) hclose)
    have hinner := hlex 0 _ _ (closed_cons (by decide) (by decide)) hmore
    have hopen := lexes_sym (s := "(") (by decide)
      (clear_of_extensions (by decide) (by decide) _) hinner
    rw [hprint]
    simpa [closes] using hopen
  · simpa [closes, closers] using Derives.tupleType hd hcomma

end CambrianLang.Syntax
