/-
  **The calls in the text of a recursive route.**

  The bodies of a recursive component are taken as text, and the calls of its members in
  them are rewritten to the components of the tuple the fixpoint is over. The scanner goes
  through the text character by character and tests at each one what stands before and
  behind; `Lexes` says which literals, words and other characters the text consists of.
  `substituteSccCalls_eq` is that the scanner rewrites the words that are the qualified
  name of a member, and nothing else.
-/
import Mathlib.Data.Bool.AllAny
import Mathlib.Data.List.Nodup
import Mathlib.Data.List.TakeWhile

namespace CambrianLang.Fuel

/-! ### Characters and literals -/

/-- `char::is_alphanumeric`, of which only what it says of ASCII is used. -/
structure Alphabet where
  isAlphanumeric : Char → Bool
  ascii : ∀ c : Char, c.toNat < 128 → isAlphanumeric c = c.isAlphanum

def Alphabet.asciiOnly : Alphabet := ⟨Char.isAlphanum, fun _ _ => rfl⟩

section Chars

variable (α : Alphabet)

/-- `is_ident_char`. -/
def isIdentChar (c : Char) : Bool :=
  α.isAlphanumeric c || c == '_' || c == '\'' || c == '!' || c == '?'

/-- What a qualified name is made of. -/
def isWordChar (c : Char) : Bool := isIdentChar α c || c == '.'

/-- `prev_breaks`, for the character before the one the scanner is at. -/
def prevBreaks (prev : Option Char) : Bool := prev.all fun c => !isIdentChar α c && c != '.'

theorem isIdentChar_of_isAlphanum {c : Char} (hascii : c.toNat < 128) (h : c.isAlphanum = true) :
    isIdentChar α c = true := by
  rw [isIdentChar, α.ascii c hascii, h]
  rfl

theorem isIdentChar_dot : isIdentChar α '.' = false := by
  rw [isIdentChar, α.ascii '.' (by decide)]
  decide

theorem isWordChar_quote : isWordChar α '"' = false := by
  rw [isWordChar, isIdentChar, α.ascii '"' (by decide)]
  decide

theorem isWordChar_of_ident {c : Char} (h : isIdentChar α c = true) : isWordChar α c = true := by
  rw [isWordChar, h, Bool.true_or]

theorem isWordChar_of_ascii {c : Char} (h : c = '.' ∨ c.toNat < 128 ∧ c.isAlphanum = true) :
    isWordChar α c = true := by
  rcases h with rfl | ⟨hlt, halnum⟩
  · rw [isWordChar, isIdentChar_dot]
    rfl
  · exact isWordChar_of_ident α (isIdentChar_of_isAlphanum α hlt halnum)

variable {α}

theorem eq_dot_of_wordChar {c : Char} (h : isWordChar α c = true) (hc : isIdentChar α c = false) :
    c = '.' := by
  rw [isWordChar, hc, Bool.false_or] at h
  exact beq_iff_eq.mp h

theorem prevBreaks_some (c : Char) : prevBreaks α (some c) = !isWordChar α c := by
  rw [isWordChar, Bool.not_or]
  rfl

end Chars

/-- How much of the text belongs to a literal, where `escaped` says that a backslash stands
    before. -/
def literalEndFrom : Bool → List Char → Nat
  | _, [] => 0
  | true, _ :: cs => literalEndFrom false cs + 1
  | false, c :: cs => if c = '"' then 1 else literalEndFrom (c == '\\') cs + 1

/-- `lean_string_literal_end`, counted from behind the opening quote. -/
def leanStringLiteralEnd (cs : List Char) : Nat := literalEndFrom false cs

theorem literalEndFrom_le (escaped : Bool) (cs : List Char) :
    literalEndFrom escaped cs ≤ cs.length := by
  fun_induction literalEndFrom escaped cs with
  | case1 => exact le_rfl
  | case2 c cs ih => exact Nat.succ_le_succ ih
  | case3 cs => exact Nat.succ_le_succ (Nat.zero_le _)
  | case4 c cs hc ih => exact Nat.succ_le_succ ih

theorem getLast?_literalFrom (escaped : Bool) (cs : List Char)
    (h : cs.drop (literalEndFrom escaped cs) ≠ []) :
    (cs.take (literalEndFrom escaped cs)).getLast? = some '"' := by
  fun_induction literalEndFrom escaped cs with
  | case1 => exact absurd rfl h
  | case2 c cs ih =>
    rw [List.take_succ_cons, List.getLast?_cons, ih h]
    rfl
  | case3 cs => rfl
  | case4 c cs hc ih =>
    rw [List.take_succ_cons, List.getLast?_cons, ih h]
    rfl

/-- A literal that leaves something of the text is closed. -/
theorem getLast?_literal (cs : List Char) (h : cs.drop (leanStringLiteralEnd cs) ≠ []) :
    ('"' :: cs.take (leanStringLiteralEnd cs)).getLast? = some '"' := by
  rw [List.getLast?_cons, leanStringLiteralEnd, getLast?_literalFrom false cs h]
  rfl

/-- The end of a literal does not depend on what stands behind it. -/
theorem literalEndFrom_take (escaped : Bool) (cs ys : List Char)
    (h : cs.drop (literalEndFrom escaped cs) = [] → ys = []) :
    literalEndFrom escaped (cs.take (literalEndFrom escaped cs) ++ ys) =
      literalEndFrom escaped cs := by
  fun_induction literalEndFrom escaped cs with
  | case1 e =>
    rw [h rfl]
    cases e <;> rfl
  | case2 c cs ih => rw [List.take_succ_cons, List.cons_append, literalEndFrom, ih h]
  | case3 cs => rfl
  | case4 c cs hc ih => rw [List.take_succ_cons, List.cons_append, literalEndFrom, if_neg hc, ih h]

theorem leanStringLiteralEnd_le (cs : List Char) : leanStringLiteralEnd cs ≤ cs.length :=
  literalEndFrom_le false cs

theorem leanStringLiteralEnd_take (cs ys : List Char)
    (h : cs.drop (leanStringLiteralEnd cs) = [] → ys = []) :
    leanStringLiteralEnd (cs.take (leanStringLiteralEnd cs) ++ ys) = leanStringLiteralEnd cs :=
  literalEndFrom_take false cs ys h

/-! ### Literals, words and other characters -/

inductive Lexeme where
  | literal (cs : List Char)
  | word (cs : List Char)
  | other (c : Char)
deriving DecidableEq

def Lexeme.text : Lexeme → List Char
  | .literal cs | .word cs => cs
  | .other c => [c]

section Scanning

variable (α : Alphabet)

/-- What a text consists of. A word is as long as it can be: no character that could
    belong to it stands before or behind it. -/
inductive Lexes : List Char → List Lexeme → Prop where
  | nil : Lexes [] []
  | literal {cs : List Char} {ls : List Lexeme}
      (hrest : Lexes (cs.drop (leanStringLiteralEnd cs)) ls) :
      Lexes ('"' :: cs) (.literal ('"' :: cs.take (leanStringLiteralEnd cs)) :: ls)
  | word {w cs : List Char} {ls : List Lexeme} (hne : w ≠ [])
      (hword : ∀ c ∈ w, isWordChar α c = true)
      (hmax : ∀ c ∈ cs.head?, isWordChar α c = false) (hrest : Lexes cs ls) :
      Lexes (w ++ cs) (.word w :: ls)
  | other {c : Char} {cs : List Char} {ls : List Lexeme} (hquote : c ≠ '"')
      (hc : isWordChar α c = false) (hrest : Lexes cs ls) : Lexes (c :: cs) (.other c :: ls)

end Scanning

/-! ### The scanner -/

/-- `fuel_projection`. -/
def fuelProjection (i k : Nat) : List Char :=
  if k = 1 then []
  else (List.replicate i ['.', '2']).flatten ++ if i + 1 < k then ['.', '1'] else []

/-- What stands between an entity and its route. -/
def routesInfix : List Char := ['.', 'R', 'o', 'u', 't', 'e', 's', '.']

theorem ascii_routesInfix : ∀ c ∈ routesInfix, c = '.' ∨ c.toNat < 128 ∧ c.isAlphanum = true :=
  List.all_iff_forall_prop.mp (by decide)

/-- The name the step of the fixpoint binds to the tuple one level below. -/
def ihName : List Char := ['i', 'h']

/-- The names of a component: of the entity, and of its routes in the order they are
    declared in. -/
structure SccNames (α : Alphabet) where
  entity : List Char
  routes : List (List Char)
  entity_ident : ∀ c ∈ entity, isIdentChar α c = true
  routes_ident : ∀ r ∈ routes, ∀ c ∈ r, isIdentChar α c = true
  nodup : routes.Nodup

/-- What the scanner does at a place of the text: it copies what stands there, or finds a
    call and puts a projection for it. -/
inductive Piece where
  | copied (cs : List Char)
  | call (ih : List Char)
deriving DecidableEq

def Piece.text : Piece → List Char
  | .copied cs | .call cs => cs

def Piece.isCall : Piece → Bool
  | .copied _ => false
  | .call _ => true

namespace SccNames

variable {α : Alphabet} (S : SccNames α)

/-- `prefix`. -/
def callPrefix : List Char := S.entity ++ routesInfix

/-- How a route is called. -/
def qualified (r : List Char) : List Char := S.callPrefix ++ r

/-- `ih_of`. -/
def ihOf (r : List Char) : Option (List Char) :=
  (S.routes.findIdx? (· == r)).map fun i => ihName ++ fuelProjection i S.routes.length

/-- The call at the start of the text, with its projection and its length; both the rewrite
    and `residual_call` test for one in this way. -/
def callAt (prev : Option Char) (cs : List Char) : Option (List Char × Nat) :=
  if S.callPrefix.isPrefixOf cs && prevBreaks α prev then
    let rest := cs.drop S.callPrefix.length
    let name := rest.takeWhile (isIdentChar α)
    if (rest.drop name.length).head? == some '.' then none
    else (S.ihOf name).map fun ih => (ih, S.callPrefix.length + name.length)
  else none

/-- The loop of `substitute_scc_calls` and of `residual_call`, with the character before
    the place it is at. -/
def pieces : Nat → Option Char → List Char → List Piece
  | 0, _, _ | _ + 1, _, [] => []
  | fuel + 1, prev, c :: cs =>
    if c = '"' then
      let literal := '"' :: cs.take (leanStringLiteralEnd cs)
      .copied literal :: pieces fuel literal.getLast? (cs.drop (leanStringLiteralEnd cs))
    else
      match S.callAt prev (c :: cs) with
      | some (ih, n) => .call ih :: pieces fuel ((c :: cs).take n).getLast? ((c :: cs).drop n)
      | none => .copied [c] :: pieces fuel (some c) cs

def scan (text : List Char) : List Piece := S.pieces text.length none text

/-- `residual_call`. -/
def residualCall (text : List Char) : Bool := (S.scan text).any Piece.isCall

/-- `substitute_scc_calls`; nothing when the guard finds a call that is left. -/
def substituteSccCalls (body : List Char) : Option (List Char) :=
  let out := (S.scan body).flatMap Piece.text
  if S.residualCall out then none else some out

/-! ### What the scanner finds -/

/-- The projection for a word that is the qualified name of a member. -/
def projectionOf (w : List Char) : Option (List Char) :=
  (S.routes.findIdx? (S.qualified · == w)).map fun i => ihName ++ fuelProjection i S.routes.length

/-- A lexeme with the projection in place of a call. -/
def rewrite : Lexeme → Lexeme
  | .word w => .word ((S.projectionOf w).getD w)
  | l => l

/-- The pieces of a lexeme. -/
def lexemePieces : Lexeme → List Piece
  | .literal cs => [.copied cs]
  | .word w =>
    match S.projectionOf w with
    | some ih => [.call ih]
    | none => w.map fun c => .copied [c]
  | .other c => [.copied [c]]

theorem callPrefix_word : ∀ c ∈ S.callPrefix, isWordChar α c = true := by
  intro c hc
  rcases List.mem_append.mp hc with hc | hc
  · exact isWordChar_of_ident α (S.entity_ident c hc)
  · exact isWordChar_of_ascii α (ascii_routesInfix c hc)

theorem projectionOf_append (v : List Char) : S.projectionOf (S.callPrefix ++ v) = S.ihOf v := by
  have heq : (fun r => S.qualified r == S.callPrefix ++ v) = fun r => r == v := by
    funext r
    rw [Bool.eq_iff_iff, beq_iff_eq, beq_iff_eq, qualified, List.append_cancel_left_eq]
  rw [projectionOf, heq, ihOf]

theorem projectionOf_isSome {w : List Char} (h : (S.projectionOf w).isSome = true) :
    ∃ r ∈ S.routes, w = S.qualified r := by
  rw [projectionOf, Option.isSome_map, List.findIdx?_isSome, List.any_eq_true] at h
  obtain ⟨r, hr, heq⟩ := h
  exact ⟨r, hr, (beq_iff_eq.mp heq).symm⟩

theorem ihOf_eq_none {v : List Char} {c : Char} (hc : c ∈ v) (hident : isIdentChar α c = false) :
    S.ihOf v = none := by
  rw [ihOf, Option.map_eq_none_iff, List.findIdx?_eq_none_iff]
  intro r hr
  refine beq_eq_false_iff_ne.mpr fun heq => ?_
  have htrue := S.routes_ident r hr c (heq ▸ hc)
  rw [hident] at htrue
  cases htrue

/-- In the middle of a word there is no call. -/
theorem callAt_of_word {p : Char} (h : isWordChar α p = true) (cs : List Char) :
    S.callAt (some p) cs = none := by
  rw [callAt, prevBreaks_some, h, Bool.not_true, Bool.and_false]
  rfl

theorem callPrefix_isPrefixOf_append {w cs : List Char}
    (hmax : ∀ c ∈ cs.head?, isWordChar α c = false) (h : S.callPrefix <+: w ++ cs) :
    S.callPrefix <+: w := by
  rcases List.prefix_or_prefix_of_prefix h (List.prefix_append w cs) with hpre | ⟨u, hu⟩
  · exact hpre
  · cases u with
    | nil =>
      rw [List.append_nil] at hu
      exact hu ▸ List.prefix_rfl
    | cons c u =>
      -- the prefix would go on behind the word, with a character that ends it
      obtain ⟨v, hv⟩ := h
      rw [← hu, List.append_assoc, List.append_cancel_left_eq, List.cons_append] at hv
      have hword : isWordChar α c = true := by
        refine S.callPrefix_word c ?_
        rw [← hu]
        exact List.mem_append_right w List.mem_cons_self
      rw [hmax c (by rw [← hv]; rfl)] at hword
      cases hword

/-- At the start of a word there is a call if the word is the name of a member. -/
theorem callAt_word {prev : Option Char} {w cs : List Char} (hprev : prevBreaks α prev = true)
    (hword : ∀ c ∈ w, isWordChar α c = true) (hmax : ∀ c ∈ cs.head?, isWordChar α c = false) :
    S.callAt prev (w ++ cs) = (S.projectionOf w).map fun ih => (ih, w.length) := by
  rw [callAt, hprev, Bool.and_true]
  by_cases hpre : S.callPrefix <+: w
  · obtain ⟨v, rfl⟩ := hpre
    have hfull : S.callPrefix.isPrefixOf (S.callPrefix ++ v ++ cs) = true := by
      rw [List.isPrefixOf_iff_prefix, List.append_assoc]
      exact List.prefix_append _ _
    rw [if_pos hfull, List.append_assoc, List.drop_left, S.projectionOf_append]
    dsimp only
    by_cases hident : ∀ c ∈ v, isIdentChar α c = true
    · have hname : (v ++ cs).takeWhile (isIdentChar α) = v := by
        rw [List.takeWhile_append_of_pos hident]
        cases cs with
        | nil => rw [List.takeWhile_nil, List.append_nil]
        | cons c cs =>
          have hc := hmax c rfl
          rw [isWordChar, Bool.or_eq_false_iff] at hc
          rw [List.takeWhile_cons_of_neg (by rw [hc.1]; exact Bool.false_ne_true),
            List.append_nil]
      have hdot : ¬ (cs.head? == some '.') = true := by
        intro h
        have hc := hmax '.' (beq_iff_eq.mp h)
        rw [isWordChar, beq_self_eq_true, Bool.or_true] at hc
        cases hc
      rw [hname, List.drop_left, if_neg hdot, List.length_append]
    · -- the first character of the rest that cannot be in a name is a dot
      have hsplit : v = v.takeWhile (isIdentChar α) ++ v.dropWhile (isIdentChar α) :=
        List.takeWhile_append_dropWhile.symm
      cases hrest : v.dropWhile (isIdentChar α) with
      | nil =>
        refine absurd (fun c hc => ?_) hident
        rw [hsplit, hrest, List.append_nil] at hc
        exact List.mem_takeWhile_imp hc
      | cons d ds =>
        have hd : d ∈ v := by
          rw [hsplit, hrest]
          exact List.mem_append_right _ List.mem_cons_self
        have hfalse : isIdentChar α d = false := by
          have hnot := List.head?_dropWhile_not (isIdentChar α) v
          rw [hrest] at hnot
          exact hnot
        have hdot : d = '.' := eq_dot_of_wordChar (hword d (List.mem_append_right _ hd)) hfalse
        have hname : (v ++ cs).takeWhile (isIdentChar α) = v.takeWhile (isIdentChar α) := by
          conv_lhs => rw [hsplit, hrest, List.append_assoc]
          rw [List.takeWhile_append_of_pos fun c hc => List.mem_takeWhile_imp hc,
            List.cons_append, List.takeWhile_cons_of_neg (by rw [hfalse]; exact Bool.false_ne_true),
            List.append_nil]
        have hhead : (List.drop (v.takeWhile (isIdentChar α)).length (v ++ cs)).head? =
            some '.' := by
          conv_lhs => rw [hsplit, hrest, List.append_assoc]
          rw [List.drop_left' (by rw [← hrest, ← hsplit]), hdot]
          rfl
        rw [hname, hhead, if_pos (beq_self_eq_true _), S.ihOf_eq_none hd hfalse]
        rfl
  · have hno : ¬ S.callPrefix.isPrefixOf (w ++ cs) = true := fun h =>
      hpre (S.callPrefix_isPrefixOf_append hmax (List.isPrefixOf_iff_prefix.mp h))
    have hnone : S.projectionOf w = none := by
      rw [← Option.not_isSome_iff_eq_none]
      intro h
      obtain ⟨r, -, rfl⟩ := S.projectionOf_isSome h
      exact hpre (List.prefix_append _ _)
    rw [if_neg hno, hnone]
    rfl

theorem pieces_nil (fuel : Nat) (prev : Option Char) : S.pieces fuel prev [] = [] := by
  cases fuel <;> rfl

/-- A word the scanner is in the middle of is copied. -/
theorem pieces_copied {w cs : List Char} {ps : List Piece}
    (hrest : ∀ fuel prev, cs.length ≤ fuel → S.pieces fuel prev cs = ps)
    (hword : ∀ c ∈ w, isWordChar α c = true) {p : Char} (hp : isWordChar α p = true) {fuel : Nat}
    (hfuel : (w ++ cs).length ≤ fuel) :
    S.pieces fuel (some p) (w ++ cs) = (w.map fun c => Piece.copied [c]) ++ ps := by
  induction w generalizing p fuel with
  | nil => exact hrest fuel _ hfuel
  | cons c w ih =>
    obtain ⟨hc, hword⟩ := List.forall_mem_cons.mp hword
    cases fuel with
    | zero => cases hfuel
    | succ fuel =>
      have hquote : c ≠ '"' := by
        rintro rfl
        rw [isWordChar_quote] at hc
        cases hc
      rw [List.cons_append, pieces, if_neg hquote, S.callAt_of_word hp,
        List.map_cons, List.cons_append]
      exact congrArg _ (ih hword hc (Nat.le_of_succ_le_succ hfuel))

/-- **The scanner** takes the lexemes of the text one after the other. -/
theorem pieces_eq {cs : List Char} {ls : List Lexeme} (h : Lexes α cs ls) :
    ∀ fuel prev, cs.length ≤ fuel →
      ((∃ c ∈ cs.head?, isWordChar α c = true) → prevBreaks α prev = true) →
      S.pieces fuel prev cs = ls.flatMap S.lexemePieces := by
  induction h with
  | nil => exact fun fuel prev _ _ => S.pieces_nil fuel prev
  | @literal cs ls hrest ih =>
    intro fuel prev hfuel _
    cases fuel with
    | zero => cases hfuel
    | succ fuel =>
      rw [pieces, if_pos rfl, List.flatMap_cons]
      refine congrArg _ (ih fuel _ ?_ ?_)
      · rw [List.length_drop]
        exact Nat.le_trans (Nat.sub_le _ _) (Nat.le_of_succ_le_succ hfuel)
      · rintro ⟨c, hc, -⟩
        have hne : cs.drop (leanStringLiteralEnd cs) ≠ [] := by
          intro hnil
          rw [hnil] at hc
          cases hc
        rw [getLast?_literal cs hne, prevBreaks_some, isWordChar_quote]
        rfl
  | @word w cs ls hne hword hmax hrest ih =>
    intro fuel prev hfuel hprev
    have hafter : ∀ fuel prev, cs.length ≤ fuel →
        S.pieces fuel prev cs = ls.flatMap S.lexemePieces := by
      refine fun fuel prev hle => ih fuel prev hle ?_
      rintro ⟨c, hc, htrue⟩
      rw [hmax c hc] at htrue
      cases htrue
    cases w with
    | nil => exact absurd rfl hne
    | cons c w =>
      have hc := hword c List.mem_cons_self
      have hbreak : prevBreaks α prev = true := hprev ⟨c, rfl, hc⟩
      cases fuel with
      | zero => cases hfuel
      | succ fuel =>
        have hquote : c ≠ '"' := by
          rintro rfl
          rw [isWordChar_quote] at hc
          cases hc
        have hcall := S.callAt_word hbreak hword hmax
        rw [List.cons_append] at hcall
        rw [List.cons_append, pieces, if_neg hquote, hcall, List.flatMap_cons, lexemePieces]
        cases S.projectionOf (c :: w) with
        | some ih =>
          have hdrop : (c :: (w ++ cs)).drop (c :: w).length = cs := List.drop_left
          rw [Option.map_some]
          dsimp only
          rw [hdrop]
          refine congrArg _ (hafter fuel _ ?_)
          rw [List.length_append, List.length_cons] at hfuel
          omega
        | none =>
          rw [Option.map_none]
          exact congrArg _ (S.pieces_copied hafter (fun d hd => hword d (List.mem_cons_of_mem c hd))
            hc (Nat.le_of_succ_le_succ hfuel))
  | @other c cs ls hquote hc hrest ih =>
    intro fuel prev hfuel _
    cases fuel with
    | zero => cases hfuel
    | succ fuel =>
      have hcall : S.callAt prev (c :: cs) = none := by
        have hne : S.callPrefix.isPrefixOf (c :: cs) = false := by
          cases hpre : S.callPrefix with
          | nil => exact absurd hpre (List.append_ne_nil_of_right_ne_nil _ (List.cons_ne_nil _ _))
          | cons d ds =>
            have hd := S.callPrefix_word d (by rw [hpre]; exact List.mem_cons_self)
            have hcd : (d == c) = false := by
              refine beq_eq_false_iff_ne.mpr fun heq => ?_
              rw [heq, hc] at hd
              cases hd
            rw [List.isPrefixOf_cons_cons, hcd, Bool.false_and]
        rw [callAt, hne]
        rfl
      rw [pieces, if_neg hquote, hcall, List.flatMap_cons]
      refine congrArg _ (ih fuel _ (Nat.le_of_succ_le_succ hfuel) fun _ => ?_)
      rw [prevBreaks_some, hc]
      rfl

theorem scan_eq {cs : List Char} {ls : List Lexeme} (h : Lexes α cs ls) :
    S.scan cs = ls.flatMap S.lexemePieces :=
  S.pieces_eq h _ _ le_rfl fun _ => rfl

/-! ### What is left of the calls -/

theorem flatMap_lexemePieces_text (l : Lexeme) :
    (S.lexemePieces l).flatMap Piece.text = (S.rewrite l).text := by
  cases l with
  | literal cs => exact List.append_nil cs
  | word w =>
    rw [lexemePieces, rewrite, Lexeme.text]
    cases S.projectionOf w with
    | some ih => exact List.append_nil ih
    | none =>
      rw [List.flatMap_map]
      exact List.flatMap_singleton' w
  | other c => rfl

theorem mem_fuelProjection {i k : Nat} {c : Char} (h : c ∈ fuelProjection i k) :
    c ∈ ['.', '1', '2'] := by
  rw [fuelProjection] at h
  split at h
  · cases h
  · rcases List.mem_append.mp h with h | h
    · obtain ⟨l, hl, hc⟩ := List.mem_flatten.mp h
      rw [List.eq_of_mem_replicate hl] at hc
      simp only [List.mem_cons, List.not_mem_nil, or_false] at hc ⊢
      rcases hc with rfl | rfl
      · exact Or.inl rfl
      · exact Or.inr (Or.inr rfl)
    · split at h
      · simp only [List.mem_cons, List.not_mem_nil, or_false] at h ⊢
        rcases h with rfl | rfl
        · exact Or.inl rfl
        · exact Or.inr (Or.inl rfl)
      · cases h

theorem mem_projection {w ih : List Char} (h : S.projectionOf w = some ih) :
    ∀ c ∈ ih, c ∈ ['i', 'h', '.', '1', '2'] := by
  obtain ⟨i, -, rfl⟩ := Option.map_eq_some_iff.mp h
  intro c hc
  rcases List.mem_append.mp hc with hc | hc
  · exact List.mem_append_left ['.', '1', '2'] hc
  · exact List.mem_append_right ['i', 'h'] (mem_fuelProjection hc)

theorem projection_word {w ih : List Char} (h : S.projectionOf w = some ih) :
    ∀ c ∈ ih, isWordChar α c = true := by
  have hascii : ∀ d ∈ ['i', 'h', '.', '1', '2'],
      d = '.' ∨ d.toNat < 128 ∧ d.isAlphanum = true := List.all_iff_forall_prop.mp (by decide)
  exact fun c hc => isWordChar_of_ascii α (hascii c (S.mem_projection h c hc))

theorem projection_ne_nil {w ih : List Char} (h : S.projectionOf w = some ih) : ih ≠ [] := by
  obtain ⟨i, -, rfl⟩ := Option.map_eq_some_iff.mp h
  exact List.cons_ne_nil _ _

/-- A projection is not the name of a member, whatever the entity is called. -/
theorem projectionOf_projection {w ih : List Char} (h : S.projectionOf w = some ih) :
    S.projectionOf ih = none := by
  rw [← Option.not_isSome_iff_eq_none]
  intro hsome
  obtain ⟨r, -, heq⟩ := S.projectionOf_isSome hsome
  have hmem : 'R' ∈ ih := by
    rw [heq]
    exact List.mem_append_left r (List.mem_append_right S.entity (by decide))
  exact absurd (S.mem_projection h 'R' hmem) (by decide)

theorem lexemePieces_rewrite (l : Lexeme) :
    ∀ p ∈ S.lexemePieces (S.rewrite l), p.isCall = false := by
  cases l with
  | literal cs => exact fun p hp => by rw [List.mem_singleton.mp hp]; rfl
  | word w =>
    have hnone : S.projectionOf ((S.projectionOf w).getD w) = none := by
      cases hw : S.projectionOf w with
      | some ih => exact S.projectionOf_projection hw
      | none => exact hw
    rw [rewrite, lexemePieces, hnone]
    intro p hp
    obtain ⟨c, -, rfl⟩ := List.mem_map.mp hp
    rfl
  | other c => exact fun p hp => by rw [List.mem_singleton.mp hp]; rfl

/-- The rewritten text has the rewritten lexemes, and starts inside a word or not as the text
    does. -/
theorem Lexes.rewrite {cs : List Char} {ls : List Lexeme} (h : Lexes α cs ls) :
    Lexes α ((ls.map S.rewrite).flatMap Lexeme.text) (ls.map S.rewrite) ∧
      ((∀ c ∈ cs.head?, isWordChar α c = false) →
        ∀ c ∈ ((ls.map S.rewrite).flatMap Lexeme.text).head?, isWordChar α c = false) ∧
      (cs = [] → (ls.map S.rewrite).flatMap Lexeme.text = []) := by
  induction h with
  | nil => exact ⟨.nil, fun _ => nofun, fun _ => rfl⟩
  | @literal cs ls hrest ih =>
    have hend := leanStringLiteralEnd_take cs _ ih.2.2
    refine ⟨?_, ?_, nofun⟩
    · -- what is put behind the literal does not move its end
      have hlen : (cs.take (leanStringLiteralEnd cs)).length = leanStringLiteralEnd cs := by
        rw [List.length_take, Nat.min_eq_left (leanStringLiteralEnd_le cs)]
      have hlex := @Lexes.literal α (cs.take (leanStringLiteralEnd cs) ++
        (ls.map S.rewrite).flatMap Lexeme.text) (ls.map S.rewrite)
      rw [hend, List.drop_left' hlen, List.take_left' hlen] at hlex
      exact hlex ih.1
    · intro _ c hc
      cases hc
      exact isWordChar_quote α
  | @word w cs ls hne hword hmax hrest ih =>
    have hne' : (S.projectionOf w).getD w ≠ [] := by
      cases hw : S.projectionOf w with
      | some ih => exact S.projection_ne_nil hw
      | none => exact hne
    have hword' : ∀ c ∈ (S.projectionOf w).getD w, isWordChar α c = true := by
      cases hw : S.projectionOf w with
      | some ih => exact S.projection_word hw
      | none => exact hword
    refine ⟨.word hne' hword' (ih.2.1 hmax) ih.1, ?_, ?_⟩
    · intro hno
      obtain ⟨c, w, rfl⟩ := List.exists_cons_of_ne_nil hne
      have hc := hno c rfl
      rw [hword c List.mem_cons_self] at hc
      cases hc
    · exact fun hnil => absurd (List.append_eq_nil_iff.mp hnil).1 hne
  | other hquote hc hrest ih =>
    refine ⟨.other hquote hc ih.1, ?_, nofun⟩
    intro _ d hd
    cases hd
    exact hc

/-- **The rewrite** puts the projections in place of the calls, and the guard finds none left. -/
theorem substituteSccCalls_eq {body : List Char} {ls : List Lexeme} (h : Lexes α body ls) :
    S.substituteSccCalls body = some ((ls.map S.rewrite).flatMap Lexeme.text) := by
  have hout : (S.scan body).flatMap Piece.text = (ls.map S.rewrite).flatMap Lexeme.text := by
    rw [S.scan_eq h, List.flatMap_assoc, List.flatMap_map]
    exact List.flatMap_congr fun l _ => S.flatMap_lexemePieces_text l
  have hleft : S.residualCall ((ls.map S.rewrite).flatMap Lexeme.text) = false := by
    rw [residualCall, S.scan_eq (Lexes.rewrite S h).1, List.any_eq_false]
    intro p hp
    obtain ⟨l, hl, hp⟩ := List.mem_flatMap.mp hp
    obtain ⟨l, -, rfl⟩ := List.mem_map.mp hl
    rw [S.lexemePieces_rewrite l p hp]
    exact Bool.false_ne_true
  rw [substituteSccCalls, hout, hleft]
  rfl

/-- A name in the code is rewritten by itself. -/
theorem substituteSccCalls_word {w : List Char} (hne : w ≠ [])
    (hword : ∀ c ∈ w, isWordChar α c = true) :
    S.substituteSccCalls w = some ((S.projectionOf w).getD w) := by
  have hlex : Lexes α (w ++ []) [.word w] := .word hne hword nofun .nil
  rw [List.append_nil] at hlex
  rw [S.substituteSccCalls_eq hlex]
  exact congrArg some (List.append_nil _)

theorem projectionOf_qualified {i : Nat} (hi : i < S.routes.length) :
    S.projectionOf (S.qualified S.routes[i]) = some (ihName ++ fuelProjection i S.routes.length) := by
  have hidx : S.routes.findIdx? (· == S.routes[i]) = some i := by
    rw [List.findIdx?_eq_some_iff_getElem]
    refine ⟨hi, beq_self_eq_true _, fun j hj => ?_⟩
    rw [beq_iff_eq]
    exact fun heq => hj.ne (S.nodup.getElem_inj_iff.mp heq)
  rw [qualified, S.projectionOf_append, ihOf, hidx, Option.map_some]

end SccNames

end CambrianLang.Fuel
