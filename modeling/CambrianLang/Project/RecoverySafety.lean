/-
  **When the collection of parse errors ends well.**

  A position to resume at is the start of an ASCII character or follows one, so the text can
  be sliced there.  The position past the end of an error need not be.  The collection ends
  without a panic exactly when no round that goes on from such a position is inside a
  character, and then its diagnostics are what they should be.
-/
import CambrianLang.Project.ParseRecovery

namespace CambrianLang.Project

open Utf8Text Relation

/-! ### Positions -/

section Positions

variable {src : List Char}

theorem isIdentStart_ascii {c : UInt8} (h : isIdentStart c = true) : c.toNat < 128 := by
  simp only [isIdentStart, Bool.or_eq_true, Bool.and_eq_true, beq_iff_eq, decide_eq_true_eq,
    UInt8.le_iff_toNat_le] at h
  rcases h with (rfl | ⟨-, h⟩) | ⟨-, h⟩
  · decide
  · exact Nat.lt_of_le_of_lt h (by decide)
  · exact Nat.lt_of_le_of_lt h (by decide)

theorem isIdentContinue_ascii (c : UInt8) (h : isIdentContinue c = true) : c.toNat < 128 := by
  simp only [isIdentContinue, Bool.or_eq_true, Bool.and_eq_true, decide_eq_true_eq,
    UInt8.le_iff_toNat_le] at h
  rcases h with h | ⟨-, h⟩
  · exact isIdentStart_ascii h
  · exact Nat.lt_of_le_of_lt h (by decide)

theorem isAsciiWhitespace_ascii (c : UInt8) (h : isAsciiWhitespace c = true) : c.toNat < 128 := by
  simp only [isAsciiWhitespace, Bool.or_eq_true, beq_iff_eq] at h
  rcases h with (((rfl | rfl) | rfl) | rfl) | rfl <;> decide

theorem lt_byteLen {i : Nat} {c : UInt8} (h : (bytes src)[i]? = some c) : i < byteLen src :=
  (List.getElem?_eq_some_iff.mp h).1

/-- An identifier starts and ends where characters do. -/
theorem readIdent_eq {i : Nat} {c : UInt8} (hc : (bytes src)[i]? = some c)
    (hstart : isIdentStart c = true) :
    ∃ ident stop, readIdent src i = some (ident, stop) ∧ i < stop := by
  obtain ⟨hat, hafter⟩ := isBoundary_of_ascii hc (isIdentStart_ascii hstart)
  have hstop := isBoundary_takeWhile isIdentContinue_ascii hafter
  rw [readIdent, hc]
  simp only [hstart, if_true, if_pos (And.intro hat hstop)]
  exact ⟨_, _, rfl, by omega⟩

theorem readIdent_isSome (src : List Char) (i : Nat) : ∃ r, readIdent src i = some r := by
  cases hc : (bytes src)[i]? with
  | none => exact ⟨_, by rw [readIdent, hc]⟩
  | some c =>
    by_cases hstart : isIdentStart c = true
    · obtain ⟨ident, stop, hread, -⟩ := readIdent_eq hc hstart
      exact ⟨_, hread⟩
    · exact ⟨_, by rw [readIdent, hc]; exact if_neg hstart⟩

/-- A byte inside a string or a comment moves the scan on. -/
theorem lexStep_lt {bs : List UInt8} {lex lex' : Lex} {i j : Nat} {c : UInt8}
    (h : lexStep bs lex i c = some (lex', j)) : i < j := by
  unfold lexStep at h
  split at h
  · simp only [Option.some.injEq, Prod.mk.injEq] at h
    omega
  · split at h <;>
      · simp only [Option.some.injEq, Prod.mk.injEq] at h
        omega
  · split at h
    · simp only [Option.some.injEq, Prod.mk.injEq] at h
      omega
    · split at h
      · simp only [Option.some.injEq, Prod.mk.injEq] at h
        omega
      · cases h

theorem depthLoop_isSome {bs : List UInt8} {stop : Nat} (hstop : stop ≤ bs.length) (fuel : Nat) :
    ∀ (i : Nat) (lex : Lex) (depth : Int32), stop - i < fuel →
      ∃ d, depthLoop bs stop fuel i lex depth = some d := by
  induction fuel with
  | zero => exact fun _ _ _ hfuel => absurd hfuel (Nat.not_lt_zero _)
  | succ fuel ih =>
    intro i lex depth hfuel
    rw [depthLoop]
    split
    · next hlt =>
      rw [List.getElem?_eq_getElem (hlt.trans_le hstop)]
      simp only
      cases hstep : lexStep bs lex i bs[i] with
      | some next =>
        obtain ⟨lex', j⟩ := next
        have hj := lexStep_lt hstep
        exact ih j lex' depth (by omega)
      | none =>
        simp only
        split
        · exact ih _ _ _ (by omega)
        · split
          · exact ih _ _ _ (by omega)
          · exact ih _ _ _ (by omega)
    · exact ⟨depth, rfl⟩

/-- Past a closing brace and the blanks after it a character starts. -/
theorem skipWs_after_brace {i : Nat} {c : UInt8} (hc : (bytes src)[i]? = some c)
    (h : (c == 125) = true) : i < skipWs src (i + 1) ∧ IsBoundary src (skipWs src (i + 1)) := by
  have hascii : c.toNat < 128 := by
    rw [beq_iff_eq.mp h]
    decide
  constructor
  · rw [skipWs]
    omega
  · exact isBoundary_takeWhile isAsciiWhitespace_ascii (isBoundary_of_ascii hc hascii).2

/-- Past a closing bracket or a semicolon a character starts. -/
theorem isBoundary_after_close {i : Nat} {c : UInt8} (hc : (bytes src)[i]? = some c)
    (h : (c == 93 || c == 59) = true) : IsBoundary src (i + 1) := by
  have hascii : c.toNat < 128 := by
    rw [Bool.or_eq_true, beq_iff_eq, beq_iff_eq] at h
    rcases h with rfl | rfl
    · decide
    · decide
  exact (isBoundary_of_ascii hc hascii).2

theorem nextSyncLoop_spec (src : List Char) (start : Nat) (fuel : Nat) :
    ∀ (i : Nat) (lex : Lex) (depth : Int32), start ≤ i → byteLen src - i < fuel →
      ∃ r, nextSyncLoop src start fuel i lex depth = some r ∧
        ∀ n, r = some n → start ≤ n ∧ IsBoundary src n := by
  induction fuel with
  | zero => exact fun _ _ _ _ hfuel => absurd hfuel (Nat.not_lt_zero _)
  | succ fuel ih =>
    intro i lex depth hi hfuel
    rw [nextSyncLoop]
    cases hc : (bytes src)[i]? with
    | none => exact ⟨none, rfl, fun _ h => by cases h⟩
    | some c =>
      have hlt := lt_byteLen hc
      simp only
      cases hstep : lexStep (bytes src) lex i c with
      | some next =>
        obtain ⟨lex', j⟩ := next
        have hj := lexStep_lt hstep
        exact ih j lex' depth (by omega) (by omega)
      | none =>
        simp only
        split
        · next hbrace =>
          split
          · obtain ⟨hafter, hat⟩ := skipWs_after_brace hc hbrace
            refine ⟨_, rfl, fun n hn => ?_⟩
            cases hn
            exact ⟨by omega, hat⟩
          · exact ih _ _ _ (by omega) (by omega)
        · split
          · next hclose =>
            refine ⟨_, rfl, fun n hn => ?_⟩
            cases hn
            exact ⟨by omega, isBoundary_after_close hc hclose⟩
          · generalize (if (c == 123) = true then depth + 1 else depth) = opened
            split
            · next hident =>
              obtain ⟨ident, stop, hread, hstop⟩ := readIdent_eq hc hident.2
              simp only [hread]
              split
              · refine ⟨_, rfl, fun n hn => ?_⟩
                cases hn
                exact ⟨hi, (isBoundary_of_ascii hc (isIdentStart_ascii hident.2)).1⟩
              · exact ih _ _ _ (by omega) (by omega)
            · exact ih _ _ _ (by omega) (by omega)

/-- **A synchronization point is where a character starts**, and not before the given
    position; the search for it does not panic. -/
theorem nextSyncPoint_spec (src : List Char) (start : Nat) :
    ∃ r, nextSyncPoint src start = some r ∧ ∀ n, r = some n → start ≤ n ∧ IsBoundary src n := by
  rw [nextSyncPoint]
  split
  · exact ⟨none, rfl, fun _ h => by cases h⟩
  · obtain ⟨depth, hdepth⟩ := depthLoop_isSome (Nat.min_le_right start (byteLen src))
      (byteLen src + 1) 0 .code 0 (by omega)
    rw [depthBefore, hdepth, Option.bind_some]
    exact nextSyncLoop_spec src start _ start .code depth (Nat.le_refl _) (by omega)

theorem fromKeyword_spec (src : List Char) (start pos : Nat) :
    ∃ r, fromKeyword src start pos = some r ∧ ∀ n, r = some n → pos < n ∧ IsBoundary src n := by
  rw [fromKeyword]
  cases hslice : sliceFrom src start with
  | none => exact ⟨none, rfl, fun _ h => by cases h⟩
  | some rest =>
    obtain ⟨ident, hread⟩ := readIdent_isSome rest 0
    simp only [hread, Option.map_some]
    refine ⟨_, rfl, fun n hn => ?_⟩
    split at hn
    · next hkw =>
      cases hn
      rw [Bool.and_eq_true, decide_eq_true_eq] at hkw
      exact ⟨hkw.2, by rw [IsBoundary, hslice]; rfl⟩
    · cases hn

theorem target_spec (src : List Char) (start stop pos : Nat) :
    ∃ t, target src start stop pos = some t ∧
      ((∃ n, t = .resume n ∧ pos < n ∧ IsBoundary src n) ∨ t = .skip (pastEnd stop pos)) := by
  obtain ⟨kw, hkw, hkwSpec⟩ := fromKeyword_spec src start pos
  obtain ⟨sync, hsync, hsyncSpec⟩ := nextSyncPoint_spec src (max stop (pos + 1))
  rw [target, hkw]
  cases kw with
  | some n =>
    obtain ⟨hlt, hat⟩ := hkwSpec n rfl
    exact ⟨_, rfl, Or.inl ⟨n, rfl, hlt, hat⟩⟩
  | none =>
    simp only [hsync, Option.bind_eq_bind, Option.bind_some]
    cases sync with
    | none => exact ⟨_, rfl, Or.inr rfl⟩
    | some n =>
      obtain ⟨hle, hat⟩ := hsyncSpec n rfl
      have hlt : pos < n := by omega
      exact ⟨.resume n, by simp only [if_pos hlt]; rfl, Or.inl ⟨n, rfl, hlt, hat⟩⟩

end Positions

/-! ### Rounds -/

section Rounds

variable {π : Type} (parse : List Char → Except ParseError π) (src : List Char) (path : String)
  (maxErrors : Nat)

/-- One round leads to the next. -/
def Next (s s' : LoopState) : Prop := recoverStep parse src path maxErrors s = .next s'

/-- Where a round goes that goes past the end of the error: the error is listed already, or
    there is nothing to resume at. -/
def skipTarget (s : LoopState) : Option Nat :=
  match sliceFrom src s.pos with
  | none => none
  | some slice =>
      match parse slice with
      | .ok _ => none
      | .error err =>
          let (d, start, stop) := errorAt src path err s.pos
          if isNew s d then
            match target src start stop s.pos with
            | some (.skip p) => some p
            | _ => none
          else some (pastEnd stop s.pos)

/-- No round that goes past the end of an error and then goes on has come to the inside of a
    character. -/
def CleanSkips : Prop :=
  ∀ s s', ReflTransGen (Next parse src path maxErrors) start s →
    Next parse src path maxErrors s s' → skipTarget parse src path s = some s'.pos →
      ¬ Stops src maxErrors s' → IsBoundary src s'.pos

theorem pastEnd_gt (stop pos : Nat) : pos < pastEnd stop pos := by
  rw [pastEnd]
  omega

/-- What a round can do. -/
inductive Round (s : LoopState) : Step → Prop
  | stops (h : Stops src maxErrors s) : Round s (.done s.diags)
  | outside (h : ¬ Stops src maxErrors s) (hat : ¬ IsBoundary src s.pos) : Round s .panicked
  | parses {slice : List Char} {program : π} (h : ¬ Stops src maxErrors s)
      (hslice : sliceFrom src s.pos = some slice) (hparse : parse slice = .ok program) :
      Round s (.done (if s.pos = 0 then [] else s.diags))
  | resumes {slice : List Char} {err : ParseError} {n : Nat} (h : ¬ Stops src maxErrors s)
      (hslice : sliceFrom src s.pos = some slice) (hparse : parse slice = .error err)
      (hlt : s.pos < n) (hat : IsBoundary src n) :
      Round s (.next ⟨n, s.diags ++ [diagnosticFromParseError err path src s.pos], s.guard + 1⟩)
  | skips {slice : List Char} {err : ParseError} {n : Nat} (h : ¬ Stops src maxErrors s)
      (hslice : sliceFrom src s.pos = some slice) (hparse : parse slice = .error err)
      (hlt : s.pos < n) (hskip : skipTarget parse src path s = some n) :
      Round s (.next ⟨n, s.diags ++ [diagnosticFromParseError err path src s.pos], s.guard + 1⟩)
  | ends {slice : List Char} {err : ParseError} (h : ¬ Stops src maxErrors s)
      (hslice : sliceFrom src s.pos = some slice) (hparse : parse slice = .error err) :
      Round s (.done (s.diags ++ [diagnosticFromParseError err path src s.pos]))
  | repeats {slice : List Char} {err : ParseError} {n : Nat} (h : ¬ Stops src maxErrors s)
      (hslice : sliceFrom src s.pos = some slice) (hparse : parse slice = .error err)
      (hpos : s.pos ≠ 0) (hlt : s.pos < n) (hskip : skipTarget parse src path s = some n) :
      Round s (.next ⟨n, s.diags, s.guard + 1⟩)

theorem round (s : LoopState) :
    Round parse src path maxErrors s (recoverStep parse src path maxErrors s) := by
  rw [recoverStep]
  split
  · next h => exact .stops h
  · next h =>
    cases hslice : sliceFrom src s.pos with
    | none => exact .outside h (by rw [IsBoundary, hslice]; decide)
    | some slice =>
      cases hparse : parse slice with
      | ok program =>
        simp only [hparse]
        exact .parses h hslice hparse
      | error err =>
        obtain ⟨t, ht, hspec⟩ := target_spec src (errorAt src path err s.pos).2.1
          (errorAt src path err s.pos).2.2 s.pos
        have hgt := pastEnd_gt (errorAt src path err s.pos).2.2 s.pos
        simp only [hparse]
        by_cases hnew : isNew s (errorAt src path err s.pos).1 = true
        · rw [if_pos hnew, ht]
          rcases hspec with ⟨n, rfl, hlt, hat⟩ | rfl
          · exact .resumes h hslice hparse hlt hat
          · simp only
            split
            · exact .ends h hslice hparse
            · refine .skips h hslice hparse hgt ?_
              rw [skipTarget, hslice]
              simp only [hparse, if_pos hnew, ht]
        · rw [if_neg hnew]
          refine .repeats h hslice hparse ?_ hgt ?_
          · intro hzero
            exact hnew (by rw [isNew, hzero]; rfl)
          · rw [skipTarget, hslice]
            simp only [hparse, if_neg hnew]

theorem Next.round {s s' : LoopState} (h : Next parse src path maxErrors s s') :
    Round parse src path maxErrors s (.next s') := by
  have hround := CambrianLang.Project.round parse src path maxErrors s
  rw [Next] at h
  rwa [h] at hround

/-- What holds between the rounds. -/
structure LoopInv (s : LoopState) : Prop where
  count : s.diags.length ≤ maxErrors
  first : (s.pos = 0 ∧ s.diags = [] ∧ s.guard = 0) ∨ (0 < s.pos ∧ ∃ err, parse src = .error err ∧
    s.diags.head? = some (diagnosticFromParseError err path src 0))

theorem loopInv_start : LoopInv parse src path maxErrors start :=
  ⟨Nat.zero_le _, Or.inl ⟨rfl, rfl, rfl⟩⟩

variable {parse src path maxErrors}

/-- The first diagnostic of the list is that of the whole text, also after a new one. -/
theorem LoopInv.first_append {s : LoopState} (h : LoopInv parse src path maxErrors s)
    {slice : List Char} {err : ParseError} (hslice : sliceFrom src s.pos = some slice)
    (hparse : parse slice = .error err) :
    ∃ err', parse src = .error err' ∧
      (s.diags ++ [diagnosticFromParseError err path src s.pos]).head? =
        some (diagnosticFromParseError err' path src 0) := by
  rcases h.first with ⟨hpos, hdiags, -⟩ | ⟨-, err', herr', hhead⟩
  · rw [hpos, sliceFrom_zero, Option.some.injEq] at hslice
    subst hslice
    exact ⟨err, hparse, by rw [hdiags, hpos]; rfl⟩
  · exact ⟨err', herr', by rw [List.head?_append, hhead]; rfl⟩

theorem count_append {s : LoopState} (h : ¬ Stops src maxErrors s) (d : ParseDiagnostic) :
    (s.diags ++ [d]).length ≤ maxErrors := by
  rw [Stops, not_or] at h
  rw [List.length_append, List.length_singleton]
  omega

theorem loopInv_next {s s' : LoopState} (h : LoopInv parse src path maxErrors s)
    (hnext : Next parse src path maxErrors s s') :
    LoopInv parse src path maxErrors s' := by
  cases hnext.round with
  | resumes hgo hslice hparse hlt _ | skips hgo hslice hparse hlt _ =>
    exact ⟨count_append hgo _, Or.inr ⟨Nat.lt_of_le_of_lt (Nat.zero_le _) hlt,
      h.first_append hslice hparse⟩⟩
  | repeats hgo hslice hparse hpos hlt _ =>
    refine ⟨h.count, Or.inr ⟨Nat.lt_of_le_of_lt (Nat.zero_le _) hlt, ?_⟩⟩
    rcases h.first with ⟨hzero, -⟩ | ⟨-, hfirst⟩
    · exact absurd hzero hpos
    · exact hfirst

theorem loopInv_reached {s : LoopState}
    (hreach : ReflTransGen (Next parse src path maxErrors) start s) :
    LoopInv parse src path maxErrors s := by
  induction hreach with
  | refl => exact loopInv_start parse src path maxErrors
  | tail _ hnext ih => exact loopInv_next ih hnext

/-! ### The end of the loop -/

/-- What the diagnostics should be. -/
structure Collected (parse : List Char → Except ParseError π) (src : List Char) (path : String)
    (maxErrors : Nat) (diags : List ParseDiagnostic) : Prop where
  count : diags.length ≤ maxErrors
  empty : diags = [] ↔ ∃ program, parse src = .ok program
  first : ∀ err, parse src = .error err →
    diags.head? = some (diagnosticFromParseError err path src 0)

theorem collected_of_head {diags : List ParseDiagnostic} (hcount : diags.length ≤ maxErrors)
    {err : ParseError} (hparse : parse src = .error err)
    (hhead : diags.head? = some (diagnosticFromParseError err path src 0)) :
    Collected parse src path maxErrors diags := by
  refine ⟨hcount, ?_, ?_⟩
  · constructor
    · rintro rfl
      cases hhead
    · rintro ⟨program, hok⟩
      rw [hparse] at hok
      cases hok
  · intro err' herr'
    rw [hparse] at herr'
    cases herr'
    exact hhead

theorem collected_of_ok {program : π} (hparse : parse src = .ok program) :
    Collected parse src path maxErrors [] := by
  refine ⟨Nat.zero_le _, ⟨fun _ => ⟨program, hparse⟩, fun _ => rfl⟩, ?_⟩
  intro err herr
  rw [hparse] at herr
  cases herr

/-- The diagnostics are right when the loop is done. -/
theorem collected_done (hempty : ∃ program, parse [] = .ok program) (hmax : 0 < maxErrors)
    {s : LoopState} (h : LoopInv parse src path maxErrors s) {diags : List ParseDiagnostic}
    (hdone : recoverStep parse src path maxErrors s = .done diags) :
    Collected parse src path maxErrors diags := by
  have hround := round parse src path maxErrors s
  rw [hdone] at hround
  cases hround with
  | stops hstops =>
    rcases h.first with ⟨hpos, hdiags, hguard⟩ | ⟨-, err, herr, hhead⟩
    · -- nothing has been tried, so the text is empty
      rw [Stops, hpos, hdiags, hguard, List.length_nil] at hstops
      obtain ⟨program, hprogram⟩ := hempty
      rw [hdiags]
      have hlen : byteLen src = 0 := by omega
      have hok : parse src = .ok program := by rw [eq_nil_of_byteLen hlen, hprogram]
      exact collected_of_ok hok
    · exact collected_of_head h.count herr hhead
  | parses hgo hslice hparse =>
    rcases h.first with ⟨hpos, -, -⟩ | ⟨hpos, err, herr, hhead⟩
    · rw [hpos, sliceFrom_zero, Option.some.injEq] at hslice
      subst hslice
      rw [if_pos hpos]
      exact collected_of_ok hparse
    · rw [if_neg (by omega)]
      exact collected_of_head h.count herr hhead
  | ends hgo hslice hparse =>
    obtain ⟨err, herr, hhead⟩ := h.first_append hslice hparse
    exact collected_of_head (count_append hgo _) herr hhead

/-- The guard ends the loop. -/
theorem recoverLoop_isSome (fuel : Nat) : ∀ s : LoopState, s.guard ≤ byteLen src + 3 →
    byteLen src + 4 ≤ fuel + s.guard →
      ∃ o, recoverLoop parse src path maxErrors fuel s = some o := by
  induction fuel with
  | zero => exact fun s hguard hfuel => absurd hfuel (by omega)
  | succ fuel ih =>
    intro s hguard hfuel
    have hround := round parse src path maxErrors s
    rw [recoverLoop]
    cases hstep : recoverStep parse src path maxErrors s with
    | done diags => exact ⟨_, rfl⟩
    | panicked => exact ⟨_, rfl⟩
    | next s' =>
      have hnext : s'.guard = s.guard + 1 ∧ ¬ Stops src maxErrors s := by
        rw [hstep] at hround
        cases hround <;> exact ⟨rfl, by assumption⟩
      have hgo := hnext.2
      rw [Stops, not_or, not_or] at hgo
      exact ih s' (by omega) (by omega)

/-- The outcome is that of a round that is reached. -/
theorem recoverLoop_outcome (fuel : Nat) : ∀ (s : LoopState) (o : Outcome),
    recoverLoop parse src path maxErrors fuel s = some o →
      ∃ t, ReflTransGen (Next parse src path maxErrors) s t ∧
        ((∃ diags, o = .returned diags ∧ recoverStep parse src path maxErrors t = .done diags) ∨
          (o = .panicked ∧ recoverStep parse src path maxErrors t = .panicked)) := by
  induction fuel with
  | zero =>
    intro s o h
    cases h
  | succ fuel ih =>
    intro s o h
    rw [recoverLoop] at h
    cases hstep : recoverStep parse src path maxErrors s with
    | done diags =>
      rw [hstep] at h
      cases h
      exact ⟨s, .refl, Or.inl ⟨diags, rfl, hstep⟩⟩
    | panicked =>
      rw [hstep] at h
      cases h
      exact ⟨s, .refl, Or.inr ⟨rfl, hstep⟩⟩
    | next s' =>
      rw [hstep] at h
      obtain ⟨t, hreach, hend⟩ := ih s' o h
      exact ⟨t, .head hstep hreach, hend⟩

/-- Two rounds that are reached and lead nowhere are the same. -/
theorem last_unique {s t t' : LoopState} (ht : ReflTransGen (Next parse src path maxErrors) s t)
    (ht' : ReflTransGen (Next parse src path maxErrors) s t')
    (hlast : ∀ u, ¬ Next parse src path maxErrors t u)
    (hlast' : ∀ u, ¬ Next parse src path maxErrors t' u) : t = t' := by
  have hunique : Relator.RightUnique (Next parse src path maxErrors) := by
    intro a b c hb hc
    rw [Next] at hb hc
    rw [hb] at hc
    cases hc
    rfl
  rcases ReflTransGen.total_of_right_unique hunique ht ht' with hpath | hpath
  · rcases ReflTransGen.cases_head hpath with heq | ⟨u, hu, -⟩
    · exact heq
    · exact absurd hu (hlast u)
  · rcases ReflTransGen.cases_head hpath with heq | ⟨u, hu, -⟩
    · exact heq.symm
    · exact absurd hu (hlast' u)

theorem not_next_of_done {t : LoopState} {diags : List ParseDiagnostic}
    (h : recoverStep parse src path maxErrors t = .done diags) (u : LoopState) :
    ¬ Next parse src path maxErrors t u := by
  rw [Next, h]
  intro hnext
  cases hnext

theorem not_next_of_panicked {t : LoopState}
    (h : recoverStep parse src path maxErrors t = .panicked) (u : LoopState) :
    ¬ Next parse src path maxErrors t u := by
  rw [Next, h]
  intro hnext
  cases hnext

/-- A round that panics was skipped to, into a character. -/
theorem not_clean_of_panicked {t : LoopState}
    (hreach : ReflTransGen (Next parse src path maxErrors) start t)
    (hpanic : recoverStep parse src path maxErrors t = .panicked) :
    ¬ CleanSkips parse src path maxErrors := by
  intro hclean
  have hround := round parse src path maxErrors t
  rw [hpanic] at hround
  cases hround with
  | outside hgo hat =>
    rcases ReflTransGen.cases_tail hreach with rfl | ⟨s, hs, hnext⟩
    · exact hat (isBoundary_zero src)
    · cases hnext.round with
      | resumes _ _ _ _ hboundary => exact hat hboundary
      | skips _ _ _ _ hskip | repeats _ _ _ _ _ hskip =>
        exact hat (hclean s _ hs hnext hskip hgo)

theorem panicked_of_inside {t : LoopState} (hgo : ¬ Stops src maxErrors t)
    (hat : ¬ IsBoundary src t.pos) : recoverStep parse src path maxErrors t = .panicked := by
  have hnone : sliceFrom src t.pos = none := by
    rwa [IsBoundary, Option.not_isSome_iff_eq_none] at hat
  rw [recoverStep, if_neg hgo, hnone]

end Rounds

/-- **The collection ends well exactly when it never goes on inside a character**: then it
    does not panic, there are no more diagnostics than asked for, none when the text parses,
    and the first is that of the whole text. -/
theorem recoverParseDiagnostics_iff {π : Type} (parse : List Char → Except ParseError π)
    (hempty : ∃ program, parse [] = .ok program) (src : List Char) (path : String)
    (maxErrors fuel : Nat) (hfuel : byteLen src + 4 ≤ fuel) :
    (∃ diags, recoverParseDiagnostics parse src path maxErrors fuel = some (.returned diags) ∧
      diags.length ≤ max 1 maxErrors ∧
      (diags = [] ↔ ∃ program, parse src = .ok program) ∧
      ∀ err, parse src = .error err →
        diags.head? = some (diagnosticFromParseError err path src 0)) ↔
    CleanSkips parse src path (min (max maxErrors 1) 10000) := by
  have hmax : 0 < min (max maxErrors 1) 10000 := by omega
  obtain ⟨o, ho⟩ :
      ∃ o, recoverLoop parse src path (min (max maxErrors 1) 10000) fuel start = some o :=
    recoverLoop_isSome fuel start (Nat.zero_le _) (by simpa [start] using hfuel)
  obtain ⟨t, hreach, hend⟩ := recoverLoop_outcome fuel start o ho
  rw [recoverParseDiagnostics, ho]
  constructor
  · rintro ⟨diags, hret, -⟩ s s' hs hnext hskip hgo
    by_contra hat
    have hpanic : recoverStep parse src path (min (max maxErrors 1) 10000) s' = .panicked :=
      panicked_of_inside hgo hat
    rcases hend with ⟨diags', -, hdone⟩ | ⟨rfl, -⟩
    · have heq := last_unique (hs.tail hnext) hreach (not_next_of_panicked hpanic)
        (not_next_of_done hdone)
      rw [heq, hdone] at hpanic
      cases hpanic
    · cases hret
  · intro hclean
    rcases hend with ⟨diags, rfl, hdone⟩ | ⟨-, hpanic⟩
    · have hcollected := collected_done hempty hmax (loopInv_reached hreach) hdone
      have hcount := hcollected.count
      exact ⟨diags, rfl, by omega, hcollected.empty, hcollected.first⟩
    · exact absurd hclean (not_clean_of_panicked hreach hpanic)

/-- A parser for blank texts; its lexer knows no token. -/
def blankParser (text : List Char) : Except ParseError Unit :=
  match text.dropWhile Char.isWhitespace with
  | [] => .ok ()
  | _ => .error (.invalidToken (byteLen (text.takeWhile Char.isWhitespace)))

theorem recoverParseDiagnostics_blank :
    (∃ diags, recoverParseDiagnostics blankParser [' ', 'x'] "a.cam" 32 6 = some (.returned diags) ∧
      diags.length ≤ max 1 32 ∧
      (diags = [] ↔ ∃ program, blankParser [' ', 'x'] = .ok program) ∧
      ∀ err, blankParser [' ', 'x'] = .error err →
        diags.head? = some (diagnosticFromParseError err "a.cam" [' ', 'x'] 0)) ↔
    CleanSkips blankParser [' ', 'x'] "a.cam" (min (max 32 1) 10000) :=
  recoverParseDiagnostics_iff blankParser ⟨(), rfl⟩ [' ', 'x'] "a.cam" 32 6 (by decide)

/-- The euro sign takes three bytes; no token starts with it, and two bytes on is inside it. -/
theorem euro_sign_panics :
    blankParser ['€'] = .error (.invalidToken 0) ∧
      recoverParseDiagnostics blankParser ['€'] "a.cam" 32 7 = some .panicked := by
  constructor
  · rfl
  · rfl

end CambrianLang.Project
