/-
  **When a Foundry test checks every expectation of its steps.**

  The loop gathers the expectations directly behind a call and passes over those it meets
  elsewhere.  `Kept` follows it and names where it goes right: no expectation but
  `expect state` stands apart from its call, and the constructor call that is hoisted or
  folded takes nothing with it.  Then the function passes exactly when its steps execute
  (`passes_genSteps_iff`).
-/
import CambrianLang.Forge.Execution

namespace CambrianLang.Forge

open Ast Solidity Spec Scripts

variable (T : Target) (key : Expr → String)

/-! ### The condition -/

/-- What the loop has gone past: the test's own constructor call, an `expect emit` that
    waits for its call, and the balances it has declared locals for. -/
structure Passed where
  made : Bool
  waiting : Bool
  keys : List String

def PostCallAssert.deploys : PostCallAssert → Bool
  | .effects elements => elements.any fun
      | .effect (.deploy _ _) => true
      | _ => false
  | _ => false

/-- The expectations behind a call fit what is emitted for it. -/
structure FitsCall (g : Scope) (keys : List String) (target : Option String) (route : String)
    (asserts : List PostCallAssert) : Prop where
  emitted : T.ctorHarness.isSome → isInitRouteCall (callee T g target).1 route →
    hasNonIdentityInitParams (callee T g target).1 = false
  codes : ∀ a ∈ asserts, ∀ c, a.code = some c → asserts.findSome? (·.code) = some c
  thrown : (asserts.findSome? (·.code)).isSome → postCallNeedsReturn asserts = false
  returns : postCallNeedsReturn asserts →
    routeReturns (callee T g target).1 route ∧ isInitRouteCall (callee T g target).1 route = false
  deploys : ∀ a ∈ asserts, a.deploys = false
  locals : ((asserts.flatMap (·.dests)).map key).Nodup
  fresh : ∀ dest ∈ asserts.flatMap (·.dests), key dest ∉ keys

/-- What of a `msg` step right behind a hoisted call `setUp` has not brought about. -/
def skippedFields (lets : List (String × String)) : List TestStep → List (String × Expr)
  | .setContext ns fields :: _ =>
      if shouldSkipHoistedMsg T ns fields lets then beyondPrank T fields else []
  | _ => []

inductive Kept : Gen → Passed → List TestStep → Prop where
  | nil {g p} : Kept g p []
  | context {g p ns fields rest} :
      genInitPair T g.toScope ns fields rest = none →
      Kept { g with
        pendingMsgValue := if ns == "msg" then (msgValue fields).or g.pendingMsgValue
          else g.pendingMsgValue } p rest →
      Kept g p (.setContext ns fields :: rest)
  | hoistedPair {g p fields route args rest} :
      isMade T p.made none route → msgCtorPairMatches T fields args g.lets →
      beyondPrank T fields = [] → p.waiting = false → g.pendingMsgValue = none →
      Kept g { p with made := true } rest →
      Kept g p (.setContext "msg" fields :: .call none route args :: rest)
  | foldedPair {g p sender route args rest} :
      isInitRouteCall T.entity route →
      (msgCtorPairMatches T [("sender", sender)] args g.lets && T.ctorHarness.isSome) = false →
      foldsInit T (msgCtorPairMatches T [("sender", sender)] args g.lets) args →
      g.subject = T.varName → g.pendingMsgValue = none →
      Kept g { p with made := true, waiting := false } rest →
      Kept g p (.setContext "msg" [("sender", sender)] :: .call none route args :: rest)
  | hoistedLet {g p name ty value rest} :
      (T.fuzz && T.hoistedLets.contains name) = true → Kept g p rest →
      Kept g p (.letS name ty value :: rest)
  | letS {g p name ty value rest} :
      (T.fuzz && T.hoistedLets.contains name) = false →
      Kept { g with toScope := g.letBound T name value } p rest →
      Kept g p (.letS name ty value :: rest)
  | noPeer {g p binding peer args initState rest} :
      T.entities.find? (·.name == peer) = none → Kept g p rest →
      Kept g p (.deployPeer binding peer args initState :: rest)
  | deployPeer {g p binding peer args initState rest peerEntity} :
      T.entities.find? (·.name == peer) = some peerEntity → p.waiting = false →
      Kept { g with toScope := g.deployed T binding peerEntity } p rest →
      Kept g p (.deployPeer binding peer args initState :: rest)
  | hoisted {g p target route args rest} :
      isMade T p.made target route → skippedFields T g.lets rest = [] → p.waiting = false →
      g.pendingMsgValue = none →
      Kept { g with toScope := g.pinned T } { p with made := true } (afterHoisted T g.lets rest) →
      Kept g p (.call target route args :: rest)
  | call {g p target route args rest asserts} :
      asserts = collectPostCallAssertions rest → hoistedCall T route = false →
      FitsCall T key g.toScope p.keys target route asserts →
      Kept
        { toScope := g.pinned T
          pendingMsgValue := none
          retCnt := (genCallStep T g target route args asserts).2 }
        { p with waiting := false, keys := (asserts.flatMap (·.dests)).map key ++ p.keys }
        (rest.drop asserts.length) →
      Kept g p (.call target route args :: rest)
  | expectEmit {g p eventName args rest} :
      T.fuzz = false → Kept g { p with waiting := true } rest →
      Kept g p (.expectEmit eventName args :: rest)
  | expectState {g p fields rest} :
      p.waiting = false ∨ fields = [] → Kept g p rest →
      Kept g p (.expectState fields :: rest)
  | setRegistry {g p a b c d rest} : Kept g p rest → Kept g p (.setRegistry a b c d :: rest)
  | assume {g p cond rest} : Kept g p rest → Kept g p (.assume cond :: rest)
  | bound {g p var lo hi incl rest} : Kept g p rest → Kept g p (.bound var lo hi incl :: rest)
  | skipIf {g p cond rest} : Kept g p rest → Kept g p (.skipIf cond :: rest)
  | advanceTime {g p dt rest} : Kept g p rest → Kept g p (.advanceTime dt :: rest)

/-! ### Small steps of both sides -/

variable {T key} {S V : Type} {C : Chain S V}

theorem clauses_assertion (g : Scope) (made : Bool) (place : Place) {step : TestStep}
    {a : PostCallAssert} (h : asAssertion step = some a) (rest : List TestStep) :
    clauses C T g made place (step :: rest) =
      assertionClause C g.subject a :: clauses C T g made .apart rest := by
  cases step <;> cases h <;> rfl

/-- The expectations gathered behind a call are the clauses next to it. -/
theorem clauses_collect (g : Scope) (made : Bool) (body : List TestStep) :
    clauses C T g made .apart body =
      (collectPostCallAssertions body).map (assertionClause C g.subject) ++
        clauses C T g made .apart (body.drop (collectPostCallAssertions body).length) := by
  induction body with
  | nil => rfl
  | cons step rest ih =>
    rw [collectPostCallAssertions]
    cases h : asAssertion step with
    | none => rfl
    | some a =>
      rw [clauses_assertion g made .apart h, ih]
      rfl

theorem genSteps_context {g : Gen} {ns : String} {fields : List (String × Expr)}
    {rest : List TestStep} (h : genInitPair T g.toScope ns fields rest = none) :
    genSteps T g (.setContext ns fields :: rest) =
      .context ns fields ::
        genSteps T { g with
          pendingMsgValue := if ns == "msg" then (msgValue fields).or g.pendingMsgValue
            else g.pendingMsgValue } rest := by
  rw [genSteps]
  split
  · rename_i h'
    rw [h] at h'
    cases h'
  · rfl

theorem genSteps_pair {g : Gen} {ns : String} {fields : List (String × Expr)}
    {rest rest' : List TestStep} {stmts : List Stmt}
    (h : genInitPair T g.toScope ns fields rest = some (stmts, rest')) :
    genSteps T g (.setContext ns fields :: rest) = stmts ++ genSteps T g rest' := by
  rw [genSteps]
  split
  · rename_i h'
    rw [h] at h'
    cases h'
    rfl
  · rename_i h'
    rw [h] at h'
    cases h'

/-- What an expectation behind a call asks for. -/
def Chain.meets (C : Chain S V) (subject : String) (v : Option V) (t : Moment S) :
    PostCallAssert → Prop
  | .state fields => ∀ f ∈ fields, C.state f subject t.chain
  | .throw _ => True
  | .effects elements => ∀ el ∈ elements, C.effect t el
  | .pred cond => C.pred cond subject v t.chain
  | a => ∃ x, v = some x ∧ C.returned a x t.chain

theorem executes_assertions (subject : String) (steps : List (Clause S V))
    (v : View (Moment S) V) (t : Moment S) (asserts : List PostCallAssert) :
    Executes (asserts.map (assertionClause C subject) ++ steps) v t ↔
      (∀ a ∈ asserts, C.meets subject v.result t a) ∧ Executes steps v t := by
  induction asserts with
  | nil => simp
  | cons a rest ih =>
    have h : Executes (assertionClause C subject a :: (rest.map (assertionClause C subject) ++ steps))
        v t ↔ C.meets subject v.result t a ∧
          Executes (rest.map (assertionClause C subject) ++ steps) v t := by
      cases a <;> simp [assertionClause, Executes, Chain.meets]
    rw [List.map_cons, List.cons_append, h, ih, List.forall_mem_cons, and_assoc]

theorem refusals_assertions (subject : String) (steps : List (Clause S V))
    (h : refusals (steps.map Step.shape) = []) (asserts : List PostCallAssert) :
    refusals ((asserts.map (assertionClause C subject) ++ steps).map Step.shape) =
      asserts.filterMap (·.code) := by
  induction asserts with
  | nil => simpa using h
  | cons a rest ih => cases a <;> simpa [assertionClause, refusals, PostCallAssert.code] using ih

theorem refusals_pins (g : Scope) (steps : List (Clause S V)) :
    refusals ((pinsClauses C T g ++ steps).map Step.shape) = refusals (steps.map Step.shape) := by
  unfold pinsClauses
  split
  · rfl
  · rfl

theorem genInitPair_hoisted {g : Scope} {fields : List (String × Expr)} {made : Bool}
    {target : Option String} {route : String} {args : List Expr} (rest : List TestStep)
    (hmade : isMade T made target route) (hmatch : msgCtorPairMatches T fields args g.lets) :
    genInitPair T g "msg" fields (.call target route args :: rest) = some ([], rest) := by
  rw [isMade, hoistedCall] at hmade
  simp only [Bool.and_eq_true] at hmade
  simp [genInitPair, hmade.2.1, hmade.2.2, hmatch]

theorem genInitPair_folded {g : Scope} {sender : Expr} {route : String} {args : List Expr}
    (rest : List TestStep) (hinit : isInitRouteCall T.entity route)
    (hmade : (msgCtorPairMatches T [("sender", sender)] args g.lets && T.ctorHarness.isSome) = false)
    (hfold : foldsInit T (msgCtorPairMatches T [("sender", sender)] args g.lets) args) :
    genInitPair T g "msg" [("sender", sender)] (.call none route args :: rest) =
      some ([.redeploy T.entity.name T.varName (deployArgs T.entity args), .startPrank sender],
        rest) := by
  simp [genInitPair, hinit, hmade, hfold, senderField, genCall]

theorem clauses_pair {g : Scope} {ns : String} {fields : List (String × Expr)}
    {target : Option String} {route : String} {args : List Expr} {rest : List TestStep}
    (made : Bool) (h : (genInitPair T g ns fields (.call target route args :: rest)).isSome) :
    clauses C T g made .apart (.setContext ns fields :: .call target route args :: rest) =
      contextClause C ns
          (if pairsHoisted T g made ns fields (.call target route args :: rest)
            then beyondPrank T fields else fields) ::
        (if pairsHoisted T g made ns fields (.call target route args :: rest) then madeClause
          else callClause C T g target route args) :: clauses C T g true .apart rest := by
  simp only [clauses, h, if_true]
  rfl

theorem clauses_made {g : Scope} {made : Bool} {target : Option String} {route : String}
    {args : List Expr} {rest : List TestStep} (h : isMade T made target route) :
    clauses C T g made .apart (.call target route args :: rest) =
      pinsClauses C T g ++ madeClause :: clauses C T (g.pinned T) true .behindMade rest := by
  simp only [clauses, h, if_true]

theorem clauses_call {g : Scope} {made : Bool} {target : Option String} {route : String}
    {args : List Expr} {rest : List TestStep} (h : hoistedCall T route = false) :
    clauses C T g made .apart (.call target route args :: rest) =
      pinsClauses C T g ++
        callClause C T g target route args :: clauses C T (g.pinned T) made .apart rest := by
  simp only [clauses, isMade, h, Bool.and_false, Bool.false_eq_true, if_false]

theorem refusals_pair (ns : String) (fields : List (String × Expr)) (g : Scope)
    (target : Option String) (route : String) (args : List Expr) (b : Bool)
    (steps : List (Clause S V)) :
    refusals ((contextClause C ns fields :: (if b then madeClause
      else callClause C T g target route args) :: steps).map Step.shape) = [] := by
  cases b <;> rfl

/-- Nothing behind a call that stands apart from it refuses it. -/
theorem refusals_of_kept {g : Gen} {p : Passed} {body : List TestStep} (h : Kept T key g p body) :
    refusals ((clauses C T g.toScope p.made .apart body).map Step.shape) = [] := by
  induction h with
  | nil => rfl
  | context pair _ ih => simpa [clauses, pair, contextClause, refusals] using ih
  | @hoistedPair g p fields route args rest hmade hmatch _ _ _ _ _ =>
    rw [clauses_pair p.made (by rw [genInitPair_hoisted rest hmade hmatch]; rfl), refusals_pair]
  | @foldedPair g p sender route args rest hinit hmade hfold _ _ _ _ =>
    rw [clauses_pair p.made (by rw [genInitPair_folded rest hinit hmade hfold]; rfl),
      refusals_pair]
  | hoistedLet h _ ih =>
    rw [clauses, if_pos h]
    exact ih
  | letS h _ ih =>
    rw [clauses, h, if_neg Bool.false_ne_true]
    exact ih
  | noPeer h _ ih => simpa only [clauses, h] using ih
  | deployPeer h _ _ ih =>
    simp only [clauses, h]
    exact ih
  | hoisted hmade _ _ _ _ _ =>
    rw [clauses_made hmade, refusals_pins]
    rfl
  | call _ hcall _ _ _ =>
    rw [clauses_call hcall, refusals_pins]
    rfl
  | expectEmit _ _ ih | expectState _ _ ih => exact ih
  | setRegistry _ ih | assume _ ih | bound _ ih | skipIf _ ih | advanceTime _ ih => exact ih

/-! ### Around a call -/

theorem passes_expectRevert (code : Option Nat) (stmts : List Stmt) (m : Machine S V)
    (h : m.armed = none) :
    passes C key (code.toList.map .expectRevert ++ stmts) m ↔
      passes C key stmts { m with armed := code } := by
  cases code with
  | none =>
    cases m
    cases h
    rfl
  | some c => rfl

theorem lookup_cons_eq {α : Type} (k k' : String) (x : α) (l : List (String × α)) :
    ((k', x) :: l).lookup k = if k = k' then some x else l.lookup k := by
  rw [List.lookup_cons]
  by_cases h : k = k'
  · rw [if_pos h, h, BEq.rfl]
  · rw [if_neg h, beq_false_of_ne h]

/-- The locals for the balances before a call. -/
def balances (C : Chain S V) (key : Expr → String) (s : S) (dests : List Expr)
    (before : List (String × Nat)) : List (String × Nat) :=
  dests.foldl (fun before dest => (key dest, C.balance dest s) :: before) before

theorem lookup_balances (s : S) (k : String) (dests : List Expr) :
    ∀ before, k ∉ dests.map key → (balances C key s dests before).lookup k = before.lookup k := by
  induction dests with
  | nil => intro before _; rfl
  | cons dest rest ih =>
    intro before h
    rw [List.map_cons, List.mem_cons, not_or] at h
    calc (balances C key s rest ((key dest, C.balance dest s) :: before)).lookup k
        = ((key dest, C.balance dest s) :: before).lookup k := ih _ h.2
      _ = before.lookup k := by rw [lookup_cons_eq, if_neg h.1]

theorem lookup_balances_mem (s : S) {dest : Expr} {dests : List Expr} :
    ∀ before, (dests.map key).Nodup → dest ∈ dests →
      (balances C key s dests before).lookup (key dest) = some (C.balance dest s) := by
  induction dests with
  | nil => intro _ _ h; cases h
  | cons d rest ih =>
    intro before nodup hd
    rw [List.map_cons, List.nodup_cons] at nodup
    rcases List.mem_cons.mp hd with rfl | hd
    · calc (balances C key s rest ((key dest, C.balance dest s) :: before)).lookup (key dest)
          = ((key dest, C.balance dest s) :: before).lookup (key dest) :=
            lookup_balances s _ rest _ nodup.1
        _ = some (C.balance dest s) := by rw [lookup_cons_eq, if_pos rfl]
    · exact ih _ nodup.2 hd

theorem passes_balanceBefore (stmts : List Stmt) (dests : List Expr) :
    ∀ m : Machine S V, (dests.map key).Nodup → (∀ d ∈ dests, m.before.lookup (key d) = none) →
      (passes C key (dests.map .balanceBefore ++ stmts) m ↔
        passes C key stmts { m with before := balances C key m.chain dests m.before }) := by
  induction dests with
  | nil => intro m _ _; rfl
  | cons d rest ih =>
    intro m nodup fresh
    rw [List.map_cons, List.nodup_cons] at nodup
    have hd := fresh d (List.mem_cons_self ..)
    have next : ∀ d' ∈ rest, ((key d, C.balance d m.chain) :: m.before).lookup (key d') = none := by
      intro d' hd'
      have hne : key d' ≠ key d := fun h => nodup.1 (h ▸ List.mem_map_of_mem hd')
      rw [lookup_cons_eq, if_neg hne]
      exact fresh d' (List.mem_cons_of_mem _ hd')
    rw [List.map_cons, List.cons_append, passes, and_iff_right hd, ih _ nodup.2 next]
    rfl

theorem passes_assertBalance (stmts : List Stmt) (dests : List Expr) (m : Machine S V) :
    passes C key (dests.map .assertBalance ++ stmts) m ↔
      (∀ d ∈ dests, ∃ b, m.before.lookup (key d) = some b ∧ b ≤ C.balance d m.chain) ∧
        passes C key stmts m := by
  induction dests with
  | nil => simp
  | cons d rest ih => rw [List.map_cons, List.cons_append, passes, ih, List.forall_mem_cons, and_assoc]

/-- The machine behind a call, and the moment the steps have reached there. -/
structure Behind (C : Chain S V) (key : Expr → String) (asserts : List PostCallAssert) (n : Nat)
    (m : Machine S V) (result : Option V) (t : Moment S) : Prop where
  chain : m.chain = t.chain
  after : t.after = t.chain
  emits : m.emits = []
  balance : ∀ d ∈ asserts.flatMap (·.dests), m.before.lookup (key d) = some (C.balance d t.before)
  deploys : ∀ a ∈ asserts, a.deploys = false
  ret : postCallNeedsReturn asserts → ∃ x, m.rets.lookup n = some x ∧ result = some x

theorem Behind.of_subset {asserts some : List PostCallAssert} {n : Nat} {m : Machine S V}
    {result : Option V} {t : Moment S} (h : Behind C key asserts n m result t)
    (hs : ∀ a ∈ some, a ∈ asserts) : Behind C key some n m result t where
  chain := h.chain
  after := h.after
  emits := h.emits
  balance := by
    intro d hd
    obtain ⟨a, ha, hd⟩ := List.mem_flatMap.mp hd
    exact h.balance d (List.mem_flatMap.mpr ⟨a, hs a ha, hd⟩)
  deploys := fun a ha => h.deploys a (hs a ha)
  ret := by
    intro hn
    obtain ⟨a, ha, hn⟩ := List.any_eq_true.mp hn
    exact h.ret (List.any_eq_true.mpr ⟨a, hs a ha, hn⟩)

theorem effects_iff_balances (t : Moment S) (elements : List TestEffectElement)
    (h : (PostCallAssert.effects elements).deploys = false) :
    (∀ el ∈ elements, C.effect t el) ↔
      ∀ d ∈ elements.filterMap sendDest, C.balance d t.before ≤ C.balance d t.after := by
  induction elements with
  | nil => simp
  | cons el rest ih =>
    simp only [PostCallAssert.deploys, List.any_cons, Bool.or_eq_false_iff] at h
    rw [List.forall_mem_cons, ih h.2, List.filterMap_cons]
    rcases el with e | _
    · rcases e with ⟨_, _, dest, _⟩ | ⟨_, _⟩ | ⟨_, _⟩
      · simp [sendDest, Chain.effect]
      · cases h.1
      · simp [sendDest, Chain.effect]
    · simp [sendDest, Chain.effect]

theorem passes_genAssertion {subject : String} {a : PostCallAssert} {n : Nat} {m : Machine S V}
    {result : Option V} {t : Moment S} (h : Behind C key [a] n m result t) (stmts : List Stmt) :
    passes C key (genAssertion subject n a ++ stmts) m ↔
      C.meets subject result t a ∧ passes C key stmts m := by
  have read (hn : a.needsReturn) (q : V → Prop) :
      (∃ x, m.rets.lookup n = some x ∧ q x) ↔ ∃ x, result = some x ∧ q x := by
    obtain ⟨x, hx, hr⟩ := h.ret (by simpa [postCallNeedsReturn] using hn)
    rw [hx, hr]
  cases a with
  | state fields => simp [genAssertion, passes, Chain.meets, h.emits, h.chain]
  | throw code => simp [genAssertion, Chain.meets]
  | ret value =>
    simp only [genAssertion, List.cons_append, List.nil_append, passes, read rfl, h.chain]
    rfl
  | retTuple values =>
    simp only [genAssertion, List.cons_append, List.nil_append, passes, read rfl, h.chain]
    rfl
  | retLens path value =>
    simp only [genAssertion, List.cons_append, List.nil_append, passes, read rfl, h.chain]
    rfl
  | effects elements =>
    have hdep := h.deploys _ (List.mem_singleton_self _)
    have hbal := h.balance
    rw [List.flatMap_singleton] at hbal
    rw [genAssertion, passes_assertBalance, Chain.meets, effects_iff_balances t elements hdep]
    apply and_congr_left'
    apply forall₂_congr
    intro d hd
    rw [hbal d hd, h.chain, h.after]
    simp
  | pred cond =>
    simp only [genAssertion, List.cons_append, List.nil_append, passes, Chain.meets]
    apply and_congr_left'
    cases hc : exprMentionsIdent cond expectResultName with
    | true =>
      obtain ⟨x, hx, hr⟩ := h.ret (by simpa [postCallNeedsReturn, PostCallAssert.needsReturn] using hc)
      simp [hx, hr, h.chain]
    | false => simpa [h.chain] using C.pred_result cond hc subject none result t.chain

theorem passes_assertions {subject : String} {n : Nat} {m : Machine S V} {result : Option V}
    {t : Moment S} (stmts : List Stmt) (asserts : List PostCallAssert)
    (h : Behind C key asserts n m result t) :
    passes C key (asserts.flatMap (genAssertion subject n) ++ stmts) m ↔
      (∀ a ∈ asserts, C.meets subject result t a) ∧ passes C key stmts m := by
  induction asserts with
  | nil => simp
  | cons a rest ih =>
    have head : Behind C key [a] n m result t :=
      h.of_subset fun b hb => List.mem_singleton.mp hb ▸ List.mem_cons_self ..
    have tail : Behind C key rest n m result t :=
      h.of_subset fun b hb => List.mem_cons_of_mem _ hb
    rw [List.flatMap_cons, List.append_assoc, passes_genAssertion head, ih tail,
      List.forall_mem_cons, and_assoc]

/-- The value of a call is kept where an expectation reads it. -/
theorem passes_genCall {g : Scope} {keys : List String} {target : Option String} {route : String}
    {asserts : List PostCallAssert} (h : FitsCall T key g keys target route asserts)
    (args : List Expr) (value : Option Expr) (cnt : Nat) (stmts : List Stmt) (m : Machine S V)
    (harmed : m.armed = asserts.findSome? (·.code)) {emitted : List Stmt × Nat}
    (he : genCall (callee T g target).1 route args (callee T g target).2
      (postCallNeedsReturn asserts) T.ctorHarness.isSome value cnt = emitted) :
    passes C key (emitted.1 ++ stmts) m ↔
      match m.armed, outcome C T g target route args value m.chain with
      | none, .ok (s, v) =>
          (∀ p ∈ m.emits, p s) ∧
            passes C key stmts
              { m with
                chain := s, emits := []
                rets := (if postCallNeedsReturn asserts then v.toList.map (emitted.2, ·) else []) ++
                  m.rets }
      | some code, .error n => n = code ∧ m.emits = [] ∧ passes C key stmts { m with armed := none }
      | none, .error _ | some _, .ok _ => False := by
  cases hinit : isInitRouteCall (callee T g target).1 route with
  | true =>
    have needs : postCallNeedsReturn asserts = false := by
      cases hn : postCallNeedsReturn asserts with
      | false => rfl
      | true => exact absurd hinit (by rw [(h.returns hn).2]; exact Bool.false_ne_true)
    have silent : (T.ctorHarness.isSome &&
        hasNonIdentityInitParams (callee T g target).1) = false := by
      cases hs : T.ctorHarness.isSome with
      | false => rfl
      | true => exact h.emitted hs hinit
    have code : emitted = ([.redeploy (callee T g target).1.name (callee T g target).2
        (deployArgs (callee T g target).1 args)], cnt) := by
      simp only [← he, genCall, hinit, silent, if_true, Bool.false_eq_true, if_false]
    rw [code, outcome, needs]
    simp only [hinit, if_true, List.cons_append, List.nil_append, passes, Machine.perform]
    cases m.armed <;> cases C.redeploy _ _ _ m.chain <;> simp [Except.map]
  | false =>
    have code : emitted =
        if postCallNeedsReturn asserts then
          ([.call (callee T g target).2 route args value (some (cnt + 1))], cnt + 1)
        else ([.call (callee T g target).2 route args value none], cnt) := by
      cases hn : postCallNeedsReturn asserts with
      | false => simp [← he, genCall, hinit, hn]
      | true => simp [← he, genCall, hinit, hn, (h.returns hn).1]
    rw [code, outcome]
    simp only [hinit, Bool.false_eq_true, if_false]
    cases hn : postCallNeedsReturn asserts with
    | false =>
      simp only [Bool.false_eq_true, if_false, List.cons_append, List.nil_append, passes,
        Machine.perform]
      cases m.armed <;> cases C.call _ _ _ _ m.chain <;> simp [Except.map]
    | true =>
      have unarmed : m.armed = none := by
        cases hc : asserts.findSome? (·.code) with
        | none => rw [harmed, hc]
        | some c => exact absurd hn (by rw [h.thrown (by rw [hc]; rfl)]; exact Bool.false_ne_true)
      simp only [if_true, List.cons_append, List.nil_append, passes, Machine.perform, unarmed,
        (h.returns hn).1]
      cases C.call _ _ _ _ m.chain <;> simp [Except.map]

/-! ### The loop and the steps, side by side -/

/-- The machine before a statement, and the steps before the step it comes from. -/
structure Related (C : Chain S V) (g : Gen) (p : Passed) (m : Machine S V)
    (v : View (Moment S) V) (t : Moment S) : Prop where
  chain : m.chain = t.chain
  value : t.value = g.pendingMsgValue
  armed : m.armed = none
  announced : v.announced = m.emits.map fun q _ t => q t.chain
  events : ∀ q ∈ m.emits, ∃ eventName args, q = C.emitted eventName args
  waiting : p.waiting = false → m.emits = []
  keys : ∀ k, k ∉ p.keys → m.before.lookup k = none

theorem Related.quiet {g : Gen} {p : Passed} {m : Machine S V} {v : View (Moment S) V}
    {t : Moment S} (h : Related C g p m v t) (hw : p.waiting = false) : v.announced = [] := by
  rw [h.announced, h.waiting hw]
  rfl

theorem Related.announced_eq_nil {g : Gen} {p : Passed} {m : Machine S V} {v : View (Moment S) V}
    {t : Moment S} (h : Related C g p m v t) : v.announced = [] ↔ m.emits = [] := by
  rw [h.announced, List.map_eq_nil_iff]

theorem Related.announced_hold {g : Gen} {p : Passed} {m : Machine S V} {v : View (Moment S) V}
    {t : Moment S} (h : Related C g p m v t) (subject : String) (t' : Moment S) :
    (∀ q ∈ v.announced, q subject t') ↔ ∀ q ∈ m.emits, q t'.chain := by
  rw [h.announced, List.forall_mem_map]

/-- The steps of a body mean what is emitted for them. -/
def Agrees (T : Target) (key : Expr → String) (C : Chain S V) (g : Gen) (p : Passed)
    (body : List TestStep) : Prop :=
  ∀ m v t, Related C g p m v t →
    (passes C key (genSteps T g body) m ↔
      Executes (clauses C T g.toScope p.made .apart body) v t)

/-- The mapping seeds, where they are due. -/
def Chain.pinned (C : Chain S V) (T : Target) (g : Scope) (s : S) : S :=
  if pinsDue T g then C.mappingPins s else s

theorem passes_pins (g : Scope) (stmts : List Stmt) (m : Machine S V) :
    passes C key (genPins T g ++ stmts) m ↔
      passes C key stmts { m with chain := C.pinned T g m.chain } := by
  unfold genPins Chain.pinned
  cases pinsDue T g <;> rfl

theorem executes_pins (g : Scope) (steps : List (Clause S V)) (v : View (Moment S) V)
    (t : Moment S) :
    Executes (pinsClauses C T g ++ steps) v t ↔
      Executes steps v { t with chain := C.pinned T g t.chain } := by
  unfold pinsClauses Chain.pinned
  cases pinsDue T g <;> rfl

theorem findSome_code_eq_none (asserts : List PostCallAssert) :
    asserts.findSome? (·.code) = none ↔ asserts.filterMap (·.code) = [] := by
  rw [List.findSome?_eq_none_iff, List.filterMap_eq_nil_iff]

theorem refused_with_iff {asserts : List PostCallAssert} {code : Nat}
    (codes : ∀ a ∈ asserts, ∀ c, a.code = some c → asserts.findSome? (·.code) = some c)
    (h : asserts.findSome? (·.code) = some code) (n : Nat) :
    (∀ c ∈ asserts.filterMap (·.code), n = c) ↔ n = code := by
  obtain ⟨a, ha, hac⟩ := List.exists_of_findSome?_eq_some h
  constructor
  · intro hall
    exact hall code (List.mem_filterMap.mpr ⟨a, ha, hac⟩)
  · rintro rfl c hc
    obtain ⟨b, hb, hbc⟩ := List.mem_filterMap.mp hc
    exact Option.some.inj (h.symm.trans (codes b hb c hbc))

theorem outcome_some {g : Scope} {target : Option String} {route : String} {args : List Expr}
    {value : Option Expr} {s s' : S} {v : Option V}
    (hr : routeReturns (callee T g target).1 route)
    (hi : isInitRouteCall (callee T g target).1 route = false)
    (h : outcome C T g target route args value s = .ok (s', v)) : ∃ x, v = some x := by
  rw [outcome] at h
  simp only [hi, hr, Bool.false_eq_true, if_false, if_true] at h
  cases hc : C.call (callee T g target).2 route args value s with
  | error n =>
    rw [hc] at h
    cases h
  | ok r =>
    rw [hc] at h
    cases h
    exact ⟨_, rfl⟩

/-- A call, with the expectations behind it. -/
theorem agrees_call {g : Gen} {p : Passed} {target : Option String} {route : String}
    {args : List Expr} {asserts : List PostCallAssert} {stmts : List Stmt}
    {steps : List (Clause S V)}
    (fits : FitsCall T key g.toScope p.keys target route asserts)
    (hsteps : refusals (steps.map Step.shape) = [])
    (next : ∀ m v t,
      Related C
        { toScope := g.pinned T
          pendingMsgValue := none
          retCnt := (genCallStep T g target route args asserts).2 }
        { p with waiting := false, keys := (asserts.flatMap (·.dests)).map key ++ p.keys } m v t →
      (passes C key stmts m ↔ Executes steps v t))
    {m : Machine S V} {v : View (Moment S) V} {t : Moment S} (h : Related C g p m v t) :
    passes C key ((genCallStep T g target route args asserts).1 ++
        asserts.flatMap (genAssertion g.subject (genCallStep T g target route args asserts).2) ++
          stmts) m ↔
      Executes (callClause C T g.toScope target route args ::
        (asserts.map (assertionClause C g.subject) ++ steps)) v t := by
  have fresh : ∀ d ∈ asserts.flatMap (·.dests), m.before.lookup (key d) = none :=
    fun d hd => h.keys _ (fits.fresh d hd)
  obtain ⟨emitted, he⟩ : ∃ emitted, genCall (callee T g.toScope target).1 route args
      (callee T g.toScope target).2 (postCallNeedsReturn asserts) T.ctorHarness.isSome
      g.pendingMsgValue g.retCnt = emitted := ⟨_, rfl⟩
  have unfold_step : genCallStep T g target route args asserts =
      ((asserts.findSome? (·.code)).toList.map .expectRevert ++
        (asserts.flatMap (·.dests)).map .balanceBefore ++ emitted.1, emitted.2) := by
    rw [← he]
    rfl
  have keys (before : List (String × Nat))
      (hb : before = balances C key m.chain (asserts.flatMap (·.dests)) m.before) (k : String)
      (hk : k ∉ (asserts.flatMap (·.dests)).map key ++ p.keys) : before.lookup k = none := by
    rw [List.mem_append, not_or] at hk
    rw [hb, lookup_balances _ _ _ _ hk.1]
    exact h.keys k hk.2
  have followed {m' : Machine S V} {view : View (Moment S) V} {t' : Moment S}
      (behind : Behind C key asserts emitted.2 m' view.result t')
      (related : Related C
        { toScope := g.pinned T
          pendingMsgValue := none
          retCnt := (genCallStep T g target route args asserts).2 }
        { p with waiting := false, keys := (asserts.flatMap (·.dests)).map key ++ p.keys }
        m' view t') :
      passes C key (asserts.flatMap (genAssertion g.subject emitted.2) ++ stmts) m' ↔
        (∀ a ∈ asserts, C.meets g.subject view.result t' a) ∧ Executes steps view t' := by
    rw [passes_assertions _ _ behind, next _ _ _ related]
  rw [unfold_step]
  dsimp only
  rw [List.append_assoc, List.append_assoc, List.append_assoc,
    passes_expectRevert _ _ _ h.armed,
    passes_balanceBefore _ _ { m with armed := asserts.findSome? (·.code) } fits.locals fresh,
    passes_genCall fits args g.pendingMsgValue g.retCnt _ _ rfl he, callClause, Executes,
    refusals_assertions _ _ hsteps, h.value, ← h.chain]
  dsimp only
  cases hc : asserts.findSome? (·.code) with
  | none =>
    have none_refused : asserts.filterMap (·.code) = [] := (findSome_code_eq_none _).mp hc
    cases ho : outcome C T g.toScope target route args g.pendingMsgValue m.chain with
    | error n => simp [Except.map, none_refused]
    | ok r =>
      obtain ⟨s', result⟩ := r
      simp only [Except.map, none_refused, true_and]
      rw [h.announced_hold, executes_assertions]
      apply and_congr_right'
      have ret (hn : postCallNeedsReturn asserts) : ∃ x,
          ((if postCallNeedsReturn asserts then result.toList.map (emitted.2, ·) else []) ++
            m.rets).lookup emitted.2 = some x ∧ result = some x := by
        obtain ⟨x, rfl⟩ := outcome_some (fits.returns hn).1 (fits.returns hn).2 ho
        refine ⟨x, ?_, rfl⟩
        rw [if_pos hn]
        simp
      apply followed
      · exact
          { chain := rfl, after := rfl, emits := rfl, ret := ret, deploys := fits.deploys
            balance := fun d hd => lookup_balances_mem _ _ fits.locals hd }
      · exact
          { chain := rfl, value := rfl, armed := rfl, announced := rfl, waiting := fun _ => rfl
            events := fun q hq => absurd hq List.not_mem_nil
            keys := keys _ rfl }
  | some code =>
    have refused : asserts.filterMap (·.code) ≠ [] := by
      rw [Ne, ← findSome_code_eq_none, hc]
      exact Option.some_ne_none code
    cases ho : outcome C T g.toScope target route args g.pendingMsgValue m.chain with
    | ok r => simp [Except.map, refused]
    | error n =>
      simp only [Except.map]
      rw [and_iff_right refused, refused_with_iff fits.codes hc, h.announced_eq_nil,
        executes_assertions]
      apply and_congr_right'
      apply and_congr_right
      intro quiet
      have needs : postCallNeedsReturn asserts = false := fits.thrown (by rw [hc]; rfl)
      apply followed
      · exact
          { chain := rfl, after := rfl, emits := quiet, deploys := fits.deploys
            balance := fun d hd => lookup_balances_mem _ _ fits.locals hd
            ret := fun hn => absurd hn (by rw [needs]; exact Bool.false_ne_true) }
      · exact
          { chain := rfl, value := rfl, armed := rfl, announced := h.announced
            events := h.events
            waiting := fun _ => quiet
            keys := keys _ rfl }

theorem pairsHoisted_of_none {g : Scope} {made : Bool} {ns : String}
    {fields : List (String × Expr)} {rest : List TestStep}
    (h : genInitPair T g ns fields rest = none) : pairsHoisted T g made ns fields rest = false := by
  rw [← Bool.not_eq_true]
  intro hp
  unfold pairsHoisted at hp
  split at hp
  · simp only [Bool.and_eq_true, beq_iff_eq] at hp
    rw [hp.1.2, genInitPair_hoisted _ hp.1.1 hp.2] at h
    cases h
  · cases hp

theorem clauses_context {g : Scope} (made : Bool) {ns : String} {fields : List (String × Expr)}
    {rest : List TestStep} (h : genInitPair T g ns fields rest = none) :
    clauses C T g made .apart (.setContext ns fields :: rest) =
      contextClause C ns fields :: clauses C T g made .apart rest := by
  simp [clauses, h, pairsHoisted_of_none h]

/-- A context step that says nothing. -/
theorem executes_context_nil (ns : String) (steps : List (Clause S V)) (v : View (Moment S) V)
    (t : Moment S) : Executes (contextClause C ns [] :: steps) v t ↔ Executes steps v t := by
  cases hns : ns == "msg" <;> simp [contextClause, Executes, Chain.context, msgValue, hns]

theorem executes_made {steps : List (Clause S V)} (h : refusals (steps.map Step.shape) = [])
    (v : View (Moment S) V) (t : Moment S) (quiet : v.announced = []) :
    Executes (madeClause :: steps) v t ↔
      Executes steps { v with result := none, announced := [] } { t with value := none } := by
  simp [madeClause, Executes, h, quiet]

theorem clauses_behindMade {g : Scope} {rest : List TestStep}
    (h : skippedFields T g.lets rest = []) :
    let after := clauses C T g true .apart (afterHoisted T g.lets rest)
    clauses C T g true .behindMade rest = after ∨
      ∃ ns, clauses C T g true .behindMade rest = contextClause C ns [] :: after := by
  rcases rest with _ | ⟨step, rest⟩
  · exact .inl rfl
  cases step with
  | setContext ns fields =>
    cases hs : shouldSkipHoistedMsg T ns fields g.lets with
    | true =>
      rw [skippedFields, if_pos hs] at h
      rw [afterHoisted, if_pos hs, clauses, if_pos ⟨rfl, hs⟩, h]
      exact .inr ⟨ns, rfl⟩
    | false =>
      rw [afterHoisted, if_neg (by rw [hs]; exact Bool.false_ne_true)]
      exact .inl (by simp [clauses, hs])
  | _ => exact .inl rfl

/-- A constructor call that `setUp` has made. -/
theorem agrees_hoisted {g : Gen} {p : Passed} {rest : List TestStep}
    (hskip : skippedFields T g.lets rest = []) (hw : p.waiting = false)
    (hv : g.pendingMsgValue = none)
    (hsteps : refusals ((clauses C T g.toScope true .apart
      (afterHoisted T g.lets rest)).map Step.shape) = [])
    (next : Agrees T key C g { p with made := true } (afterHoisted T g.lets rest))
    {m : Machine S V} {v : View (Moment S) V} {t : Moment S} (h : Related C g p m v t) :
    passes C key (genSteps T g (afterHoisted T g.lets rest)) m ↔
      Executes (madeClause :: clauses C T g.toScope true .behindMade rest) v t := by
  have related : Related C g { p with made := true } m { v with result := none, announced := [] }
      { t with value := none } :=
    { h with
      value := hv.symm
      announced := by rw [h.waiting hw]; rfl }
  have hsteps' : refusals ((clauses C T g.toScope true .behindMade rest).map Step.shape) = [] := by
    rcases clauses_behindMade (C := C) hskip with he | ⟨ns, he⟩ <;> rw [he]
    · exact hsteps
    · exact hsteps
  rw [next m _ _ related, executes_made hsteps' v t (h.quiet hw)]
  rcases clauses_behindMade (C := C) hskip with he | ⟨ns, he⟩
  · rw [he]
  · rw [he, executes_context_nil]

theorem agrees_folded {g : Gen} {p : Passed} {sender : Expr} {route : String} {args : List Expr}
    {rest : List TestStep} (hinit : isInitRouteCall T.entity route)
    (hsubject : g.subject = T.varName) (hv : g.pendingMsgValue = none)
    (hsteps : refusals ((clauses C T g.toScope true .apart rest).map Step.shape) = [])
    (next : Agrees T key C g { p with made := true, waiting := false } rest)
    {m : Machine S V} {v : View (Moment S) V} {t : Moment S} (h : Related C g p m v t) :
    passes C key (.redeploy T.entity.name T.varName (deployArgs T.entity args) ::
        .startPrank sender :: genSteps T g rest) m ↔
      Executes (contextClause C "msg" [("sender", sender)] ::
        callClause C T g.toScope none route args :: clauses C T g.toScope true .apart rest) v t := by
  have done : outcome C T g.toScope none route args none (C.startPrank sender m.chain) =
      (C.redeploy T.entity.name T.varName (deployArgs T.entity args) m.chain).map
        fun s => (C.startPrank sender s, none) := by
    simp only [outcome, callee, hinit, if_true, hsubject, C.redeploy_startPrank]
    cases C.redeploy _ _ _ m.chain <;> rfl
  have ctx : C.context "msg" [("sender", sender)] t.chain = C.startPrank sender m.chain := by
    rw [h.chain]
    rfl
  have value : (msgValue [("sender", sender)]).or t.value = none := by
    rw [h.value, hv]
    rfl
  simp only [passes, Machine.perform, h.armed, contextClause, callClause, Executes, beq_self_eq_true,
    if_true, ctx, value, done]
  cases hr : C.redeploy T.entity.name T.varName (deployArgs T.entity args) m.chain with
  | error n => simp [Except.map, hsteps]
  | ok s =>
    simp only [Except.map, hsteps, true_and]
    rw [h.announced_hold]
    apply and_congr
    · apply forall₂_congr
      intro q hq
      obtain ⟨eventName, args, rfl⟩ := h.events q hq
      exact (C.emitted_startPrank eventName args sender s).symm
    · apply next
      exact
        { chain := rfl, value := hv.symm, armed := rfl, announced := rfl, waiting := fun _ => rfl
          events := fun q hq => absurd hq List.not_mem_nil
          keys := h.keys }

theorem hoistedCall_of_isMade {made : Bool} {target : Option String} {route : String}
    (h : isMade T made target route) : hoistedCall T route := by
  rw [isMade, Bool.and_eq_true] at h
  exact h.2

/-- By induction on the way of the loop: the machine and the moment stay related. -/
theorem agrees_of_kept {g : Gen} {p : Passed} {body : List TestStep} (hk : Kept T key g p body) :
    Agrees T key C g p body := by
  induction hk with
  | nil =>
    intro m v t h
    rw [genSteps, passes, clauses, Executes, h.announced_eq_nil, and_iff_right h.armed]
  | context pair _ ih =>
    intro m v t h
    rw [genSteps_context pair, clauses_context _ pair, passes, contextClause, Executes, h.chain]
    apply ih
    exact { h with chain := rfl, value := by rw [h.value] }
  | @hoistedPair g p fields route args rest hmade hmatch hfields hw hv hrest ih =>
    intro m v t h
    have pairs : pairsHoisted T g.toScope p.made "msg" fields (.call none route args :: rest) := by
      simp [pairsHoisted, hmade, hmatch]
    have hsteps : refusals ((clauses C T g.toScope true .apart rest).map Step.shape) = [] :=
      refusals_of_kept hrest
    rw [genSteps_pair (genInitPair_hoisted rest hmade hmatch), List.nil_append,
      clauses_pair _ (by rw [genInitPair_hoisted rest hmade hmatch]; rfl), if_pos pairs,
      if_pos pairs, hfields, executes_context_nil, executes_made hsteps v t (h.quiet hw)]
    apply ih
    exact
      { h with
        value := hv.symm
        announced := by rw [h.waiting hw]; rfl }
  | @foldedPair g p sender route args rest hinit hmade hfold hsubject hv hrest ih =>
    intro m v t h
    have pairs : pairsHoisted T g.toScope p.made "msg" [("sender", sender)]
        (.call none route args :: rest) = false := by
      simp only [pairsHoisted, isMade, hoistedCall, hinit]
      cases hm : msgCtorPairMatches T [("sender", sender)] args g.lets with
      | false => simp
      | true =>
        rw [hm, Bool.true_and] at hmade
        simp [hmade]
    rw [genSteps_pair (genInitPair_folded rest hinit hmade hfold),
      clauses_pair _ (by rw [genInitPair_folded rest hinit hmade hfold]; rfl), pairs,
      if_neg Bool.false_ne_true, if_neg Bool.false_ne_true]
    exact agrees_folded hinit hsubject hv (refusals_of_kept hrest) ih h
  | hoistedLet h _ ih =>
    intro m v t hr
    rw [genSteps, clauses, if_pos h, if_pos h]
    exact ih m v t hr
  | letS h _ ih =>
    intro m v t hr
    rw [genSteps, clauses, h, if_neg Bool.false_ne_true, if_neg Bool.false_ne_true, passes,
      Moment.update, Executes, hr.chain]
    apply ih
    exact { hr with chain := rfl }
  | noPeer h _ ih =>
    intro m v t hr
    rw [genSteps, clauses, h]
    exact ih m v t hr
  | deployPeer h hw _ ih =>
    intro m v t hr
    rw [genSteps, clauses, h]
    dsimp only
    rw [passes, Moment.update, Executes, hr.chain, hr.waiting hw,
      and_iff_right fun q hq => absurd hq List.not_mem_nil]
    apply ih
    exact
      { hr with
        chain := rfl
        announced := by rw [hr.quiet hw]; rfl
        waiting := fun _ => rfl
        events := fun q hq => absurd hq List.not_mem_nil }
  | @hoisted g p target route args rest hmade hskip hw hv hrest ih =>
    intro m v t h
    rw [genSteps, if_pos (hoistedCall_of_isMade hmade), clauses_made hmade, passes_pins,
      executes_pins, h.chain]
    apply agrees_hoisted (g := { g with toScope := g.pinned T }) hskip hw hv
      (refusals_of_kept hrest) ih
    exact { h with chain := rfl }
  | @call g p target route args rest asserts hasserts hcall fits hrest ih =>
    intro m v t h
    subst hasserts
    rw [genSteps, hcall, if_neg Bool.false_ne_true, clauses_call hcall, passes_pins, executes_pins,
      h.chain, clauses_collect]
    apply agrees_call fits (refusals_of_kept hrest) ih
    exact { h with chain := rfl }
  | expectEmit hf _ ih =>
    intro m v t h
    rw [genSteps, hf, if_neg Bool.false_ne_true, passes, clauses, Executes]
    apply ih
    exact
      { h with
        announced := by rw [h.announced]; rfl
        waiting := fun hw => absurd hw (Bool.false_ne_true ∘ Eq.symm)
        events := by
          rintro q (_ | ⟨_, hq⟩)
          · exact ⟨_, _, rfl⟩
          · exact h.events q hq }
  | expectState hw _ ih =>
    intro m v t h
    have quiet : m.emits = [] ∨ _ := hw.imp_left h.waiting
    rw [genSteps, passes, clauses, assertionClause, Executes, and_iff_right quiet, h.chain]
    exact and_congr_right' (ih m v t h)
  | setRegistry _ ih | assume _ ih | bound _ ih | skipIf _ ih | advanceTime _ ih =>
    intro m v t h
    rw [genSteps, clauses]
    exact ih m v t h

/-! ### The emitted function -/

def start (T : Target) : Gen where
  peers := []
  subject := T.varName
  lets := []
  pinsEmitted := false
  pendingMsgValue := none
  retCnt := 0

/-- From every state that `setUp` leaves, the function passes exactly when its steps
    execute. -/
def ChecksEveryExpectation (T : Target) (key : Expr → String) (body : List TestStep) : Prop :=
  ∀ {S V : Type} (C : Chain S V) (s : S),
    passes C key (genSteps T (start T) body) ⟨s, none, [], [], []⟩ ↔
      Executes (clauses C T (start T).toScope false .apart body) ⟨T.varName, none, []⟩
        ⟨s, none, s, s⟩

theorem passes_genSteps_iff (T : Target) (key : Expr → String) (body : List TestStep)
    (h : Kept T key (start T) ⟨false, false, []⟩ body) : ChecksEveryExpectation T key body := by
  intro S V C s
  apply agrees_of_kept h
  exact
    { chain := rfl, value := rfl, armed := rfl, announced := rfl, waiting := fun _ => rfl
      events := fun q hq => absurd hq List.not_mem_nil
      keys := fun _ _ => rfl }

def pausedRoute : Route where
  name := "paused"
  params := []
  fromClauses := []
  whereClauses := []
  returnType := some (.simple "bool")
  body := .unphased []
  isView := true
  isPure := false
  isInit := false
  isAccept := false
  isPrivate := false
  recoverTag := none
  factoryOnly := false

def gateEntity : Entity where
  name := "Gate"
  records := []
  enums := []
  typeAliases := []
  constants := []
  macros := []
  routes := [pausedRoute]
  members := []

def gateTest : Target where
  entities := [gateEntity]
  entity := gateEntity
  varName := "gate"
  fuzz := false
  initState := []
  hoistedLets := []
  deterministic := true
  ctorHarness := none
  render _ := "0"
  sanitize := id

theorem gate_reads_paused : ChecksEveryExpectation gateTest (fun _ => "0")
    [.call none "paused" [], .expectReturn (.boolLiteral true)] := by
  apply passes_genSteps_iff
  apply Kept.call rfl
  · rfl
  · exact
      { emitted := by intro h; cases h
        codes := by rintro a (_ | ⟨_, ha⟩) c hc; cases hc; cases ha
        thrown := by intro h; cases h
        returns := fun _ => ⟨by decide, by decide⟩
        deploys := by rintro a (_ | ⟨_, ha⟩); rfl; cases ha
        locals := List.nodup_nil
        fresh := by intro d hd; cases hd }
  · exact .nil

/-- A chain on which the gate is open. -/
def openGate : Chain Unit Bool where
  field _ _ s := s
  startPrank _ s := s
  letBinding _ _ _ s := s
  deployPeer _ _ _ _ s := s
  mappingPins s := s
  call _ _ _ _ s := .ok (s, false)
  redeploy _ _ _ s := .ok s
  returned a v _ := ∀ b, a = .ret (.boolLiteral b) → v = b
  state _ _ _ := True
  pred _ _ _ _ := True
  balance _ _ := 0
  deployed _ _ _ := True
  emitted _ _ _ := True
  blank := false
  pred_result _ _ _ _ _ _ := Iff.rfl
  redeploy_startPrank _ _ _ _ _ := rfl
  emitted_startPrank _ _ _ _ := Iff.rfl

/-- A `let` behind the call, and nothing looks at what it returned. -/
theorem let_loses_expect_return : ¬ ChecksEveryExpectation gateTest (fun _ => "0")
    [.call none "paused" [], .letS "x" none (.boolLiteral true),
      .expectReturn (.boolLiteral true)] := by
  intro h
  have emitted : genSteps gateTest (start gateTest) [.call none "paused" [],
        .letS "x" none (.boolLiteral true), .expectReturn (.boolLiteral true)] =
      [.call "gate" "paused" [] none none, .letBinding "x" none (.boolLiteral true)] := by
    have apart : hoistedCall gateTest "paused" = false := rfl
    simp only [genSteps, apart, collectPostCallAssertions, asAssertion, List.length_nil,
      List.drop_zero]
    rfl
  have ran := (h openGate ()).mp (by
    rw [emitted]
    exact ⟨fun _ hp => absurd hp List.not_mem_nil, rfl, rfl⟩)
  obtain ⟨_, _, ⟨x, hx, hr⟩, _⟩ := ran
  cases hx
  exact absurd (hr true rfl) Bool.false_ne_true

end CambrianLang.Forge
