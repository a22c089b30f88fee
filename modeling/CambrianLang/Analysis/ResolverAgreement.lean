/-
  **When the three resolvers mean one callee** (`analysis/send_target.rs`,
  `codegen/types.rs`, `validate/entity.rs`).

  The validator and the back end look up a name among the members first, know macros,
  unwrapped options and guarded senders, and do not follow `let`s.  The classification
  looks among the parameters first, follows `let`s, and takes what it does not know for
  the only extern entity that has the message.
-/
import CambrianLang.Analysis.SendTarget

namespace CambrianLang.Analysis

open Ast Validate Traversal

/-! ### The condition -/

section Condition

variable (program : Program) (entity : Entity) (route : Route)

/-- Each resolver names the callees that the others name. -/
def ResolversAgree (site : CallSite) : Prop :=
  ∀ T, (resolveTargetEntity site.dest entity route = some T ↔
      sendTargetEntityName entity.name
        (classifyMessageDest site.dest site.message entity route program site.letEnv) = some T) ∧
    (resolveDestEntity site.dest entity route = some T ↔
      sendTargetEntityName entity.name
        (classifyMessageDest site.dest site.message entity route program site.letEnv) = some T)

def InProgram (T : String) : Prop := program.entities.any (·.name == T) = true

/-- An entity or extern entity of the program. -/
def Declared (T : String) : Prop :=
  InProgram program T ∨ program.externEntities.any (·.name == T) = true

/-- No other extern entity has a route of the name. -/
def OnlyExtern (message T : String) : Prop := ∃ ext, externsWith program message = [ext] ∧ ext.name = T

/-- The name is of a typed address of a declared entity, parameters first. -/
def TypedName (x T : String) : Prop :=
  identType x entity route = some (.typedAddress T) ∧ Declared program T

/-- An expression without a `let` in front of it. -/
inductive StandsFor (message : String) : Expr → String → Prop
  | address {e : Expr} {T : String} {args : List Expr} (h : resolveEntityAddress program e = some (T, args)) :
      StandsFor message e T
  | name {x T : String} (h : TypedName program entity route x T) : StandsFor message (.ident x) T
  | unknown {e : Expr} {T : String} (haddress : resolveEntityAddress program e = none)
      (hname : ∀ x U, e = .ident x → ¬ TypedName program entity route x U)
      (h : OnlyExtern program message T) : StandsFor message e T

/-- What `msg::sender` is compared with, from left to right. -/
def senderComparands : Expr → List Expr
  | .binOp lhs .eq rhs => if isMsgSender lhs then [rhs] else if isMsgSender rhs then [lhs] else []
  | .binOp lhs .and rhs | .binOp lhs .or rhs => senderComparands lhs ++ senderComparands rhs
  | _ => []

/-- `addressOf(E.state(..))` and `address_of E(..)`. -/
def stateAddress (e : Expr) : Option String := (addressOfState e).or (addressOfKeyword e)

/-- If the first comparand that names an entity is one that the validator cannot read, it
    names `T`. -/
def FirstComparandNames (T : String) : Prop :=
  ∀ pre c post, (route.whereClauses.flatMap fun wc => senderComparands wc.condition) = pre ++ c :: post →
    (∀ b ∈ pre, (stateAddress b).or (extractEntityFromAddrOrMacro entity b) = none) →
      ∀ U, stateAddress c = some U → U = T

/-- The destination is of a form, and the names in it are such, that the classification
    sees what the other two see. -/
structure SeenAlike (site : CallSite) : Prop where
  /-- `T.address(..)`, `addressOf(T.state(..))`, `address_of T(..)` -/
  address : ∀ T, extractEntityFromMethodCall site.dest = some T →
    InProgram program T ∨ OnlyExtern program site.message T
  /-- a name behind a `let` -/
  letBound : ∀ x T rhs, site.dest = .ident x → identEntity entity route site.dest = some T →
    site.letEnv.lookup x = some rhs → StandsFor program entity route site.message rhs T
  /-- a member or parameter -/
  named : ∀ x T, site.dest = .ident x → identEntity entity route site.dest = some T →
    site.letEnv.lookup x = none → ∀ p, route.params.find? (·.name == x) = some p →
      p.ty = .typedAddress T ∨
        (∀ U, p.ty = .typedAddress U → ¬ Declared program U) ∧ OnlyExtern program site.message T
  /-- a macro call or an unwrapped option -/
  hidden : ∀ T, (macroEntity entity site.dest).or (unwrapEntity entity site.dest) = some T →
    OnlyExtern program site.message T
  /-- a sender that a `where` compares -/
  sender : ∀ T, senderEntity entity route site.dest = some T →
    OnlyExtern program site.message T ∧ FirstComparandNames entity route T

end Condition

variable {program : Program} {entity : Entity} {route : Route} {message : String} {T : String}

/-! ### Classification -/

theorem externFallback_iff {target : SendTarget} (htarget : sendTargetEntityName entity.name target = none) :
    sendTargetEntityName entity.name (match externsWith program message with
      | [ext] => .externEntity ext.name
      | _ => target) = some T ↔ OnlyExtern program message T := by
  unfold OnlyExtern
  split
  · next ext h =>
    rw [h]
    simp [sendTargetEntityName]
  · next hnot =>
    rw [htarget]
    constructor
    · intro h
      cases h
    · rintro ⟨ext, h, -⟩
      exact absurd h (hnot ext)

/-- A classification that names nothing is left to the extern entities. -/
theorem classifyMessageDest_of_unnamed {letEnv : LetEnv} {dest : Expr}
    (h : sendTargetEntityName entity.name (classifyDest (aliased letEnv dest) entity route program) = none) :
    sendTargetEntityName entity.name
      (classifyMessageDest dest message entity route program letEnv) = some T ↔
        OnlyExtern program message T := by
  unfold classifyMessageDest
  cases htarget : classifyDest (aliased letEnv dest) entity route program with
  | dynamicUntyped x => exact externFallback_iff rfl
  | raw => exact externFallback_iff rfl
  | _ => rw [htarget] at h; cases h

theorem classifyMessageDest_of_named {letEnv : LetEnv} {dest : Expr} {U : String}
    (h : sendTargetEntityName entity.name (classifyDest (aliased letEnv dest) entity route program) =
      some U) :
    sendTargetEntityName entity.name
      (classifyMessageDest dest message entity route program letEnv) = some T ↔ U = T := by
  have hsame : classifyMessageDest dest message entity route program letEnv =
      classifyDest (aliased letEnv dest) entity route program := by
    unfold classifyMessageDest
    cases htarget : classifyDest (aliased letEnv dest) entity route program with
    | dynamicUntyped x => rw [htarget] at h; cases h
    | raw => rw [htarget] at h; cases h
    | _ => rfl
  rw [hsame, h, Option.some_inj]

theorem classifyDest_of_address {dest : Expr} {args : List Expr}
    (h : resolveEntityAddress program dest = some (T, args)) :
    sendTargetEntityName entity.name (classifyDest dest entity route program) = some T := by
  unfold classifyDest
  rw [h]
  dsimp only
  split
  · next heq => rw [sendTargetEntityName, beq_iff_eq.mp heq]
  · rfl

/-- A name is classified by its type. -/
theorem classifyDest_ident {x : String} :
    sendTargetEntityName entity.name (classifyDest (.ident x) entity route program) = some T ↔
      TypedName program entity route x T := by
  unfold classifyDest TypedName Declared InProgram
  rw [show resolveEntityAddress program (.ident x) = none from rfl]
  dsimp only
  rcases identType x entity route with _ | ty
  · simp [classifyIdent, sendTargetEntityName]
  · cases ty with
    | typedAddress U =>
      simp only [classifyIdent, Option.some.injEq, Ty.typedAddress.injEq]
      split
      · next h =>
        rw [sendTargetEntityName, Option.some_inj]
        exact ⟨fun heq => ⟨heq, Or.inl (heq ▸ h)⟩, And.left⟩
      · next h =>
        split
        · next hext =>
          rw [sendTargetEntityName, Option.some_inj]
          exact ⟨fun heq => ⟨heq, Or.inr (heq ▸ hext)⟩, And.left⟩
        · next hext =>
          simp only [sendTargetEntityName, false_iff, reduceCtorEq]
          rintro ⟨rfl, hin | hin⟩
          · exact h hin
          · exact hext hin
    | simple s =>
      simp only [classifyIdent]
      split <;> simp [sendTargetEntityName]
    | _ => simp [classifyIdent, sendTargetEntityName]

theorem standsFor_of_address {e : Expr} {U : String} {args : List Expr}
    (haddress : resolveEntityAddress program e = some (U, args)) :
    StandsFor program entity route message e T ↔ U = T := by
  constructor
  · intro h
    cases h with
    | address h =>
      rw [haddress] at h
      cases h
      rfl
    | name h => cases haddress
    | unknown h _ _ =>
      rw [haddress] at h
      cases h
  · rintro rfl
    exact .address haddress

theorem standsFor_of_name {x U : String} (htyped : TypedName program entity route x U) :
    StandsFor program entity route message (.ident x) T ↔ U = T := by
  constructor
  · intro h
    cases h with
    | address h => cases h
    | name h =>
      have heq := htyped.1.symm.trans h.1
      cases heq
      rfl
    | unknown _ hnot _ => exact absurd htyped (hnot x U rfl)
  · rintro rfl
    exact .name htyped

theorem standsFor_of_unknown {e : Expr} (haddress : resolveEntityAddress program e = none)
    (hname : ∀ x U, e = .ident x → ¬ TypedName program entity route x U) :
    StandsFor program entity route message e T ↔ OnlyExtern program message T := by
  constructor
  · intro h
    cases h with
    | address h =>
      rw [haddress] at h
      cases h
    | name h => exact absurd h (hname _ _ rfl)
    | unknown _ _ h => exact h
  · exact .unknown haddress hname

/-- What names neither an address nor a typed name is not classified. -/
theorem classifyDest_of_unknown {e : Expr} (haddress : resolveEntityAddress program e = none)
    (hname : ∀ x U, e = .ident x → ¬ TypedName program entity route x U) :
    sendTargetEntityName entity.name (classifyDest e entity route program) = none := by
  rw [Option.eq_none_iff_forall_ne_some]
  intro U hU
  unfold classifyDest at hU
  rw [haddress] at hU
  dsimp only at hU
  split at hU
  · next x =>
    apply hname x U rfl
    rw [← classifyDest_ident, classifyDest]
    exact hU
  · cases hU

/-- **What the classification names.** -/
theorem classifyMessageDest_iff {letEnv : LetEnv} {dest : Expr} :
    sendTargetEntityName entity.name
      (classifyMessageDest dest message entity route program letEnv) = some T ↔
        StandsFor program entity route message (aliased letEnv dest) T := by
  cases haddress : resolveEntityAddress program (aliased letEnv dest) with
  | some p =>
    rw [classifyMessageDest_of_named (classifyDest_of_address haddress),
      standsFor_of_address haddress]
  | none =>
    by_cases hname : ∃ x U, aliased letEnv dest = .ident x ∧ TypedName program entity route x U
    · obtain ⟨x, U, hx, htyped⟩ := hname
      have hclass := classifyDest_ident.mpr htyped
      rw [← hx] at hclass
      rw [classifyMessageDest_of_named hclass, hx, standsFor_of_name htyped]
    · have hnot : ∀ x U, aliased letEnv dest = .ident x → ¬ TypedName program entity route x U :=
        fun x U hx htyped => hname ⟨x, U, hx, htyped⟩
      rw [classifyMessageDest_of_unnamed (classifyDest_of_unknown haddress hnot),
        standsFor_of_unknown haddress hnot]

/-! ### The other two resolvers -/

theorem extractEntityFromWhereCondition_eq (e : Expr) : extractEntityFromWhereCondition entity e =
    (senderComparands e).findSome? (extractEntityFromAddrOrMacro entity) := by
  induction e using senderComparands.induct with
  | case1 lhs rhs h => simp [extractEntityFromWhereCondition, senderComparands, h]
  | case2 lhs rhs hl h => simp [extractEntityFromWhereCondition, senderComparands, hl, h]
  | case3 lhs rhs hl hr => simp [extractEntityFromWhereCondition, senderComparands, hl, hr]
  | case4 lhs rhs ihl ihr =>
    simp [extractEntityFromWhereCondition, senderComparands, ihl, ihr, List.findSome?_append]
  | case5 lhs rhs ihl ihr =>
    simp [extractEntityFromWhereCondition, senderComparands, ihl, ihr, List.findSome?_append]
  | case6 e h1 h2 h3 =>
    rw [extractEntityFromWhereCondition.eq_4 _ _ h1 h2 h3, senderComparands.eq_4 _ h1 h2 h3]
    rfl

/-- The back end reads two more forms. -/
theorem extractEntityFromAddressOrMacro_eq (e : Expr) : extractEntityFromAddressOrMacro entity e =
    (stateAddress e).or (extractEntityFromAddrOrMacro entity e) := by
  unfold extractEntityFromAddressOrMacro extractEntityFromMethodCall stateAddress
    extractEntityFromAddrOrMacro
  cases haddr : extractEntityFromAddrCall e with
  | none => simp [Option.or_assoc]
  | some T =>
    unfold extractEntityFromAddrCall at haddr
    split at haddr
    · simp [addressOfState, addressOfKeyword]
    · cases haddr

theorem extractSenderEntityFromExpr_eq (e : Expr) : extractSenderEntityFromExpr entity e =
    (senderComparands e).findSome? (extractEntityFromAddressOrMacro entity) := by
  induction e using senderComparands.induct with
  | case1 lhs rhs h => simp [extractSenderEntityFromExpr, senderComparands, h]
  | case2 lhs rhs hl h => simp [extractSenderEntityFromExpr, senderComparands, hl, h]
  | case3 lhs rhs hl hr => simp [extractSenderEntityFromExpr, senderComparands, hl, hr]
  | case4 lhs rhs ihl ihr =>
    simp [extractSenderEntityFromExpr, senderComparands, ihl, ihr, List.findSome?_append]
  | case5 lhs rhs ihl ihr =>
    simp [extractSenderEntityFromExpr, senderComparands, ihl, ihr, List.findSome?_append]
  | case6 e h1 h2 h3 =>
    rw [extractSenderEntityFromExpr.eq_4 _ _ h1 h2 h3, senderComparands.eq_4 _ h1 h2 h3]
    rfl

/-- A search that reads more than another one finds the same if the first thing that only it
    reads is what the other finds. -/
theorem findSome_or_iff {α β : Type} {s f : α → Option β} {xs : List α} {b : β}
    (hf : xs.findSome? f = some b) :
    xs.findSome? (fun x => (s x).or (f x)) = some b ↔
      ∀ pre x post, xs = pre ++ x :: post → (∀ y ∈ pre, (s y).or (f y) = none) →
        ∀ c, s x = some c → c = b := by
  induction xs with
  | nil => cases hf
  | cons a xs ih =>
    cases hor : (s a).or (f a) with
    | some d =>
      rw [List.findSome?_cons, hor]
      dsimp only
      constructor
      · intro heq pre x post hsplit hpre c hc
        rcases pre with _ | ⟨a', pre⟩
        · rw [List.nil_append, List.cons.injEq] at hsplit
          rw [← hsplit.1] at hc
          rw [hc, Option.some_or, Option.some_inj] at hor
          rw [hor, Option.some_inj.mp heq]
        · rw [List.cons_append, List.cons.injEq] at hsplit
          have hnone := hpre a' List.mem_cons_self
          rw [← hsplit.1, hor] at hnone
          cases hnone
      · intro h
        cases hs : s a with
        | some c =>
          rw [hs, Option.some_or] at hor
          rw [← hor, h [] a xs rfl (fun y hy => absurd hy List.not_mem_nil) c hs]
        | none =>
          rw [hs, Option.none_or] at hor
          rw [List.findSome?_cons, hor] at hf
          exact hf
    | none =>
      obtain ⟨hs, hfa⟩ := Option.or_eq_none_iff.mp hor
      rw [List.findSome?_cons, hfa] at hf
      rw [List.findSome?_cons, hor]
      dsimp only
      rw [ih hf]
      constructor
      · intro h pre x post hsplit hpre c hc
        rcases pre with _ | ⟨a', pre⟩
        · rw [List.nil_append, List.cons.injEq] at hsplit
          rw [← hsplit.1, hs] at hc
          cases hc
        · rw [List.cons_append, List.cons.injEq] at hsplit
          exact h pre x post hsplit.2 (fun y hy => hpre y (List.mem_cons_of_mem _ hy)) c hc
      · intro h pre x post hsplit hpre c hc
        refine h (a :: pre) x post (by rw [hsplit, List.cons_append]) ?_ c hc
        intro y hy
        rcases List.mem_cons.mp hy with rfl | hy
        · exact hor
        · exact hpre y hy

theorem findSome_flatMap {α β γ : Type} (f : β → Option γ) (g : α → List β) (xs : List α) :
    (xs.flatMap g).findSome? f = xs.findSome? fun x => (g x).findSome? f := by
  induction xs with
  | nil => rfl
  | cons x xs ih =>
    rw [List.flatMap_cons, List.findSome?_append, ih, List.findSome?_cons]
    cases (g x).findSome? f <;> rfl

/-- The comparison that the back end reads names what the validator reads. -/
theorem extractSenderEntityFromWhere_iff
    (h : senderEntity entity route (.msgField "sender") = some T) :
    extractSenderEntityFromWhere route entity = some T ↔ FirstComparandNames entity route T := by
  have hfound : (route.whereClauses.flatMap fun wc => senderComparands wc.condition).findSome?
      (extractEntityFromAddrOrMacro entity) = some T := by
    rw [findSome_flatMap]
    simpa [senderEntity, isMsgSender, extractEntityFromWhereCondition_eq] using h
  rw [FirstComparandNames, ← findSome_or_iff hfound, findSome_flatMap]
  simp only [extractSenderEntityFromWhere, extractSenderEntityFromExpr_eq,
    ← extractEntityFromAddressOrMacro_eq]

/-! ### The forms of a destination -/

/-- What the validator finds, it finds by the form of the destination. -/
theorem resolveDest_forms {dest : Expr} (h : resolveDestEntity dest entity route = some T) :
    extractEntityFromMethodCall dest = some T ∨
      (∃ x, dest = .ident x ∧ identEntity entity route dest = some T) ∨
      (dest = .msgField "sender" ∧ senderEntity entity route dest = some T) ∨
      ((∃ m args, dest = .macroRef m args) ∨ ∃ x args, dest = .methodCall (.ident x) "unwrap" args) ∧
        (macroEntity entity dest).or (unwrapEntity entity dest) = some T := by
  have hor : resolveDestEntity dest entity route = (extractEntityFromMethodCall dest).or
      ((identEntity entity route dest).or ((senderEntity entity route dest).or
        ((macroEntity entity dest).or (unwrapEntity entity dest)))) := by
    rw [resolveDestEntity, extractEntityFromMethodCall]
    simp only [Option.or_assoc]
  rw [hor] at h
  rcases Option.or_eq_some_iff.mp h with hcall | ⟨-, h⟩
  · exact Or.inl hcall
  rcases Option.or_eq_some_iff.mp h with hident | ⟨-, h⟩
  · refine Or.inr (Or.inl ?_)
    unfold identEntity at hident
    split at hident
    · exact ⟨_, rfl, hident⟩
    · cases hident
  rcases Option.or_eq_some_iff.mp h with hsender | ⟨-, h⟩
  · refine Or.inr (Or.inr (Or.inl ⟨?_, hsender⟩))
    unfold senderEntity at hsender
    split at hsender
    · next hmsg =>
      unfold isMsgSender at hmsg
      split at hmsg
      · rw [beq_iff_eq.mp hmsg]
      · cases hmsg
    · cases hsender
  · refine Or.inr (Or.inr (Or.inr ⟨?_, h⟩))
    rcases Option.or_eq_some_iff.mp h with hmacro | ⟨-, hunwrap⟩
    · left
      unfold macroEntity at hmacro
      split at hmacro
      · exact ⟨_, _, rfl⟩
      · cases hmacro
    · right
      unfold unwrapEntity at hunwrap
      split at hunwrap
      · exact ⟨_, _, rfl⟩
      · cases hunwrap

/-- The forms of an entity's address. -/
theorem addressForms {dest : Expr} (h : extractEntityFromMethodCall dest = some T) :
    (∃ args, dest = .methodCall (.ident T) "address" args) ∨
      (∃ args, dest = .fnCall "addressOf" [.methodCall (.ident T) "state" args]) ∨
      ∃ args withParams, dest = .addressOf T args withParams := by
  rcases Option.or_eq_some_iff.mp h with hcall | ⟨-, h⟩
  · left
    unfold extractEntityFromAddrCall at hcall
    split at hcall
    · split at hcall
      · cases hcall
        exact ⟨_, rfl⟩
      · cases hcall
    · cases hcall
  rcases Option.or_eq_some_iff.mp h with hstate | ⟨-, hkeyword⟩
  · right; left
    unfold addressOfState at hstate
    split at hstate
    · split at hstate
      · cases hstate
        exact ⟨_, rfl⟩
      · cases hstate
    · cases hstate
  · right; right
    unfold addressOfKeyword at hkeyword
    split at hkeyword
    · split at hkeyword
      · cases hkeyword
        exact ⟨_, _, rfl⟩
      · cases hkeyword
    · cases hkeyword

theorem addressed_or_not (program : Program) {dest : Expr}
    (h : extractEntityFromMethodCall dest = some T) :
    (InProgram program T ∧ ∃ args, resolveEntityAddress program dest = some (T, args)) ∨
      (¬ InProgram program T ∧ resolveEntityAddress program dest = none) := by
  by_cases hin : InProgram program T
  · left
    refine ⟨hin, ?_⟩
    rcases addressForms h with ⟨args, rfl⟩ | ⟨args, rfl⟩ | ⟨args, withParams, rfl⟩
    · exact ⟨args, if_pos hin⟩
    · exact ⟨args, if_pos hin⟩
    · exact ⟨args, if_pos hin⟩
  · right
    refine ⟨hin, ?_⟩
    rcases addressForms h with ⟨args, rfl⟩ | ⟨args, rfl⟩ | ⟨args, withParams, rfl⟩
    · exact if_neg hin
    · exact if_neg hin
    · exact if_neg hin

/-! ### Agreement by form -/

variable {site : CallSite}

theorem resolversAgree_iff (h : resolveDestEntity site.dest entity route = some T) :
    ResolversAgree program entity route site ↔ resolveTargetEntity site.dest entity route = some T ∧
      StandsFor program entity route site.message (aliased site.letEnv site.dest) T := by
  constructor
  · intro hagree
    have hclass := (hagree T).2.mp h
    exact ⟨(hagree T).1.mpr hclass, classifyMessageDest_iff.mp hclass⟩
  · rintro ⟨htarget, hstands⟩ U
    rw [htarget, h, classifyMessageDest_iff.mpr hstands]
    exact ⟨Iff.rfl, Iff.rfl⟩

/-- A destination that is no name and no address of the program. -/
theorem standsFor_of_form {e : Expr} (haddress : resolveEntityAddress program e = none)
    (hident : ∀ x, e ≠ .ident x) :
    StandsFor program entity route message e T ↔ OnlyExtern program message T :=
  standsFor_of_unknown haddress fun x _ hx => absurd hx (hident x)

theorem agree_of_address (h : resolveDestEntity site.dest entity route = some T)
    (hcall : extractEntityFromMethodCall site.dest = some T) :
    ResolversAgree program entity route site ↔ SeenAlike program entity route site := by
  have htarget : resolveTargetEntity site.dest entity route = some T := by
    rw [resolveTargetEntity, hcall, Option.some_or]
  have hforms := addressForms hcall
  have hident : ∀ x, site.dest ≠ .ident x := by
    intro x hx
    rw [hx] at hforms
    rcases hforms with ⟨args, h⟩ | ⟨args, h⟩ | ⟨args, withParams, h⟩ <;> cases h
  have halias : aliased site.letEnv site.dest = site.dest := by
    rcases hforms with ⟨args, h⟩ | ⟨args, h⟩ | ⟨args, withParams, h⟩ <;> rw [h] <;> rfl
  have hhidden : (macroEntity entity site.dest).or (unwrapEntity entity site.dest) = none := by
    rcases hforms with ⟨args, h⟩ | ⟨args, h⟩ | ⟨args, withParams, h⟩ <;> rw [h] <;> rfl
  have hsender : senderEntity entity route site.dest = none := by
    rcases hforms with ⟨args, h⟩ | ⟨args, h⟩ | ⟨args, withParams, h⟩ <;> rw [h] <;> rfl
  have hstands : StandsFor program entity route site.message site.dest T ↔
      InProgram program T ∨ OnlyExtern program site.message T := by
    rcases addressed_or_not program hcall with ⟨hin, args, haddress⟩ | ⟨hout, haddress⟩
    · exact iff_of_true (.address haddress) (Or.inl hin)
    · rw [standsFor_of_form haddress hident]
      exact ⟨Or.inr, fun h => h.resolve_left hout⟩
  rw [resolversAgree_iff h, halias, hstands]
  constructor
  · rintro ⟨-, hknown⟩
    constructor
    · intro U hU
      rw [hcall, Option.some_inj] at hU
      rwa [← hU]
    · exact fun x _ _ hx => absurd hx (hident x)
    · exact fun x _ hx => absurd hx (hident x)
    · intro U hU
      rw [hhidden] at hU
      cases hU
    · intro U hU
      rw [hsender] at hU
      cases hU
  · exact fun hseen => ⟨htarget, hseen.address T hcall⟩

/-- A name without a `let`, of a member or parameter that is a typed address. -/
theorem standsFor_named {x : String} (hident : identEntity entity route (.ident x) = some T)
    (hdeclared : Declared program T) :
    StandsFor program entity route message (.ident x) T ↔
      ∀ p, route.params.find? (·.name == x) = some p → p.ty = .typedAddress T ∨
        (∀ U, p.ty = .typedAddress U → ¬ Declared program U) ∧ OnlyExtern program message T := by
  cases hparam : route.params.find? (·.name == x) with
  | none =>
    rw [identEntity, hparam, Option.bind_none, Option.or_none, Option.bind_eq_some_iff] at hident
    obtain ⟨m, hm, hty⟩ := hident
    unfold typedAddressEntity at hty
    split at hty
    · next U htyped =>
      cases hty
      refine iff_of_true (.name ⟨?_, hdeclared⟩) fun p hp => by cases hp
      rw [identType, hparam, hm, ← htyped]
      rfl
    · cases hty
  | some p =>
    have htype : identType x entity route = some p.ty := by
      rw [identType, hparam]
      rfl
    have hforall : (∀ q, some p = some q → q.ty = .typedAddress T ∨
        (∀ U, q.ty = .typedAddress U → ¬ Declared program U) ∧ OnlyExtern program message T) ↔
        p.ty = .typedAddress T ∨
          (∀ U, p.ty = .typedAddress U → ¬ Declared program U) ∧ OnlyExtern program message T := by
      constructor
      · exact fun h => h p rfl
      · rintro h q ⟨⟩
        exact h
    rw [hforall]
    by_cases htyped : ∃ U, p.ty = .typedAddress U ∧ Declared program U
    · obtain ⟨U, hU, hdecl⟩ := htyped
      have hname : TypedName program entity route x U := ⟨by rw [htype, hU], hdecl⟩
      rw [standsFor_of_name hname, hU, Ty.typedAddress.injEq]
      constructor
      · exact Or.inl
      · rintro (h | ⟨h, -⟩)
        · exact h
        · exact absurd hdecl (h U rfl)
    · have hnone : ∀ U, p.ty = .typedAddress U → ¬ Declared program U :=
        fun U hU hdecl => htyped ⟨U, hU, hdecl⟩
      rw [standsFor_of_unknown rfl]
      · constructor
        · exact fun h => Or.inr ⟨hnone, h⟩
        · rintro (h | ⟨-, h⟩)
          · exact absurd hdeclared (hnone T h)
          · exact h
      · rintro y U hy ⟨hyU, hdecl⟩
        cases hy
        rw [htype, Option.some_inj] at hyU
        exact hnone U hyU hdecl

theorem agree_of_name (h : resolveDestEntity site.dest entity route = some T)
    (hdeclared : Declared program T) {x : String} (hx : site.dest = .ident x)
    (hident : identEntity entity route site.dest = some T) :
    ResolversAgree program entity route site ↔ SeenAlike program entity route site := by
  have htarget : resolveTargetEntity site.dest entity route = some T := by
    rw [resolveTargetEntity, hident, hx]
    rfl
  rw [resolversAgree_iff h]
  constructor
  · rintro ⟨-, hstands⟩
    constructor
    · intro U hU
      rw [hx] at hU
      cases hU
    · intro y U rhs hy hU hlet
      rw [hident, Option.some_inj] at hU
      rw [hy] at hstands
      rwa [aliased, hlet, Option.getD_some, hU] at hstands
    · intro y U hy hU hlet
      rw [hident, Option.some_inj] at hU
      subst hU
      rw [hy, aliased, hlet, Option.getD_none] at hstands
      rw [hy] at hident
      exact (standsFor_named hident hdeclared).mp hstands
    · intro U hU
      rw [hx] at hU
      cases hU
    · intro U hU
      rw [hx] at hU
      cases hU
  · intro hseen
    refine ⟨htarget, ?_⟩
    cases hlet : site.letEnv.lookup x with
    | some rhs =>
      rw [hx, aliased, hlet]
      exact hseen.letBound x T rhs hx hident hlet
    | none =>
      have hnamed := hseen.named x T hx hident hlet
      rw [hx] at hident
      rw [hx, aliased, hlet]
      exact (standsFor_named hident hdeclared).mpr hnamed

theorem agree_of_sender (h : resolveDestEntity site.dest entity route = some T)
    (hmsg : site.dest = .msgField "sender") (hsender : senderEntity entity route site.dest = some T) :
    ResolversAgree program entity route site ↔ SeenAlike program entity route site := by
  have htarget : resolveTargetEntity site.dest entity route = some T ↔
      FirstComparandNames entity route T := by
    rw [hmsg] at hsender ⊢
    rw [← extractSenderEntityFromWhere_iff hsender]
    simp [resolveTargetEntity, isMsgSender, extractEntityFromMethodCall, extractEntityFromAddrCall,
      addressOfState, addressOfKeyword, identEntity, macroEntity, unwrapEntity]
  have hstands : StandsFor program entity route site.message (aliased site.letEnv site.dest) T ↔
      OnlyExtern program site.message T := by
    rw [hmsg]
    exact standsFor_of_form rfl fun x hx => by cases hx
  rw [resolversAgree_iff h, htarget, hstands]
  constructor
  · rintro ⟨hfirst, honly⟩
    constructor
    · intro U hU
      rw [hmsg] at hU
      cases hU
    · intro x U rhs hx
      rw [hmsg] at hx
      cases hx
    · intro x U hx
      rw [hmsg] at hx
      cases hx
    · intro U hU
      rw [hmsg] at hU
      cases hU
    · intro U hU
      rw [hsender, Option.some_inj] at hU
      rw [← hU]
      exact ⟨honly, hfirst⟩
  · intro hseen
    have hboth := hseen.sender T hsender
    exact ⟨hboth.2, hboth.1⟩

theorem agree_of_hidden (h : resolveDestEntity site.dest entity route = some T)
    (hform : (∃ m args, site.dest = .macroRef m args) ∨
      ∃ x args, site.dest = .methodCall (.ident x) "unwrap" args)
    (hhidden : (macroEntity entity site.dest).or (unwrapEntity entity site.dest) = some T) :
    ResolversAgree program entity route site ↔ SeenAlike program entity route site := by
  have hcall : extractEntityFromMethodCall site.dest = none := by
    rcases hform with ⟨m, args, hd⟩ | ⟨x, args, hd⟩ <;> rw [hd] <;> rfl
  have hident : ∀ x, site.dest ≠ .ident x := by
    intro x hx
    rcases hform with ⟨m, args, hd⟩ | ⟨y, args, hd⟩ <;> rw [hd] at hx <;> cases hx
  have hname : identEntity entity route site.dest = none := by
    rcases hform with ⟨m, args, hd⟩ | ⟨x, args, hd⟩ <;> rw [hd] <;> rfl
  have hmsg : isMsgSender site.dest = false := by
    rcases hform with ⟨m, args, hd⟩ | ⟨x, args, hd⟩ <;> rw [hd] <;> rfl
  have htarget : resolveTargetEntity site.dest entity route = some T := by
    rw [resolveTargetEntity, hcall, hname, hmsg, hhidden]
    rfl
  have hstands : StandsFor program entity route site.message (aliased site.letEnv site.dest) T ↔
      OnlyExtern program site.message T := by
    rcases hform with ⟨m, args, hd⟩ | ⟨x, args, hd⟩
    · rw [hd]
      exact standsFor_of_form rfl fun x hx => by cases hx
    · rw [hd]
      exact standsFor_of_form rfl fun x hx => by cases hx
  rw [resolversAgree_iff h, hstands]
  constructor
  · rintro ⟨-, honly⟩
    constructor
    · intro U hU
      rw [hcall] at hU
      cases hU
    · exact fun x _ _ hx => absurd hx (hident x)
    · exact fun x _ hx => absurd hx (hident x)
    · intro U hU
      rw [hhidden, Option.some_inj] at hU
      rwa [← hU]
    · intro U hU
      rw [senderEntity, hmsg] at hU
      cases hU
  · exact fun hseen => ⟨htarget, hseen.hidden T hhidden⟩

/-! ### Accepted programs -/

mutual
theorem nested_of_sitesOf {letEnv : LetEnv} {s : CallSite} : ∀ {a : RouteAction}, s ∈ sitesOf letEnv a →
    ∃ b, Subaction a b ∧ ((∃ args opts, b = .send (some s.message) args s.dest opts) ∨
      ∃ x args opts, b = .varCall x s.message args s.dest opts)
  | .send (some message) args dest opts, h => by
    rw [sitesOf, List.mem_singleton] at h
    subst h
    exact ⟨_, .refl, Or.inl ⟨_, _, rfl⟩⟩
  | .varCall x message args dest opts, h => by
    rw [sitesOf, List.mem_singleton] at h
    subst h
    exact ⟨_, .refl, Or.inr ⟨_, _, _, rfl⟩⟩
  | .conditional c thenActions elseActions, h => by
    rw [sitesOf, List.mem_append] at h
    rcases h with h | h
    · obtain ⟨a, ha, b, hb, hform⟩ := nested_of_sitesOfAll h
      exact ⟨b, .head (List.mem_append_left _ ha) hb, hform⟩
    · obtain ⟨a, ha, b, hb, hform⟩ := nested_of_sitesOfAll h
      exact ⟨b, .head (List.mem_append_right _ ha) hb, hform⟩
  | .forA p iter body, h => by
    rw [sitesOf] at h
    obtain ⟨a, ha, b, hb, hform⟩ := nested_of_sitesOfAll h
    exact ⟨b, .head ha hb, hform⟩
  | .rescue tag action, h => by
    rw [sitesOf] at h
    obtain ⟨b, hb, hform⟩ := nested_of_sitesOf h
    exact ⟨b, .head (List.mem_singleton.mpr rfl) hb, hform⟩
  | .send none .., h | .ret _, h | .letA .., h | .effect .., h | .deploy .., h | .throw _, h
  | .throwCustom .., h | .emit .., h | .callRoute .., h | .updateCode .., h =>
    absurd h List.not_mem_nil
theorem nested_of_sitesOfAll {letEnv : LetEnv} {s : CallSite} : ∀ {as : List RouteAction},
    s ∈ sitesOfAll letEnv as → ∃ a ∈ as, ∃ b, Subaction a b ∧
      ((∃ args opts, b = .send (some s.message) args s.dest opts) ∨
        ∃ x args opts, b = .varCall x s.message args s.dest opts)
  | [], h => absurd h List.not_mem_nil
  | a :: as, h => by
    rw [sitesOfAll, List.mem_append] at h
    rcases h with h | h
    · obtain ⟨b, hb, hform⟩ := nested_of_sitesOf h
      exact ⟨a, List.mem_cons_self, b, hb, hform⟩
    · obtain ⟨a', ha, hrest⟩ := nested_of_sitesOfAll h
      exact ⟨a', List.mem_cons_of_mem _ ha, hrest⟩
end

/-- A message is sent by an action of the route. -/
theorem nested_of_callSites {s : CallSite} (h : s ∈ callSites route) :
    ∃ a ∈ route.body.allActions, ∃ b, Subaction a b ∧
      ((∃ args opts, b = .send (some s.message) args s.dest opts) ∨
        ∃ x args opts, b = .varCall x s.message args s.dest opts) := by
  unfold callSites at h
  unfold RouteBody.allActions
  cases hbody : route.body with
  | unphased actions =>
    rw [hbody] at h
    exact nested_of_sitesOfAll h
  | phased phases =>
    rw [hbody] at h
    obtain ⟨ph, hph, h⟩ := List.mem_flatMap.mp h
    obtain ⟨a, ha, hrest⟩ := nested_of_sitesOfAll h
    exact ⟨a, List.mem_flatMap.mpr ⟨ph, hph, ha⟩, hrest⟩
  | mixed phases actions =>
    rw [hbody] at h
    rcases List.mem_append.mp h with h | h
    · obtain ⟨ph, hph, h⟩ := List.mem_flatMap.mp h
      obtain ⟨a, ha, hrest⟩ := nested_of_sitesOfAll h
      exact ⟨a, List.mem_append_left _ (List.mem_flatMap.mpr ⟨ph, hph, ha⟩), hrest⟩
    · obtain ⟨a, ha, hrest⟩ := nested_of_sitesOfAll h
      exact ⟨a, List.mem_append_right _ ha, hrest⟩

theorem declared_of_known (h : (program.entities.map Entity.name ++
    program.externEntities.map ExternEntity.name).contains T = true) : Declared program T := by
  rw [List.contains_iff_mem, List.mem_append, List.mem_map, List.mem_map] at h
  rcases h with ⟨e, he, rfl⟩ | ⟨ext, hext, rfl⟩
  · exact Or.inl (List.any_eq_true.mpr ⟨e, he, beq_self_eq_true _⟩)
  · exact Or.inr (List.any_eq_true.mpr ⟨ext, hext, beq_self_eq_true _⟩)

/-- The validator finds a declared entity for every message. -/
theorem resolved_of_accepted (hacc : NoErrors (checkTypedSends program)) (he : entity ∈ program.entities)
    (hr : route ∈ entity.routes) (hsite : site ∈ callSites route) :
    ∃ T, resolveDestEntity site.dest entity route = some T ∧ Declared program T := by
  obtain ⟨a, ha, b, hb, hform⟩ := nested_of_callSites hsite
  have hwalk : b ∈ route.body.allActions.flatMap walkActionSubtree.walk :=
    List.mem_flatMap.mpr ⟨a, ha, (Walker.mem_walk _).mpr ⟨b, hb, List.mem_singleton.mpr rfl⟩⟩
  obtain ⟨htyped, hextern⟩ := noErrors_append.mp hacc
  have hsend : NoErrors (checkTypedSend program entity route b) :=
    noErrors_flatMap.mp (noErrors_flatMap.mp (noErrors_flatMap.mp htyped entity he) route hr) b hwalk
  have hknown := noErrors_flatMap.mp (noErrors_flatMap.mp (noErrors_flatMap.mp hextern entity he)
    route hr) b hwalk
  cases hdest : resolveDestEntity site.dest entity route with
  | none =>
    rcases hform with ⟨args, opts, rfl⟩ | ⟨x, args, opts, rfl⟩
    · simp only [checkTypedSend, hdest] at hsend
      exact absurd rfl (hsend _ List.mem_cons_self)
    · simp only [checkTypedSend, hdest] at hsend
      exact absurd rfl (hsend _ List.mem_cons_self)
  | some T =>
    refine ⟨T, rfl, ?_⟩
    by_contra hnot
    have hunknown := mt declared_of_known hnot
    rcases hform with ⟨args, opts, rfl⟩ | ⟨x, args, opts, rfl⟩
    · simp only [checkEvmExternAction, hdest, hunknown] at hknown
      exact absurd rfl (hknown _ List.mem_cons_self)
    · simp only [checkEvmExternAction, hdest, hunknown] at hknown
      exact absurd rfl (hknown _ List.mem_cons_self)

/-- **The resolvers.**  For a message of an accepted program the validator, the back end and
    the classification mean the same callee exactly when the destination is seen alike. -/
theorem resolvers_agree_iff (program : Program) (hacc : NoErrors (checkTypedSends program))
    (entity : Entity) (he : entity ∈ program.entities) (route : Route) (hr : route ∈ entity.routes)
    (site : CallSite) (hsite : site ∈ callSites route) :
    ResolversAgree program entity route site ↔ SeenAlike program entity route site := by
  obtain ⟨T, h, hdeclared⟩ := resolved_of_accepted hacc he hr hsite
  rcases resolveDest_forms h with hcall | ⟨x, hx, hident⟩ | ⟨hmsg, hsender⟩ | ⟨hform, hhidden⟩
  · exact agree_of_address h hcall
  · exact agree_of_name h hdeclared hx hident
  · exact agree_of_sender h hmsg hsender
  · exact agree_of_hidden h hform hhidden

/-! ### A macro, and an extern entity with the same message -/

def pingRoute (name : String) (actions : List RouteAction) : Route where
  name := name
  params := []
  fromClauses := []
  whereClauses := []
  returnType := none
  body := .unphased actions
  isView := false
  isPure := false
  isInit := false
  isAccept := false
  isPrivate := false
  recoverTag := none
  factoryOnly := false

/-- `ping() => []`, and `go() => [ping() ~> dest]` with `peer` of the type `Address<Vault>`. -/
def pingEntity (dest : Expr) : Entity where
  name := "Vault"
  records := []
  enums := []
  typeAliases := []
  constants := []
  macros := [⟨"peer", [], .typedAddress "Vault", .methodCall (.ident "Vault") "address" []⟩]
  routes := [pingRoute "ping" [], pingRoute "go" [.send (some "ping") [] dest none]]
  members := []

/-- With `extern entity Oracle { route ping(); }`. -/
def pingProgram (dest : Expr) : Program :=
  { imports := [], pureFns := [], typeAliases := [], records := [], enums := []
    entities := [pingEntity dest], libraries := []
    externEntities := [⟨"Oracle", [⟨"ping", [], none, false, false⟩]⟩] }

def pingSite (dest : Expr) : CallSite := ⟨[], "ping", dest⟩

def vaultAddress : Expr := .methodCall (.ident "Vault") "address" []

theorem vaultAddress_seen :
    SeenAlike (pingProgram vaultAddress) (pingEntity vaultAddress)
      (pingRoute "go" [.send (some "ping") [] vaultAddress none]) (pingSite vaultAddress) where
  address T hT := by
    cases hT
    exact Or.inl rfl
  letBound x T rhs hx := by cases hx
  named x T hx := by cases hx
  hidden T hT := by cases hT
  sender T hT := by cases hT

/-- The address itself is seen alike. -/
theorem vaultAddress_agrees :
    ResolversAgree (pingProgram vaultAddress) (pingEntity vaultAddress)
      (pingRoute "go" [.send (some "ping") [] vaultAddress none]) (pingSite vaultAddress) :=
  (resolvers_agree_iff (pingProgram vaultAddress) (by decide +kernel) _ List.mem_cons_self _
    (List.mem_cons_of_mem _ List.mem_cons_self) (pingSite vaultAddress) List.mem_cons_self).mpr
      vaultAddress_seen

/-- The macro is the vault to the validator and the back end, and the oracle to the
    classification. -/
theorem peerMacro_disagrees :
    NoErrors (checkTypedSends (pingProgram (.macroRef "peer" []))) ∧
      pingSite (.macroRef "peer" []) ∈
        callSites (pingRoute "go" [.send (some "ping") [] (.macroRef "peer" []) none]) ∧
      ¬ ResolversAgree (pingProgram (.macroRef "peer" [])) (pingEntity (.macroRef "peer" []))
        (pingRoute "go" [.send (some "ping") [] (.macroRef "peer" []) none])
        (pingSite (.macroRef "peer" [])) := by
  refine ⟨by decide +kernel, List.mem_cons_self, fun h => ?_⟩
  have horacle := (h "Vault").2.mp rfl
  exact absurd horacle (by decide)

end CambrianLang.Analysis
