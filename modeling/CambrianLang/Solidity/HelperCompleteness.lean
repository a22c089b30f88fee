/-
  **Is every helper the file names defined in it?**

  A call that the search for its helper comes to causes the helper to be emitted.
  The others hang on a position no search starts from, or below a subexpression
  the search for that helper does not go into.
-/
import CambrianLang.Solidity.HelperEmission

namespace CambrianLang.Solidity

open Ast Traversal Relation

/-! ### Every helper at most once -/

/-- The helpers of `gen_std_ns_evm_helpers`. -/
def stdNsHelpers : List Helper :=
  [Helper.pow] ++ [Helper.modpow2] ++ [Helper.abs] ++ [Helper.sign] ++ [Helper.muldivmod] ++
    [Helper.tryParseRadix, Helper.tryParseRadixSigned] ++ [Helper.itoa, Helper.formatPad6]

def allHelpers : List Helper :=
  stdlibFnNames ++ StdMathFn.all.map Helper.prefixed ++ [Helper.stringSplit] ++
    [Helper.bytesToU8s] ++ stdNsHelpers

theorem mem_allHelpers (h : Helper) : h ∈ allHelpers := by
  cases h with
  | bare f => cases f <;> decide
  | prefixed f => cases f <;> decide
  | _ => decide

theorem nodup_functions : (allHelpers.flatMap Helper.functions).Nodup := by decide +kernel

theorem emitWhen_sublist (used : Bool) (hs : List Helper) : (emitWhen used hs).Sublist hs := by
  cases used with
  | true => exact List.Sublist.refl _
  | false => exact List.nil_sublist _

theorem genStdNsEvmHelpers_sublist (program : Program) :
    (genStdNsEvmHelpers program).Sublist stdNsHelpers := by
  have hnested : ∀ (used used' : Bool) (h h' : Helper),
      (emitWhen used (h :: emitWhen used' [h'])).Sublist [h, h'] := by
    intro used used' h h'
    exact (emitWhen_sublist _ _).trans ((emitWhen_sublist _ _).cons_cons h)
  apply List.Sublist.append
  · apply List.Sublist.append
    · apply List.Sublist.append
      · apply List.Sublist.append
        · apply List.Sublist.append
          · exact (emitWhen_sublist _ _).append (emitWhen_sublist _ _)
          · exact emitWhen_sublist _ _
        · exact emitWhen_sublist _ _
      · exact emitWhen_sublist _ _
    · exact hnested _ _ _ _
  · exact hnested _ _ _ _

theorem genStdlibHelpers_sublist (program : Program) :
    (genStdlibHelpers program).Sublist allHelpers := by
  apply List.Sublist.append
  · apply List.Sublist.append
    · apply List.Sublist.append
      · apply List.Sublist.append
        · exact List.filter_sublist
        · exact List.filter_sublist.map _
      · exact emitWhen_sublist _ _
    · exact emitWhen_sublist _ _
  · exact genStdNsEvmHelpers_sublist program

/-- No two helpers define the same function. -/
theorem helper_eq_of_shared {h h' : Helper} {f : String} (hf : f ∈ h.functions)
    (hf' : f ∈ h'.functions) : h = h' := by
  by_contra hne
  have hdisjoint := (List.nodup_flatMap.mp nodup_functions).2
  have hsymm : Std.Symm (Function.onFun List.Disjoint Helper.functions) := ⟨fun _ _ hd => hd.symm⟩
  exact hdisjoint.forall (mem_allHelpers h) (mem_allHelpers h') hne hf hf'

/-- A helper's functions are defined once in the helpers if it is emitted, and else not at all. -/
theorem count_helperFunctions {program : Program} {h : Helper} {f : String} (hf : f ∈ h.functions) :
    ((genStdlibHelpers program).flatMap Helper.functions).count f =
      if h ∈ genStdlibHelpers program then 1 else 0 := by
  by_cases hmem : h ∈ genStdlibHelpers program
  · rw [if_pos hmem]
    have hnodup : ((genStdlibHelpers program).flatMap Helper.functions).Nodup :=
      nodup_functions.sublist ((genStdlibHelpers_sublist program).flatMap _)
    exact List.count_eq_one_of_mem hnodup (List.mem_flatMap.mpr ⟨h, hmem, hf⟩)
  · rw [if_neg hmem, List.count_eq_zero]
    intro hin
    obtain ⟨h', hmem', hf'⟩ := List.mem_flatMap.mp hin
    rw [helper_eq_of_shared hf hf'] at hmem
    exact hmem hmem'

/-! ### Seen calls -/

theorem sees_mono {D D' : Descent} (hvis : ∀ e c, c ∈ D.visited e → c ∈ D'.visited e)
    (hdef : D.defaults = true → D'.defaults = true) {program : Program} {c : Expr}
    (h : D.Sees program c) : D'.Sees program c := by
  obtain ⟨e, hscan, hreach⟩ := h
  refine ⟨e, ?_, ReflTransGen.mono (fun a b hab => hvis a b hab) _ _ hreach⟩
  cases hscan with
  | action hent hr ha hb he => exact .action hent hr ha hb he
  | whereCondition hent hr hw => exact .whereCondition hent hr hw
  | default hd hent hm he => exact .default (hdef hd) hent hm he
  | transform hent hm ht => exact .transform hent hm ht
  | pureFn hpf => exact .pureFn hpf

theorem sees_stdNs_of_formatPad6 {program : Program} {c : Expr}
    (h : formatPad6Descent.Sees program c) : stdNsDescent.Sees program c := by
  have hdef : formatPad6Descent.defaults = true → stdNsDescent.defaults = true := fun hd => hd
  refine sees_mono ?_ hdef h
  intro e c hc
  cases e with
  | namespacedCall ns name args tys => exact formatPad6Descent.sub hc
  | _ => exact hc

/-- The program has a pure function of the helper's own bare name. -/
def Shadowed (program : Program) (h : Helper) : Prop :=
  ∃ f, h = .bare f ∧ f.name ∈ program.pureFns.map (·.name)

theorem isStdCall_self {ns name : String} {args : List Expr} {tys : List Ty} :
    isStdCall ns name (.namespacedCall ns name args tys) = true := by
  simp [isStdCall]

/-- The helper of a `std::math` call is sought, and emitted, by the search for such calls. -/
theorem mathHelper_sought {name : String} {h : Helper} (hmem : h ∈ mathHelpers name) :
    h.descent = stdNsDescent ∧ ∀ (program : Program) (args : List Expr) (tys : List Ty),
      stdNsDescent.Sees program (.namespacedCall "std::math" name args tys) → Provoked program h := by
  unfold mathHelpers at hmem
  split at hmem
  case h_10 =>
    rcases List.mem_cons.mp hmem with rfl | hmax
    · exact ⟨rfl, fun _ _ _ hsees => .minmax hsees isStdCall_self (Or.inl rfl)⟩
    · rw [List.mem_singleton.mp hmax]
      exact ⟨rfl, fun _ _ _ hsees => .minmax hsees isStdCall_self (Or.inr rfl)⟩
  case h_14 => exact absurd hmem List.not_mem_nil
  all_goals
    rw [List.mem_singleton.mp hmem]
    refine ⟨rfl, ?_⟩
    intro _ _ _ hsees
  · exact .prefixed hsees isStdCall_self
  · exact .prefixed hsees isStdCall_self
  · exact .prefixed hsees isStdCall_self
  · exact .muldiv hsees isStdCall_self
  · exact .prefixed hsees isStdCall_self
  · exact .prefixed hsees isStdCall_self
  · exact .prefixed hsees isStdCall_self
  · exact .abs hsees isStdCall_self
  · exact .sign hsees isStdCall_self
  · exact .muldivmod hsees isStdCall_self
  · exact .pow hsees isStdCall_self
  · exact .modpow2 hsees isStdCall_self

/-- **A call that the search for its helper comes to** has the helper emitted, unless the
    program's own function of that name is called. -/
theorem provoked_or_shadowed_of_seen {program : Program} {scope : Option LibraryDecl} {c : Expr}
    {h : Helper} (hsees : h.descent.Sees program c) (hmem : h ∈ callHelpers program scope c) :
    Provoked program h ∨ Shadowed program h := by
  cases c with
  | fnCall name args =>
    simp only [callHelpers] at hmem
    split at hmem
    · obtain ⟨f, hf, rfl⟩ := List.mem_map.mp hmem
      have hname : f.name = name := beq_iff_eq.mp (List.mem_filter.mp hf).2
      by_cases hown : f.name ∈ program.pureFns.map (·.name)
      · exact Or.inr ⟨f, rfl, hown⟩
      · refine Or.inl (.bare ?_ hsees (beq_iff_eq.mpr hname.symm))
        intro pf hpf heq
        exact hown (List.mem_map.mpr ⟨pf, hpf, heq⟩)
    · exact absurd hmem List.not_mem_nil
  | methodCall b method args =>
    simp only [callHelpers] at hmem
    split at hmem
    · rename_i heq
      cases heq
    · rename_i heq
      cases heq
    · rename_i heq
      cases heq
      split at hmem
      · rename_i hsplit
        rw [List.mem_singleton.mp hmem] at hsees ⊢
        exact Or.inl (.split hsees (beq_iff_eq.mpr hsplit))
      · exact absurd hmem List.not_mem_nil
    · exact absurd hmem List.not_mem_nil
  | namespacedCall ns name args tys =>
    left
    simp only [callHelpers, stdCallHelpers] at hmem
    split at hmem
    · rename_i hns
      subst hns
      split at hmem
      · rename_i info hmeta
        have hparse : isStdStrParse (.namespacedCall "std::str" name args tys) = true := by
          simp [isStdStrParse, parseStrMetaFromExpr, hmeta]
        rw [List.mem_singleton.mp hmem] at hsees ⊢
        cases hsigned : info.signed with
        | true =>
          rw [hsigned] at hsees
          refine .parseSigned hsees hparse (.signed hsees ?_)
          simp [isSignedParse, parseStrMetaFromExpr, hmeta, hsigned]
        | false =>
          rw [hsigned] at hsees
          exact .parse hsees hparse
      · split at hmem
        · rename_i hformat
          subst hformat
          unfold formatHelpers at hmem
          split at hmem
          · split at hmem
            · rename_i hpad
              subst hpad
              rw [List.mem_singleton.mp hmem] at hsees ⊢
              exact .pad6 (sees_stdNs_of_formatPad6 hsees) isStdCall_self hsees rfl
            · split at hmem
              · rw [List.mem_singleton.mp hmem] at hsees ⊢
                exact .format hsees isStdCall_self
              · exact absurd hmem List.not_mem_nil
          · exact absurd hmem List.not_mem_nil
        · exact absurd hmem List.not_mem_nil
    · split at hmem
      · rename_i hns
        subst hns
        obtain ⟨hdescent, hprov⟩ := mathHelper_sought hmem
        rw [hdescent] at hsees
        exact hprov program args tys hsees
      · exact absurd hmem List.not_mem_nil
  | _ => exact absurd hmem List.not_mem_nil

/-- The helpers a helper calls are emitted with it. -/
theorem provoked_of_uses {program : Program} {h h' : Helper} (hprov : Provoked program h)
    (huses : h' ∈ h.uses) : Provoked program h' := by
  cases hprov with
  | muldivmod hsees hcall =>
    rw [List.mem_singleton.mp huses]
    exact .muldivForMod hsees hcall
  | pad6 hsees hcall _ _ =>
    rw [List.mem_singleton.mp huses]
    exact .format hsees hcall
  | _ => exact absurd huses List.not_mem_nil

/-! ### Calls out of sight -/

/-- A lowered call that the search for its helper does not come to by that way: it stands where
    the search does not start, or below a subexpression it does not go into. -/
inductive HiddenCall (program : Program) (deterministic : Bool) : Helper → Prop
  | position {scope : Option LibraryDecl} {e c : Expr} {h : Helper} : EmittedIn program scope e →
      ¬ h.descent.Scans program e → Lowers deterministic e c → h ∈ callHelpers program scope c →
      HiddenCall program deterministic h
  | subexpression {scope : Option LibraryDecl} {e a b c : Expr} {h : Helper} :
      EmittedIn program scope e → Lowers deterministic e a → b ∈ loweredChildren deterministic a →
      b ∉ h.descent.visited a → Lowers deterministic b c → h ∈ callHelpers program scope c →
      HiddenCall program deterministic h

theorem HiddenCall.referenced {program : Program} {deterministic : Bool} {h : Helper}
    (hhidden : HiddenCall program deterministic h) : Referenced program deterministic h := by
  cases hhidden with
  | position hemit _ hlow hmem => exact .call hemit hlow hmem
  | subexpression hemit hea hab _ hbc hmem => exact .call hemit (hea.trans (.head hab hbc)) hmem

/-- A lowered call is seen or hidden. -/
theorem seen_or_hidden {program : Program} {deterministic : Bool} {scope : Option LibraryDecl}
    {e c : Expr} {h : Helper} (hemit : EmittedIn program scope e) (hlow : Lowers deterministic e c)
    (hmem : h ∈ callHelpers program scope c) :
    h.descent.Sees program c ∨ HiddenCall program deterministic h := by
  by_cases hscan : h.descent.Scans program e
  · rcases path_split (V := fun a b => b ∈ h.descent.visited a) hlow with hall | hleave
    · exact Or.inl ⟨e, hscan, ReflTransGen.mono (fun _ _ hab => hab.2) _ _ hall⟩
    · obtain ⟨a, b, hpre, hab, hnot, hpost⟩ := hleave
      have hea : Lowers deterministic e a := ReflTransGen.mono (fun _ _ hxy => hxy.1) _ _ hpre
      exact Or.inr (.subexpression hemit hea hab hnot hpost hmem)
  · exact Or.inr (.position hemit hscan hlow hmem)

/-! ### Completeness -/

/-- The program itself defines every function of the helper once. -/
def DefinedByProgram (program : Program) (h : Helper) : Prop :=
  ∀ f ∈ h.functions, (program.pureFns.map (·.name)).count f = 1

/-- Every hidden call has its helper emitted on another account or defined by the program,
    and the names of the program's pure functions do not clash with the helpers in use. -/
structure HelpersAccounted (program : Program) (deterministic : Bool) : Prop where
  hidden : ∀ h, HiddenCall program deterministic h → Provoked program h ∨ DefinedByProgram program h
  noClash : ∀ h, Referenced program deterministic h → Provoked program h →
    ∀ f ∈ h.functions, f ∉ program.pureFns.map (·.name)
  atMostOnce : ∀ f, Referenced program deterministic (.bare f) →
    (program.pureFns.map (·.name)).count f.name ≤ 1

theorem definedTimes_eq {program : Program} {h : Helper} {f : String} (hf : f ∈ h.functions) :
    definedTimes program f = (if h ∈ genStdlibHelpers program then 1 else 0) +
      (program.pureFns.map (·.name)).count f := by
  rw [definedTimes, count_helperFunctions hf]

/-- A referenced helper is emitted or the program's own. -/
theorem provoked_or_defined {program : Program} {deterministic : Bool}
    (hacc : HelpersAccounted program deterministic) {h : Helper}
    (href : Referenced program deterministic h) :
    Provoked program h ∨ DefinedByProgram program h := by
  cases href with
  | @call scope e c h hemit hlow hmem =>
    rcases seen_or_hidden hemit hlow hmem with hsees | hhidden
    · rcases provoked_or_shadowed_of_seen hsees hmem with hprov | ⟨f, rfl, hown⟩
      · exact Or.inl hprov
      · right
        intro name hname
        rw [List.mem_singleton.mp hname]
        have hpos : 0 < (program.pureFns.map (·.name)).count f.name := List.count_pos_iff.mpr hown
        exact Nat.le_antisymm (hacc.atMostOnce f (.call hemit hlow hmem)) hpos
    · exact hacc.hidden h hhidden
  | bytes hent hm _ ht hbody =>
    left
    refine .bytes ⟨_, .transform hent hm ht, .refl⟩ ?_
    rw [hbody]
    exact isStdCall_self
  | body hmem huses => exact Or.inl (provoked_of_uses (mem_genStdlibHelpers.mp hmem) huses)

/-- **When every helper the file names is defined in it exactly once.** -/
theorem helpersDefinedOnce_iff (program : Program) (deterministic : Bool) :
    HelpersDefinedOnce program deterministic ↔ HelpersAccounted program deterministic := by
  constructor
  · intro honce
    refine ⟨?_, ?_, ?_⟩
    · intro h hhidden
      by_cases hmem : h ∈ genStdlibHelpers program
      · exact Or.inl (mem_genStdlibHelpers.mp hmem)
      · right
        intro f hf
        have hdef := honce h hhidden.referenced f hf
        rw [definedTimes_eq hf, if_neg hmem, Nat.zero_add] at hdef
        exact hdef
    · intro h href hprov f hf
      have hdef := honce h href f hf
      rw [definedTimes_eq hf, if_pos (mem_genStdlibHelpers.mpr hprov)] at hdef
      exact List.count_eq_zero.mp (Nat.add_left_cancel hdef)
    · intro f href
      have hdef := honce _ href f.name (List.mem_singleton.mpr rfl)
      exact (Nat.le_add_left _ _).trans hdef.le
  · intro hacc h href f hf
    rw [definedTimes_eq hf]
    by_cases hmem : h ∈ genStdlibHelpers program
    · rw [if_pos hmem, List.count_eq_zero.mpr (hacc.noClash h href (mem_genStdlibHelpers.mp hmem) f hf)]
    · rw [if_neg hmem, Nat.zero_add]
      rcases provoked_or_defined hacc href with hprov | hown
      · exact absurd (mem_genStdlibHelpers.mpr hprov) hmem
      · exact hown f hf

/-! ### A power in a macro -/

/-- `macro sq(x: U256): U256 => std::math::pow(x, x)`, and no other call of a helper. -/
def squareEntity : Entity where
  name := "Square"
  records := []
  enums := []
  typeAliases := []
  constants := []
  macros := [
    { name := "sq", params := [{ name := "x", ty := .simple "U256" }], returnType := .simple "U256"
      body := .namespacedCall "std::math" "pow" [.ident "x", .ident "x"] [] }]
  routes := [
    { name := "get", params := [{ name := "n", ty := .simple "U256" }], fromClauses := []
      whereClauses := [], returnType := some (.simple "U256")
      body := .unphased [.ret [.macroRef "sq" [.ident "n"]]]
      isView := true, isPure := false, isInit := false, isAccept := false, isPrivate := false
      recoverTag := none, factoryOnly := false }]
  members := []

def squareProgram : Program where
  imports := []
  pureFns := []
  typeAliases := []
  records := []
  enums := []
  entities := [squareEntity]
  externEntities := []
  libraries := []

theorem pow_called_not_defined : Referenced squareProgram false .pow ∧
    definedTimes squareProgram "_cam_pow" = 0 := by
  refine ⟨?_, by decide +kernel⟩
  exact .call (.macroBody List.mem_cons_self List.mem_cons_self) .refl (by decide)

theorem helpers_not_defined : ¬ HelpersDefinedOnce squareProgram false := by
  intro honce
  have hdef := honce .pow pow_called_not_defined.1 "_cam_pow" (List.mem_singleton.mpr rfl)
  rw [pow_called_not_defined.2] at hdef
  exact absurd hdef Nat.zero_ne_one

end CambrianLang.Solidity
