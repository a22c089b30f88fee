/-
  **What iterator chains mean and when the emitted loop computes it** (`LANGUAGE.md`,
  Iteration).

  A chain means its stages applied one after another to the list of source elements.
  The loop numbers by its index, has one counter for every `take`, checks `stop - start`
  and declares the accumulator around the closures of all stages.
-/
import CambrianLang.Solidity.IterChain

namespace CambrianLang.Solidity

open Ast Fusion

variable {V : Type}

/-! ### The meaning of a chain -/

section Spec

variable (L : Meaning V) (ρ : List (String × V))

mutual
/-- A closure parameter bound to a value. -/
def bindValue : Pattern → V → Option (List (String × V))
  | .ident x, v => some [(x, v)]
  | .wildcard, _ => some []
  | .deref inner, v => bindValue inner v
  | .tuple ps, v => (L.untuple v).bind fun vs => bindValues ps vs
  | .some _, _ | .none, _ => none
def bindValues : List Pattern → List V → Option (List (String × V))
  | [], [] => some []
  | p :: ps, v :: vs => (bindValue p v).bind fun bs => (bindValues ps vs).map (bs ++ ·)
  | _, _ => none
end

def applyClosure (pat : Pattern) (body : Expr) (v : V) : Option V :=
  (bindValue L pat v).bind fun bs => L.eval body (bs ++ ρ)

/-- The elements of a source, entries as pairs; a range that ends before it starts is empty. -/
def sourceElems : IterSource → Option (List V)
  | .range start stop =>
      (L.eval start ρ).bind fun a => (L.eval stop ρ).map fun b =>
        (List.range (L.toNat b - L.toNat a)).map fun i => L.ofNat (L.toNat a + i)
  | .entries m => some ((L.entries m).map fun kv => L.tuple [kv.1, kv.2])
  | .memberValues m => some ((L.entries m).map Prod.snd)
  | .nestedSlot m outer =>
      (L.eval outer ρ).map fun k => (L.innerEntries m k).map fun kv => L.tuple [kv.1, kv.2]
  | .vec e => (L.eval e ρ).map L.elems

def stageOf : ChainStage → Stage V
  | .iter => .map some
  | .keys => .map fun v => (L.untuple v).bind (·[0]?)
  | .values => .map fun v => (L.untuple v).bind (·[1]?)
  | .enumerate => .number fun i v => some (L.tuple [L.ofNat i, v])
  | .filter pat body => .keep fun v => (applyClosure L ρ pat body v).map L.truth
  | .map pat body => .map (applyClosure L ρ pat body)
  | .take n => .take ((L.eval n ρ).map L.toNat)

/-- One round of a fold; the element's names stand before the accumulator's. -/
def foldStep (accPat varPat : Pattern) (body : Expr) (a v : V) : Option V :=
  (bindValue L varPat v).bind fun bs => (bindValue L accPat a).bind fun as =>
    L.eval body (bs ++ (as ++ ρ))

/-- **The meaning of a chain**: the stages one after another, then the terminator. -/
def chainMeaning (source : IterSource) (stages : List ChainStage) :
    ChainTerminator → Option (ChainValue V)
  | .collect =>
      (sourceElems L ρ source).bind fun es =>
        (staged (stages.map (stageOf L ρ)) es).map .array
  | .fold init accPat varPat body =>
      (sourceElems L ρ source).bind fun es =>
        (staged (stages.map (stageOf L ρ)) es).bind fun xs =>
          (L.eval init ρ).bind fun a => (xs.foldlM (foldStep L ρ accPat varPat body) a).map .value

end Spec

/-! ### Chains the loop is right about -/

/-- No `enumerate` after a `filter`, no second `take`. -/
def OrderlyStages : List ChainStage → Prop
  | [] => True
  | .filter _ _ :: ss => (∀ s ∈ ss, s ≠ .enumerate) ∧ OrderlyStages ss
  | .take _ :: ss => (∀ s ∈ ss, ∀ n, s ≠ .take n) ∧ OrderlyStages ss
  | .iter :: ss | .keys :: ss | .values :: ss | .enumerate :: ss | .map _ _ :: ss => OrderlyStages ss

/-- The stage does not read the accumulator's name from outside. -/
def Uncaptured (acc : Option String) : ChainStage → Prop
  | .filter pat body | .map pat body => ∀ x ∈ acc, OccursFree x body → x ∈ pat.names
  | .take n => ∀ x ∈ acc, ¬ OccursFree x n
  | .iter | .keys | .values | .enumerate => True

/-- A range does not end before it starts. -/
def RangeOrdered (L : Meaning V) (ρ : List (String × V)) : IterSource → Prop
  | .range start stop => ∀ a b, L.eval start ρ = some a → L.eval stop ρ = some b →
      L.toNat a ≤ L.toNat b
  | _ => True

/-- A nested slot has no entries, and `keys` is asked of nothing else. -/
def SlotEmpty (L : Meaning V) (ρ : List (String × V)) (stages : List ChainStage) : IterSource → Prop
  | .nestedSlot m outer => ∀ k, L.eval outer ρ = some k → L.innerEntries m k = []
  | _ => .keys ∉ stages

def ChainTerminator.acc : ChainTerminator → Option String
  | .collect => none
  | .fold _ accPat _ _ => (accumulatorName accPat).getD none

def ChainTerminator.AccFresh : ChainTerminator → Prop
  | .collect => True
  | .fold _ accPat varPat _ => ∀ x ∈ (accumulatorName accPat).getD none, x ∉ varPat.names

/-! ### Parameters -/

/-- The current element of the loop is the value `v`. -/
def IterElem.Denotes (L : Meaning V) (row : Row V) (i : Nat) (temps : List (Nat × V)) (v : V) :
    IterElem → Prop
  | .scalar rhs => rhs.eval L row i temps = some v
  | .tuple rs => ∃ vs, List.Forall₂ (fun rhs w => rhs.eval L row i temps = some w) rs vs ∧ v = L.tuple vs

section Parameters

variable {L : Meaning V} {row : Row V} {i : Nat} {temps : List (Nat × V)}

theorem bindDecls_names {decls : Decls} {bs : List (String × V)}
    (h : bindDecls L row i temps decls = some bs) : bs.map Prod.fst = decls.map Prod.fst := by
  induction decls generalizing bs with
  | nil =>
    cases h
    rfl
  | cons d decls ih =>
    obtain ⟨v, -, h⟩ := Option.bind_eq_some_iff.mp h
    obtain ⟨rest, hrest, rfl⟩ := Option.map_eq_some_iff.mp h
    rw [List.map_cons, List.map_cons, ih hrest]

theorem bindDecls_append {decls decls' : Decls} {bs bs' : List (String × V)}
    (h : bindDecls L row i temps decls = some bs) (h' : bindDecls L row i temps decls' = some bs') :
    bindDecls L row i temps (decls ++ decls') = some (bs ++ bs') := by
  induction decls generalizing bs with
  | nil =>
    cases h
    exact h'
  | cons d decls ih =>
    obtain ⟨v, hv, h⟩ := Option.bind_eq_some_iff.mp h
    obtain ⟨rest, hrest, rfl⟩ := Option.map_eq_some_iff.mp h
    simp only [List.cons_append, bindDecls, hv, ih hrest, Option.bind_some, Option.map_some]

theorem bindScalar_spec : ∀ (pat : Pattern) {rhs : Rhs} {decls : Decls}, bindScalar pat rhs = .ok decls →
    decls.map Prod.fst = pat.names ∧ ∀ {v : V}, rhs.eval L row i temps = some v →
      ∃ bs, bindDecls L row i temps decls = some bs ∧ bindValue L pat v = some bs
  | .ident x, rhs, decls, h => by
    cases h
    refine ⟨rfl, fun {v} hv => ⟨[(x, v)], ?_, rfl⟩⟩
    simp only [bindDecls, hv, Option.bind_some, Option.map_some]
  | .wildcard, rhs, decls, h => by
    cases h
    exact ⟨rfl, fun _ => ⟨[], rfl, rfl⟩⟩
  | .deref inner, rhs, decls, h => bindScalar_spec inner h
  | .tuple ps, rhs, decls, h => nomatch h
  | .some p, rhs, decls, h => nomatch h
  | .none, rhs, decls, h => nomatch h

theorem bindScalars_spec {ps : List Pattern} {rs : List Rhs} {decls : Decls}
    (hlen : ps.length = rs.length) (h : bindScalars ps rs = .ok decls) :
    decls.map Prod.fst = patternNames ps ∧ ∀ {vs : List V},
      List.Forall₂ (fun rhs w => rhs.eval L row i temps = some w) rs vs →
      ∃ bs, bindDecls L row i temps decls = some bs ∧ bindValues L ps vs = some bs := by
  induction ps generalizing rs decls with
  | nil =>
    rw [List.eq_nil_of_length_eq_zero hlen.symm] at h ⊢
    cases h
    refine ⟨rfl, fun {vs} hvs => ⟨[], rfl, ?_⟩⟩
    cases hvs
    rfl
  | cons p ps ih =>
    cases rs with
    | nil => cases hlen
    | cons r rs =>
      simp only [bindScalars] at h
      cases hfirst : bindScalar p r with
      | error m =>
        rw [hfirst] at h
        cases h
      | ok first =>
        cases hrest : bindScalars ps rs with
        | error m =>
          rw [hfirst, hrest] at h
          cases h
        | ok rest =>
          rw [hfirst, hrest] at h
          cases h
          obtain ⟨hnames, hbind⟩ := @bindScalar_spec V L row i temps p _ _ hfirst
          obtain ⟨hnames', hbind'⟩ := ih (Nat.succ.inj hlen) hrest
          refine ⟨by rw [List.map_append, hnames, hnames']; rfl, fun {vs} hvs => ?_⟩
          cases hvs with
          | cons hv hvs =>
            obtain ⟨bs, hbs, hval⟩ := hbind hv
            obtain ⟨bs', hbs', hval'⟩ := hbind' hvs
            refine ⟨bs ++ bs', bindDecls_append hbs hbs', ?_⟩
            simp only [bindValues, hval, hval', Option.bind_some, Option.map_some]

/-- **Binding in the loop is binding the value of the current element.** -/
theorem bindLoopPattern_spec : ∀ (pat : Pattern) {cur : IterElem} {decls : Decls},
    bindLoopPattern pat cur = .ok decls →
    decls.map Prod.fst = pat.names ∧ ∀ {v : V}, cur.Denotes L row i temps v →
      ∃ bs, bindDecls L row i temps decls = some bs ∧ bindValue L pat v = some bs
  | .deref inner, cur, decls, h => bindLoopPattern_spec inner (by simpa [bindLoopPattern] using h)
  | .tuple ps, .tuple rs, decls, h => by
    rw [bindLoopPattern] at h
    split at h
    · rename_i hlen
      obtain ⟨hnames, hbind⟩ := @bindScalars_spec V L row i temps ps rs _ hlen h
      refine ⟨hnames, ?_⟩
      rintro v ⟨vs, hvs, rfl⟩
      obtain ⟨bs, hbs, hval⟩ := hbind hvs
      refine ⟨bs, hbs, ?_⟩
      simp only [bindValue, L.untuple_tuple, Option.bind_some, hval]
    · cases h
  | .ident x, .scalar rhs, decls, h => bindScalar_spec (.ident x) h
  | .wildcard, .scalar rhs, decls, h => bindScalar_spec .wildcard h
  | .tuple ps, .scalar rhs, decls, h => nomatch h
  | .some p, .scalar rhs, decls, h => nomatch h
  | .none, .scalar rhs, decls, h => nomatch h
  | .ident x, .tuple rs, decls, h => nomatch h
  | .wildcard, .tuple rs, decls, h => nomatch h
  | .some p, .tuple rs, decls, h => nomatch h
  | .none, .tuple rs, decls, h => nomatch h

end Parameters

/-! ### Stages -/

theorem bind_ok {ε α β : Type} {x : Except ε α} {f : α → Except ε β} {b : β}
    (h : (x >>= f) = .ok b) : ∃ a, x = .ok a ∧ f a = .ok b := by
  cases x with
  | error m => cases h
  | ok a => exact ⟨a, rfl, h⟩

/-- What the accumulator's local changes for an expression that does not read its name
    from outside: nothing. -/
theorem eval_uncaptured (L : Meaning V) {acc : Option String} {e : Expr} {bs : List (String × V)}
    (h : ∀ x ∈ acc, OccursFree x e → x ∈ bs.map Prod.fst) (a : V) (ρ : List (String × V)) :
    L.eval e (bs ++ (accLocals acc a ++ ρ)) = L.eval e (bs ++ ρ) := by
  refine L.eval_congr _ _ _ fun x hx => ?_
  cases acc with
  | none => rfl
  | some y =>
    simp only [List.lookup_append]
    by_cases hxy : x = y
    · subst hxy
      obtain ⟨b, hb, hbx⟩ := List.mem_map.mp (h x rfl hx)
      have hsome : (bs.lookup x).isSome = true :=
        List.lookup_isSome_iff.mpr ⟨b, hb, beq_iff_eq.mpr hbx.symm⟩
      obtain ⟨w, hw⟩ := Option.isSome_iff_exists.mp hsome
      simp only [hw, Option.some_or]
    · have hne : (x == y) = false := beq_eq_false_iff_ne.mpr hxy
      have hnone : (accLocals (some y) a).lookup x = none := by
        simp only [accLocals, Option.toList_some, List.map_cons, List.map_nil, List.lookup_cons, hne,
          List.lookup_nil]
      simp only [hnone, Option.none_or]

/-- A closure in the loop does what it means on the value of the current element. -/
theorem closure_spec {L : Meaning V} {row : Row V} {i : Nat} {temps : List (Nat × V)}
    {pat : Pattern} {body : Expr} {cur : IterElem} {decls : Decls}
    (hdecls : bindLoopPattern pat cur = .ok decls) {v : V} (hv : cur.Denotes L row i temps v)
    {acc : Option String} (a : V) (ρ : List (String × V))
    (hacc : ∀ x ∈ acc, OccursFree x body → x ∈ pat.names) :
    ∃ bs, bindDecls L row i temps decls = some bs ∧
      L.eval body (bs ++ (accLocals acc a ++ ρ)) = applyClosure L ρ pat body v := by
  obtain ⟨hnames, hbind⟩ := bindLoopPattern_spec _ hdecls
  obtain ⟨bs, hbs, hval⟩ := hbind hv
  refine ⟨bs, hbs, ?_⟩
  rw [applyClosure, hval, Option.bind_some]
  refine eval_uncaptured L (fun x hx hfree => ?_) a ρ
  rw [bindDecls_names hbs, hnames]
  exact hacc x hx hfree

/-- How the end of the loop body answers the verdict of the pipeline. -/
def Answers (L : Meaning V) (row : Row V) (i : Nat) (cur : IterElem) : Verdict V → BodyEnd V → Prop
  | .emit x t, .fall temps t' => t' = t ∧ cur.Denotes L row i temps x
  | .skip t, .continue t' => t' = t
  | .stop, .break => True
  | _, _ => False

section Answering

variable {L : Meaning V} {row : Row V} {i t : Nat} {cur : IterElem} {x : V} {fin : BodyEnd V}

theorem Answers.of_emit (h : Answers L row i cur (.emit x t) fin) :
    ∃ temps, fin = .fall temps t ∧ cur.Denotes L row i temps x := by
  cases fin with
  | fall temps t' =>
    obtain ⟨rfl, hx⟩ := h
    exact ⟨temps, rfl, hx⟩
  | _ => cases h

theorem Answers.of_skip (h : Answers L row i cur (.skip t) fin) : fin = .continue t := by
  cases fin <;> cases h
  rfl

theorem Answers.of_stop (h : Answers L row i cur .stop fin) : fin = .break := by
  cases fin <;> cases h
  rfl

end Answering

/-- **One iteration of the body decides as the stages do.** -/
theorem runBody_answers (L : Meaning V) {ρ : List (String × V)} {acc : Option String} (a : V)
    {row : Row V} {i : Nat} {stages : List ChainStage} (hkeys : .keys ∉ stages)
    (hacc : ∀ s ∈ stages, Uncaptured acc s) {k : Nat} {cur cur' : IterElem} {ops : List BodyOp}
    (hlower : lowerStages k stages cur = .ok (ops, cur')) {temps : List (Nat × V)} {v : V}
    (hv : cur.Denotes L row i temps v) {t : Nat} {verdict : Verdict V}
    (hstep : step (stages.map (stageOf L ρ)) i t v = some verdict) :
    ∃ fin, runBody L (accLocals acc a ++ ρ) row i ops temps t = some fin ∧
      Answers L row i cur' verdict fin := by
  induction stages generalizing k cur ops temps v t with
  | nil =>
    cases hlower
    cases hstep
    exact ⟨_, rfl, rfl, hv⟩
  | cons s ss ih =>
    obtain ⟨hs, hss⟩ := List.forall_mem_cons.mp hacc
    have hkeys' : .keys ∉ ss := fun hmem => hkeys (List.mem_cons_of_mem _ hmem)
    cases s with
    | iter => exact ih hkeys' hss hlower hv hstep
    | keys => exact absurd List.mem_cons_self hkeys
    | values =>
      obtain ⟨e, w, cells, rfl⟩ : ∃ e w cells, cur = .tuple (e :: w :: cells) := by
        rcases cur with rhs | (_ | ⟨e, (_ | ⟨w, cells⟩)⟩)
        · cases hlower
        · cases hlower
        · cases hlower
        · exact ⟨e, w, cells, rfl⟩
      obtain ⟨vs, hvs, heq⟩ := hv
      cases hvs with
      | cons _ hvs =>
        cases hvs with
        | cons hw _ =>
          subst heq
          rw [List.map_cons, stageOf, step, L.untuple_tuple] at hstep
          exact ih hkeys' hss hlower hw hstep
    | enumerate =>
      obtain ⟨rhs, rfl⟩ : ∃ rhs, cur = .scalar rhs := by
        cases cur with
        | scalar rhs => exact ⟨rhs, rfl⟩
        | tuple _ => cases hlower
      obtain ⟨⟨ops', last⟩, hrest, heq⟩ := bind_ok hlower
      cases heq
      rw [List.map_cons, stageOf, step, Option.bind_some] at hstep
      have hpair : (IterElem.tuple [.index, .temp k]).Denotes L row i ((k, v) :: temps)
          (L.tuple [L.ofNat i, v]) := by
        refine ⟨[L.ofNat i, v], .cons rfl (.cons ?_ .nil), rfl⟩
        exact List.lookup_cons_self
      obtain ⟨fin, hfin, hanswers⟩ := ih hkeys' hss hrest hpair hstep
      exact ⟨fin, by rw [runBody, hv, Option.bind_some, hfin], hanswers⟩
    | filter pat body =>
      obtain ⟨decls, hdecls, hlower⟩ := bind_ok hlower
      obtain ⟨⟨ops', last⟩, hrest, heq⟩ := bind_ok hlower
      cases heq
      obtain ⟨bs, hbs, hclosure⟩ := closure_spec hdecls hv a ρ hs
      obtain ⟨b, hb, hstep⟩ := Option.bind_eq_some_iff.mp hstep
      obtain ⟨c, hc, rfl⟩ := Option.map_eq_some_iff.mp hb
      rw [← hclosure] at hc
      have hrun : runBody L (accLocals acc a ++ ρ) row i (.filter decls body :: ops') temps t =
          if L.truth c then runBody L (accLocals acc a ++ ρ) row i ops' temps t
          else some (.continue t) := by
        rw [runBody, hbs, Option.bind_some, hc, Option.bind_some]
      rw [hrun]
      by_cases htruth : L.truth c = true
      · rw [if_pos htruth] at hstep ⊢
        exact ih hkeys' hss hrest hv hstep
      · rw [if_neg htruth] at hstep ⊢
        cases hstep
        exact ⟨_, rfl, rfl⟩
    | map pat body =>
      obtain ⟨decls, hdecls, hlower⟩ := bind_ok hlower
      obtain ⟨⟨ops', last⟩, hrest, heq⟩ := bind_ok hlower
      cases heq
      obtain ⟨bs, hbs, hclosure⟩ := closure_spec hdecls hv a ρ hs
      obtain ⟨w, hw, hstep⟩ := Option.bind_eq_some_iff.mp hstep
      rw [← hclosure] at hw
      have htemp : (IterElem.scalar (.temp k)).Denotes L row i ((k, w) :: temps) w :=
        List.lookup_cons_self
      obtain ⟨fin, hfin, hanswers⟩ := ih hkeys' hss hrest htemp hstep
      exact ⟨fin, by rw [runBody, hbs, Option.bind_some, hw, Option.bind_some, hfin], hanswers⟩
    | take n =>
      obtain ⟨⟨ops', last⟩, hrest, heq⟩ := bind_ok hlower
      cases heq
      obtain ⟨m, hm, hstep⟩ := Option.bind_eq_some_iff.mp hstep
      obtain ⟨w, hw, rfl⟩ := Option.map_eq_some_iff.mp hm
      have hbound : L.eval n (accLocals acc a ++ ρ) = some w := by
        have huncaptured : L.eval n ([] ++ (accLocals acc a ++ ρ)) = L.eval n ([] ++ ρ) :=
          eval_uncaptured L (fun x hx hfree => absurd hfree (hs x hx)) a ρ
        exact huncaptured.trans hw
      have hrun : runBody L (accLocals acc a ++ ρ) row i (.take n :: ops') temps t =
          if L.toNat w ≤ t then some .break
          else runBody L (accLocals acc a ++ ρ) row i ops' temps (t + 1) := by
        rw [runBody, hbound, Option.bind_some]
      rw [hrun]
      by_cases hle : L.toNat w ≤ t
      · rw [if_pos hle] at hstep ⊢
        cases hstep
        exact ⟨_, rfl, trivial⟩
      · rw [if_neg hle] at hstep ⊢
        exact ih hkeys' hss hrest hv hstep

theorem uncaptured_none (s : ChainStage) : Uncaptured none s := by
  cases s with
  | filter | map | take => exact fun x hx => nomatch hx
  | iter | keys | values | enumerate => trivial

theorem bindValue_accumulator {L : Meaning V} {accPat : Pattern} {acc : Option String}
    (h : accumulatorName accPat = some acc) (a : V) : bindValue L accPat a = some (accLocals acc a) := by
  cases accPat with
  | ident x =>
    cases h
    rfl
  | wildcard =>
    cases h
    rfl
  | _ => cases h

/-! ### Loops -/

/-- The row is read as the value, whatever the index. -/
def Reads (L : Meaning V) (elem : IterElem) (row : Row V) (v : V) : Prop :=
  ∀ i temps, elem.Denotes L row i temps v

section Loops

variable {L : Meaning V} {ρ : List (String × V)} {stages : List ChainStage} {elem cur : IterElem}
  {ops : List BodyOp}

theorem collectLoop_eq (hlower : lowerStages 0 stages elem = .ok (ops, cur)) {rhs : Rhs}
    (hcur : cur = .scalar rhs) {rows : List (Row V)} {vs : List V}
    (hkeys : rows ≠ [] → .keys ∉ stages) (hrows : List.Forall₂ (Reads L elem) rows vs) {i t : Nat} {r : List V}
    (hr : fusedFrom (stages.map (stageOf L ρ)) i t vs = some r) {cells : List V} {pos : Nat}
    (hroom : pos + rows.length ≤ cells.length) :
    collectLoop L ρ ops rhs i t cells pos rows = some (cells.take pos ++ r) := by
  induction hrows generalizing i t r cells pos with
  | nil =>
    cases hr
    rw [collectLoop, List.append_nil]
  | @cons row v rows vs hrow _ ih =>
    rw [List.length_cons] at hroom
    have hkeys' : rows ≠ [] → .keys ∉ stages := fun _ => hkeys (List.cons_ne_nil _ _)
    rw [fusedFrom] at hr
    cases hstep : step (stages.map (stageOf L ρ)) i t v with
    | none =>
      rw [hstep] at hr
      cases hr
    | some verdict =>
      rw [hstep] at hr
      obtain ⟨fin, hfin, hanswers⟩ :=
        runBody_answers L v (hkeys (List.cons_ne_nil _ _)) (fun s _ => uncaptured_none s) hlower (hrow i []) hstep
      have hrun : runBody L ρ row i ops [] t = some fin := hfin
      rw [collectLoop, hrun]
      cases verdict with
      | emit x t' =>
        obtain ⟨temps, rfl, hx⟩ := hanswers.of_emit
        obtain ⟨rest, hrest, rfl⟩ := Option.map_eq_some_iff.mp hr
        rw [hcur] at hx
        have hpos : pos < cells.length := by omega
        have hwritten : (cells.set pos x).take (pos + 1) = cells.take pos ++ [x] := by
          rw [List.take_add_one, List.take_set_of_le (Nat.le_refl pos), List.getElem?_set_self hpos]
          rfl
        have hx' : rhs.eval L row i temps = some x := hx
        have hroom' : pos + 1 + rows.length ≤ (cells.set pos x).length := by
          rw [List.length_set]
          omega
        simp only [hx', Option.bind_some, if_pos hpos, ih hkeys' hrest hroom', hwritten, List.append_assoc,
          List.cons_append, List.nil_append]
      | skip t' =>
        obtain rfl := hanswers.of_skip
        exact ih hkeys' hr (by omega)
      | stop =>
        obtain rfl := hanswers.of_stop
        cases hr
        rw [List.append_nil]

theorem foldLoop_eq (hlower : lowerStages 0 stages elem = .ok (ops, cur)) {acc : Option String} (hacc : ∀ s ∈ stages, Uncaptured acc s) {accPat varPat : Pattern}
    (hname : accumulatorName accPat = some acc) {decls : Decls}
    (hdecls : bindLoopPattern varPat cur = .ok decls) (hfresh : ∀ x ∈ acc, x ∉ varPat.names)
    {update : Expr} {rows : List (Row V)} {vs : List V} (hkeys : rows ≠ [] → .keys ∉ stages)
    (hrows : List.Forall₂ (Reads L elem) rows vs) {i t : Nat} {r : List V} (hr : fusedFrom (stages.map (stageOf L ρ)) i t vs = some r) {a b : V}
    (hb : r.foldlM (foldStep L ρ accPat varPat update) a = some b) :
    foldLoop L ρ ops acc decls update i t a rows = some b := by
  induction hrows generalizing i t r a with
  | nil =>
    cases hr
    exact hb
  | @cons row v rows vs hrow _ ih =>
    have hkeys' : rows ≠ [] → .keys ∉ stages := fun _ => hkeys (List.cons_ne_nil _ _)
    rw [fusedFrom] at hr
    cases hstep : step (stages.map (stageOf L ρ)) i t v with
    | none =>
      rw [hstep] at hr
      cases hr
    | some verdict =>
      rw [hstep] at hr
      obtain ⟨fin, hrun, hanswers⟩ := runBody_answers L a (hkeys (List.cons_ne_nil _ _)) hacc hlower (hrow i []) hstep
      rw [foldLoop, hrun]
      cases verdict with
      | emit x t' =>
        obtain ⟨temps, rfl, hx⟩ := hanswers.of_emit
        obtain ⟨rest, hrest, rfl⟩ := Option.map_eq_some_iff.mp hr
        rw [List.foldlM_cons] at hb
        obtain ⟨a', ha', hb⟩ := Option.bind_eq_some_iff.mp hb
        obtain ⟨hnames, hbind⟩ := bindLoopPattern_spec _ hdecls
        obtain ⟨bs, hbs, hval⟩ := hbind hx
        have hupdate : L.eval update (bs ++ (accLocals acc a ++ ρ)) = some a' := by
          rw [foldStep, hval, Option.bind_some, bindValue_accumulator hname, Option.bind_some] at ha'
          exact ha'
        have hassigned : (acc.any fun x => (decls.map Prod.fst).contains x) = false := by
          rw [hnames]
          cases acc with
          | none => rfl
          | some y => simpa using hfresh y rfl
        simp only [hbs, hupdate, hassigned, Option.bind_some, Bool.false_eq_true, if_false]
        exact ih hkeys' hrest hb
      | skip t' =>
        obtain rfl := hanswers.of_skip
        exact ih hkeys' hr hb
      | stop =>
        obtain rfl := hanswers.of_stop
        cases hr
        exact hb

end Loops

/-! ### Sources -/

theorem forall₂_map {α β γ : Type} {R : β → γ → Prop} {f : α → β} {g : α → γ} (h : ∀ x, R (f x) (g x))
    (xs : List α) : List.Forall₂ R (xs.map f) (xs.map g) := by
  induction xs with
  | nil => exact .nil
  | cons x xs ih => exact .cons (h x) ih

/-- The loop reads the elements of the source one after another. -/
theorem sourceRows_spec {L : Meaning V} {ρ : List (String × V)} {source : IterSource} {vs : List V}
    {stages : List ChainStage} (hvs : sourceElems L ρ source = some vs)
    (hordered : RangeOrdered L ρ source) (hslot : SlotEmpty L ρ stages source) :
    ∃ rows, sourceRows L ρ source = some rows ∧ List.Forall₂ (Reads L source.elem) rows vs ∧
      (rows ≠ [] → .keys ∉ stages) := by
  cases source with
  | range start stop =>
    obtain ⟨a, ha, hvs⟩ := Option.bind_eq_some_iff.mp hvs
    obtain ⟨b, hb, rfl⟩ := Option.map_eq_some_iff.mp hvs
    have hle : ¬ L.toNat b < L.toNat a := Nat.not_lt.mpr (hordered a b ha hb)
    have hrows : sourceRows L ρ (.range start stop) =
        some ((List.range (L.toNat b - L.toNat a)).map fun i => .scalar (L.ofNat (L.toNat a + i))) := by
      rw [sourceRows, ha, Option.bind_some, hb, Option.bind_some, if_neg hle]
    exact ⟨_, hrows, forall₂_map (fun i j temps => rfl) _, fun _ => hslot⟩
  | entries m =>
    cases hvs
    refine ⟨_, rfl, forall₂_map (fun kv j temps => ?_) _, fun _ => hslot⟩
    exact ⟨[kv.1, kv.2], .cons rfl (.cons rfl .nil), rfl⟩
  | memberValues m =>
    cases hvs
    exact ⟨_, rfl, forall₂_map (fun kv j temps => rfl) _, fun _ => hslot⟩
  | nestedSlot m outer =>
    obtain ⟨k, hk, rfl⟩ := Option.map_eq_some_iff.mp hvs
    refine ⟨[], ?_, ?_, fun h => absurd rfl h⟩
    · rw [sourceRows, hk]
      rfl
    · rw [hslot k hk]
      exact .nil
  | vec e =>
    obtain ⟨v, hv, rfl⟩ := Option.map_eq_some_iff.mp hvs
    refine ⟨(L.elems v).map .scalar, ?_, ?_, fun _ => hslot⟩
    · rw [sourceRows, hv]
      rfl
    · have hrows := forall₂_map (R := Reads L (IterSource.vec e).elem) (f := Row.scalar) (g := id)
        (fun w j temps => rfl) (L.elems v)
      rwa [List.map_id] at hrows

/-- A range that ends before it starts reverts. -/
theorem sourceRows_unordered {L : Meaning V} {ρ : List (String × V)} {source : IterSource}
    (h : ¬ RangeOrdered L ρ source) : sourceRows L ρ source = none := by
  cases source with
  | range start stop =>
    simp only [RangeOrdered] at h
    push Not at h
    obtain ⟨a, b, ha, hb, hlt⟩ := h
    rw [sourceRows, ha, Option.bind_some, hb, Option.bind_some, if_pos hlt]
  | entries m => exact absurd trivial h
  | memberValues m => exact absurd trivial h
  | nestedSlot m outer => exact absurd trivial h
  | vec e => exact absurd trivial h

/-! ### Chains -/

theorem isNumber_stageOf {L : Meaning V} {ρ : List (String × V)} {s : ChainStage}
    (h : s ≠ .enumerate) : (stageOf L ρ s).isNumber = false := by
  cases s with
  | enumerate => exact absurd rfl h
  | _ => rfl

theorem isTake_stageOf {L : Meaning V} {ρ : List (String × V)} {s : ChainStage}
    (h : ∀ n, s ≠ .take n) : (stageOf L ρ s).isTake = false := by
  cases s with
  | take n => exact absurd rfl (h n)
  | _ => rfl

theorem orderly_map {L : Meaning V} {ρ : List (String × V)} {stages : List ChainStage}
    (h : OrderlyStages stages) : Orderly (stages.map (stageOf L ρ)) := by
  induction stages with
  | nil => trivial
  | cons s ss ih =>
    cases s with
    | filter pat body =>
      obtain ⟨hnumber, hss⟩ := h
      refine ⟨fun s hs => ?_, ih hss⟩
      obtain ⟨s', hs', rfl⟩ := List.mem_map.mp hs
      exact isNumber_stageOf (hnumber s' hs')
    | take n =>
      obtain ⟨htake, hss⟩ := h
      refine ⟨fun s hs => ?_, ih hss⟩
      obtain ⟨s', hs', rfl⟩ := List.mem_map.mp hs
      exact isTake_stageOf (htake s' hs')
    | iter | keys | values | enumerate | map => exact ih h

/-- What keeps the loop from going wrong, apart from the order of a range. -/
structure Fusible (L : Meaning V) (ρ : List (String × V)) (source : IterSource)
    (stages : List ChainStage) (term : ChainTerminator) : Prop where
  orderly : OrderlyStages stages
  uncaptured : ∀ s ∈ stages, Uncaptured term.acc s
  accFresh : term.AccFresh
  slotEmpty : SlotEmpty L ρ stages source

section Main

variable {L : Meaning V} {ρ : List (String × V)} {inferredMapping : Expr → Bool} {entity : Entity}

theorem source_of_lower {source : Expr} {stages : List ChainStage} {term : ChainTerminator}
    {loop : ChainLoop} (hlower : lowerIterChain inferredMapping entity source stages term = .ok loop) :
    loop.source = resolveIterSource entity source := by
  cases term with
  | collect =>
    obtain ⟨⟨ops, cur⟩, -, hlower⟩ := bind_ok hlower
    cases cur with
    | tuple rs => cases hlower
    | scalar rhs =>
      cases hlower
      rfl
  | fold init accPat varPat body =>
    rw [lowerIterChain] at hlower
    split at hlower
    · cases hlower
    · cases hname : accumulatorName accPat with
      | none =>
        rw [hname] at hlower
        cases hlower
      | some acc =>
        rw [hname] at hlower
        obtain ⟨⟨ops, cur⟩, -, hlower⟩ := bind_ok hlower
        obtain ⟨decls, -, hlower⟩ := bind_ok hlower
        cases hlower
        rfl

/-- A lowered chain on an ordered source. -/
theorem chain_run {source : Expr} {stages : List ChainStage} {term : ChainTerminator}
    {loop : ChainLoop} (hlower : lowerIterChain inferredMapping entity source stages term = .ok loop)
    (h : Fusible L ρ (resolveIterSource entity source) stages term)
    (hordered : RangeOrdered L ρ (resolveIterSource entity source)) {r : ChainValue V}
    (hr : chainMeaning L ρ (resolveIterSource entity source) stages term = some r) :
    loop.run L ρ = some r := by
  cases term with
  | collect =>
    obtain ⟨vs, hvs, hr⟩ := Option.bind_eq_some_iff.mp hr
    obtain ⟨xs, hxs, rfl⟩ := Option.map_eq_some_iff.mp hr
    obtain ⟨⟨ops, cur⟩, hops, hlower⟩ := bind_ok hlower
    obtain ⟨rows, hrows, hreads, hkeys⟩ := sourceRows_spec hvs hordered h.slotEmpty
    have hfused := fused_of_staged (orderly_map h.orderly) hxs
    cases cur with
    | tuple rs => cases hlower
    | scalar rhs =>
      cases hlower
      have hroom : 0 + rows.length ≤ (List.replicate rows.length (L.ofNat 0)).length := by
        rw [List.length_replicate, Nat.zero_add]
      rw [ChainLoop.run, hrows, Option.bind_some]
      change Option.map _ (collectLoop ..) = _
      rw [collectLoop_eq hops rfl hkeys hreads hfused hroom]
      rfl
  | fold init accPat varPat body =>
    obtain ⟨vs, hvs, hr⟩ := Option.bind_eq_some_iff.mp hr
    obtain ⟨xs, hxs, hr⟩ := Option.bind_eq_some_iff.mp hr
    obtain ⟨a, ha, hr⟩ := Option.bind_eq_some_iff.mp hr
    obtain ⟨b, hb, rfl⟩ := Option.map_eq_some_iff.mp hr
    obtain ⟨rows, hrows, hreads, hkeys⟩ := sourceRows_spec hvs hordered h.slotEmpty
    have hfused := fused_of_staged (orderly_map h.orderly) hxs
    rw [lowerIterChain] at hlower
    split at hlower
    · cases hlower
    · cases hname : accumulatorName accPat with
      | none =>
        rw [hname] at hlower
        cases hlower
      | some acc =>
        rw [hname] at hlower
        obtain ⟨⟨ops, cur⟩, hops, hlower⟩ := bind_ok hlower
        obtain ⟨decls, hdecls, hlower⟩ := bind_ok hlower
        cases hlower
        have huncaptured : ∀ s ∈ stages, Uncaptured acc s := by
          have hall := h.uncaptured
          rwa [ChainTerminator.acc, hname] at hall
        have hfresh : ∀ x ∈ acc, x ∉ varPat.names := by
          have hall := h.accFresh
          rwa [ChainTerminator.AccFresh, hname] at hall
        rw [ChainLoop.run, hrows, Option.bind_some]
        change ((L.eval init ρ).bind fun a => Option.map _ (foldLoop ..)) = _
        rw [ha, Option.bind_some, foldLoop_eq hops huncaptured hname hdecls hfresh hkeys hreads hfused hb]
        rfl

/-- A direct fold is the chain without stages. -/
theorem lowerIterChain_of_genFoldLoop {iter init : Expr} {accPat varPat : Pattern} {body : Expr}
    {loop : ChainLoop}
    (h : genFoldLoop inferredMapping entity iter init accPat varPat body = .ok loop) :
    lowerIterChain inferredMapping entity iter [] (.fold init accPat varPat body) = .ok loop := by
  rw [genFoldLoop] at h
  rw [lowerIterChain]
  split at h
  · cases h
  · rename_i hmap
    rw [if_neg hmap]
    cases hname : accumulatorName accPat with
    | none =>
      rw [hname] at h
      cases h
    | some acc =>
      rw [hname] at h
      exact h

theorem lower_of_iteration {e source : Expr} {stages : List ChainStage} {term : ChainTerminator}
    {loop : ChainLoop} (hparts : iterationParts e = some (source, stages, term))
    (hlower : lowerIteration inferredMapping entity e = some (.ok loop)) :
    lowerIterChain inferredMapping entity source stages term = .ok loop := by
  rw [iterationParts] at hparts
  rw [lowerIteration] at hlower
  cases hchain : parseIterChain e with
  | some parts =>
    rw [hchain] at hparts hlower
    cases hparts
    exact Option.some.inj hlower
  | none =>
    rw [hchain] at hparts hlower
    rw [Option.none_or] at hparts
    cases hfold : foldCall e with
    | none =>
      rw [hfold] at hparts
      cases hparts
    | some t =>
      rw [hfold] at hparts hlower
      obtain ⟨folded, base⟩ := t
      cases hparts
      cases folded with
      | collect => cases hlower
      | fold init accPat varPat body =>
        exact lowerIterChain_of_genFoldLoop (Option.some.inj hlower)

/-- **The loop computes what the iteration means, unless its range ends before it
    starts**, for iterations whose stages the loop can fuse. -/
theorem iteration_fused (L : Meaning V) (ρ : List (String × V)) (inferredMapping : Expr → Bool)
    (entity : Entity) {e source : Expr} {stages : List ChainStage} {term : ChainTerminator}
    {loop : ChainLoop} {r : ChainValue V} (hparts : iterationParts e = some (source, stages, term))
    (hlower : lowerIteration inferredMapping entity e = some (.ok loop))
    (h : Fusible L ρ (resolveIterSource entity source) stages term)
    (hr : chainMeaning L ρ (resolveIterSource entity source) stages term = some r) :
    loop.run L ρ = some r ↔ RangeOrdered L ρ (resolveIterSource entity source) := by
  have hchain := lower_of_iteration hparts hlower
  constructor
  · intro hrun
    by_contra hunordered
    have hsource : loop.source = resolveIterSource entity source := source_of_lower hchain
    rw [ChainLoop.run, hsource, sourceRows_unordered hunordered] at hrun
    cases hrun
  · exact fun hordered => chain_run hchain h hordered hr

end Main

/-! ### Chains the loop is wrong about -/

/-- Numbers and tuples of values. -/
inductive NumVal where
  | num (n : Nat)
  | list (vs : List NumVal)

def NumVal.toNat : NumVal → Nat
  | .num n => n
  | .list _ => 0

def NumVal.elems : NumVal → List NumVal
  | .num _ => []
  | .list vs => vs

def NumVal.untuple : NumVal → Option (List NumVal)
  | .num _ => none
  | .list vs => some vs

/-- Identifiers and their comparison. -/
def evalNum : Expr → List (String × NumVal) → Option NumVal
  | .ident x, ρ => ρ.lookup x
  | .binOp (.ident x) .gt (.ident y), ρ =>
      (ρ.lookup x).bind fun a => (ρ.lookup y).map fun b => .num (if b.toNat < a.toNat then 1 else 0)
  | _, _ => none

theorem occursFree_binOp {x : String} {l r : Expr} {op : BinOp} (h : .ident x = l ∨ .ident x = r) :
    OccursFree x (.binOp l op r) := by
  refine .head (b := .ident x) ⟨[], ?_, List.not_mem_nil⟩ .refl
  rcases h with rfl | rfl
  · exact List.mem_cons_self
  · exact List.mem_cons_of_mem _ List.mem_cons_self

theorem evalNum_congr (e : Expr) (ρ ρ' : List (String × NumVal))
    (h : ∀ x, OccursFree x e → ρ.lookup x = ρ'.lookup x) : evalNum e ρ = evalNum e ρ' := by
  cases e with
  | ident x => exact h x .refl
  | binOp l op r =>
    unfold evalNum
    split
    · rename_i heq
      cases heq
    · rename_i x y heq
      cases heq
      rw [h x (occursFree_binOp (Or.inl rfl)), h y (occursFree_binOp (Or.inr rfl))]
    · rfl
  | _ => rfl

def numMeaning : Meaning NumVal where
  eval := evalNum
  truth v := v.toNat != 0
  toNat := NumVal.toNat
  ofNat := .num
  elems := NumVal.elems
  tuple := .list
  untuple := NumVal.untuple
  entries _ := []
  innerEntries _ _ := []
  untuple_tuple _ := rfl
  eval_congr := evalNum_congr

/-- `xs = [3, 9]`, `one = 1`, `five = 5`. -/
def numLocals : List (String × NumVal) :=
  [("xs", .list [.num 3, .num 9]), ("one", .num 1), ("five", .num 5)]

def plainEntity : Entity where
  name := "E"
  records := []
  enums := []
  typeAliases := []
  constants := []
  macros := []
  routes := []
  members := []

/-- The stages on `xs`, collected. -/
def collected (stages : List (Expr → Expr)) (source : Expr) : Expr :=
  .methodCall (stages.foldl (fun e stage => stage e) source) "collect" []

def filterLarge (pat : Pattern) (e : Expr) : Expr :=
  .methodCall e "filter" [.closure [pat] (.binOp (.ident "x") .gt (.ident "five"))]

def enumerated (e : Expr) : Expr := .methodCall e "enumerate" []

def mapIndex (e : Expr) : Expr :=
  .methodCall e "map" [.closure [.tuple [.ident "i", .ident "x"]] (.ident "i")]

def takeOne (e : Expr) : Expr := .methodCall e "take" [.ident "one"]

/-- The iteration is accepted and means `r`, and the loop computes something else, or
    there is only a revert in its place. -/
def Misfuses (e : Expr) (r : ChainValue NumVal) : Prop :=
  ∃ source stages term, parseIterChain e = some (source, stages, term) ∧
    chainMeaning numMeaning numLocals (resolveIterSource plainEntity source) stages term = some r ∧
    ∀ loop, lowerIteration (fun _ => false) plainEntity e = some (.ok loop) →
      loop.run numMeaning numLocals ≠ some r

/-- `xs.filter(|x| x > five).enumerate().map(|(i, x)| i)`, `xs.take(one).take(one)`,
    `(five..one).iter()` and `xs.enumerate()`, all collected. -/
theorem chains_misfuse :
    Misfuses (collected [filterLarge (.ident "x"), enumerated, mapIndex] (.ident "xs"))
      (.array [.num 0]) ∧
    Misfuses (collected [takeOne, takeOne] (.ident "xs")) (.array [.num 3]) ∧
    Misfuses (collected [fun e => .methodCall e "iter" []] (.range (.ident "five") (.ident "one")))
      (.array []) ∧
    Misfuses (collected [enumerated] (.ident "xs"))
      (.array [.list [.num 0, .num 3], .list [.num 1, .num 9]]) := by
  refine ⟨⟨_, _, _, rfl, rfl, ?_⟩, ⟨_, _, _, rfl, rfl, ?_⟩, ⟨_, _, _, rfl, rfl, ?_⟩,
    ⟨_, _, _, rfl, rfl, ?_⟩⟩
  · intro loop hloop hrun
    cases hloop
    cases hrun
  · intro loop hloop hrun
    cases hloop
    cases hrun
  · intro loop hloop hrun
    cases hloop
    cases hrun
  · intro loop hloop
    cases hloop

/-- `xs.enumerate().filter(|(i, x)| x > five).map(|(i, x)| i).take(one).collect()`. -/
def orderlyChain : Expr :=
  collected [enumerated, filterLarge (.tuple [.ident "i", .ident "x"]), mapIndex, takeOne] (.ident "xs")

def orderlyStages : List ChainStage :=
  [.enumerate, .filter (.tuple [.ident "i", .ident "x"]) (.binOp (.ident "x") .gt (.ident "five")),
    .map (.tuple [.ident "i", .ident "x"]) (.ident "i"), .take (.ident "one")]

theorem fusible_orderlyStages :
    Fusible numMeaning numLocals (.vec (.ident "xs")) orderlyStages .collect where
  orderly := by
    refine ⟨?_, ?_, trivial⟩
    · intro s hs
      rcases List.mem_cons.mp hs with rfl | hs
      · exact fun heq => nomatch heq
      · rw [List.mem_singleton.mp hs]
        exact fun heq => nomatch heq
    · exact fun s hs => absurd hs List.not_mem_nil
  uncaptured s _ := uncaptured_none s
  accFresh := trivial
  slotEmpty := by
    intro hmem
    simp only [orderlyStages, List.mem_cons, List.not_mem_nil, or_false] at hmem
    rcases hmem with heq | heq | heq | heq
    · cases heq
    · cases heq
    · cases heq
    · cases heq

theorem iteration_fused_orderlyChain :
    ∃ loop, lowerIteration (fun _ => false) plainEntity orderlyChain = some (.ok loop) ∧
      (loop.run numMeaning numLocals = some (.array [.num 1]) ↔
        RangeOrdered numMeaning numLocals (.vec (.ident "xs"))) := by
  have hparts : iterationParts orderlyChain = some (.ident "xs", orderlyStages, .collect) := rfl
  exact ⟨_, rfl, iteration_fused numMeaning numLocals (fun _ => false) plainEntity hparts rfl
    fusible_orderlyStages rfl⟩

end CambrianLang.Solidity
