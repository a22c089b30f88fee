/-
  **Kahn's topological sort** of finitely many nodes by their dependencies.

  The queue holds the nodes whose dependencies are all in the result.  What is
  proved: the loop ends with an empty queue, and when it has placed every node the
  result lists each node once, behind all of its dependencies, so that there is no
  cycle.  What it leaves over are the nodes from which a cycle is reached, and with a queue that
  is kept sorted the order in which the neighbours are listed makes no difference.
-/
import CambrianLang.Lib.Unfolding

namespace CambrianLang.TopoSort

set_option linter.unusedSectionVars false

open Relation

variable {α : Type} [DecidableEq α]

@[ext] structure State (α : Type) where
  inDegree : α → Nat
  queue : List α
  result : List α

section Algorithm

variable (sort : List α → List α) (nodes : List α) (deps : α → List α)

/-- The nodes that depend on `v`, each as often as it says so. -/
def adj (v : α) : List α := nodes.flatMap fun n => ((deps n).filter (· = v)).map fun _ => n

def initial : State α where
  inDegree := fun n => (deps n).countP (· ∈ nodes)
  queue := sort (nodes.filter fun n => (deps n).countP (· ∈ nodes) = 0)
  result := []

/-- One round of the loop over the neighbours. -/
def relax (s : State α) (next : α) : State α :=
  let deg := s.inDegree next - 1
  { s with
    inDegree := Function.update s.inDegree next deg
    queue := if deg = 0 then sort (s.queue ++ [next]) else s.queue }

/-- `while let Some(node) = queue.pop()`. -/
def run : Nat → State α → State α
  | 0, s => s
  | fuel + 1, s =>
      match s.queue.getLast? with
      | none => s
      | some v =>
          run fuel ((adj nodes deps v).foldl (relax sort)
            { s with queue := s.queue.dropLast, result := s.result ++ [v] })

/-- The sorted nodes, or those that are left over. -/
def topologicalSort : Except (List α) (List α) :=
  let s := run sort nodes deps nodes.length (initial sort nodes deps)
  if s.result.length = nodes.length then .ok s.result
  else .error (nodes.filter (· ∉ s.result))

end Algorithm

/-! ### Counting -/

variable {sort : List α → List α} {nodes : List α} {deps : α → List α}

/-- The dependencies of `n` that are not placed yet. -/
def waiting (nodes : List α) (deps : α → List α) (placed : List α) (n : α) : Nat :=
  (deps n).countP fun d => d ∈ nodes ∧ d ∉ placed

/-- In a list without duplicates each node contributes its own copies only. -/
theorem count_flatMap_replicate {xs : List α} (hnodup : xs.Nodup) (copies : α → Nat) (n : α) :
    (xs.flatMap fun m => List.replicate (copies m) m).count n = if n ∈ xs then copies n else 0 := by
  induction xs with
  | nil => rfl
  | cons m xs ih =>
    obtain ⟨hm, hxs⟩ := List.nodup_cons.mp hnodup
    rw [List.flatMap_cons, List.count_append, List.count_replicate, ih hxs]
    by_cases hnm : n = m
    · subst hnm
      simp [hm]
    · have hmn : ¬ m = n := fun h => hnm h.symm
      simp [hnm, hmn]

theorem adj_eq_replicate (v : α) :
    adj nodes deps v = nodes.flatMap fun m => List.replicate ((deps m).count v) m := by
  rw [adj]
  refine List.flatMap_congr fun m _ => ?_
  rw [List.map_const', List.count_eq_length_filter]
  refine congrArg (List.replicate · m) (congrArg List.length (List.filter_congr fun x _ => ?_))
  exact (Bool.beq_eq_decide_eq x v).symm

theorem count_adj (hnodup : nodes.Nodup) {n : α} (hn : n ∈ nodes) (v : α) :
    (adj nodes deps v).count n = (deps n).count v := by
  rw [adj_eq_replicate, count_flatMap_replicate hnodup, if_pos hn]

theorem mem_nodes_of_mem_adj {n v : α} (h : n ∈ adj nodes deps v) : n ∈ nodes := by
  obtain ⟨m, hm, hn⟩ := List.mem_flatMap.mp h
  obtain ⟨_, -, rfl⟩ := List.mem_map.mp hn
  exact hm

/-- Placing `v` serves every dependency on it. -/
theorem waiting_place {placed : List α} {v : α} (hv : v ∈ nodes) (hplaced : v ∉ placed) (n : α) :
    waiting nodes deps placed n = waiting nodes deps (placed ++ [v]) n + (deps n).count v := by
  unfold waiting
  induction deps n with
  | nil => rfl
  | cons d ds ih =>
    rw [List.countP_cons, List.countP_cons, List.count_cons, ih]
    by_cases hd : d = v
    · subst hd
      simp [hv, hplaced]
      omega
    · simp [hd]
      omega

/-! ### The invariant -/

/-- What holds between two rounds, `rest` being the neighbours still to relax. -/
structure Inv (nodes : List α) (deps : α → List α) (rest : List α) (s : State α) : Prop where
  nodup : (s.result ++ s.queue).Nodup
  sub : ∀ n ∈ s.result ++ s.queue, n ∈ nodes
  degree : ∀ n ∈ nodes, s.inDegree n = waiting nodes deps s.result n + rest.count n
  ready : ∀ n ∈ nodes, n ∈ s.result ++ s.queue ↔ s.inDegree n = 0

variable {rest : List α} {s : State α} {next v : α}

theorem inv_initial (hsort : ∀ l, (sort l).Perm l) (hnodup : nodes.Nodup) :
    Inv nodes deps [] (initial sort nodes deps) where
  nodup := by
    rw [initial, List.nil_append]
    exact (hsort _).nodup_iff.mpr (hnodup.filter _)
  sub := by
    intro n hn
    rw [initial, List.nil_append, (hsort _).mem_iff] at hn
    exact List.mem_of_mem_filter hn
  degree := by
    intro n _
    simp [initial, waiting]
  ready := by
    intro n hn
    rw [initial, List.nil_append, (hsort _).mem_iff, List.mem_filter]
    simp [hn]

theorem inv_relax (hsort : ∀ l, (sort l).Perm l) (h : Inv nodes deps (next :: rest) s)
    (hnext : next ∈ nodes) : Inv nodes deps rest (relax sort s next) := by
  have hdeg := h.degree next hnext
  rw [List.count_cons_self] at hdeg
  have hwaits : next ∉ s.result ++ s.queue := by
    intro hmem
    have hzero := (h.ready next hnext).mp hmem
    omega
  have hother : ∀ n, n ≠ next → (relax sort s next).inDegree n = s.inDegree n :=
    fun n hn => Function.update_of_ne hn ..
  have hself : (relax sort s next).inDegree next = s.inDegree next - 1 := Function.update_self ..
  have hmem : ∀ n, n ∈ s.result ++ (relax sort s next).queue ↔
      n ∈ s.result ++ s.queue ∨ (n = next ∧ s.inDegree next - 1 = 0) := by
    intro n
    rw [relax]
    by_cases hzero : s.inDegree next - 1 = 0
    · rw [if_pos hzero, List.mem_append, (hsort _).mem_iff, List.mem_append, List.mem_append,
        List.mem_singleton]
      tauto
    · rw [if_neg hzero]
      tauto
  refine ⟨?_, ?_, ?_, ?_⟩
  · change (s.result ++ (relax sort s next).queue).Nodup
    rw [relax]
    by_cases hzero : s.inDegree next - 1 = 0
    · rw [if_pos hzero]
      have hperm : (s.result ++ sort (s.queue ++ [next])).Perm (next :: (s.result ++ s.queue)) := by
        refine ((hsort _).append_left _).trans ?_
        rw [← List.append_assoc]
        exact List.perm_append_singleton _ _
      exact hperm.nodup_iff.mpr (List.nodup_cons.mpr ⟨hwaits, h.nodup⟩)
    · rw [if_neg hzero]
      exact h.nodup
  · intro n hn
    rcases (hmem n).mp hn with hold | ⟨rfl, -⟩
    · exact h.sub n hold
    · exact hnext
  · intro n hn
    change (relax sort s next).inDegree n = waiting nodes deps s.result n + rest.count n
    by_cases heq : n = next
    · subst heq
      rw [hself]
      omega
    · have hcount := h.degree n hn
      rw [List.count_cons_of_ne (fun heq' => heq heq'.symm)] at hcount
      rw [hother n heq, hcount]
  · intro n hn
    change n ∈ s.result ++ (relax sort s next).queue ↔ _
    rw [hmem n]
    by_cases heq : n = next
    · subst heq
      rw [hself]
      tauto
    · rw [hother n heq, h.ready n hn]
      tauto

theorem inv_foldl_relax (hsort : ∀ l, (sort l).Perm l) (hrest : ∀ n ∈ rest, n ∈ nodes)
    (h : Inv nodes deps rest s) :
    Inv nodes deps [] (rest.foldl (relax sort) s) ∧ (rest.foldl (relax sort) s).result = s.result := by
  induction rest generalizing s with
  | nil => exact ⟨h, rfl⟩
  | cons next rest ih =>
    obtain ⟨hnext, hrest⟩ := List.forall_mem_cons.mp hrest
    exact ih hrest (inv_relax hsort h hnext)

/-- Popping `v` starts the round over its neighbours. -/
theorem inv_pop (hnodup : nodes.Nodup) (h : Inv nodes deps [] s) (hv : s.queue.getLast? = some v) :
    Inv nodes deps (adj nodes deps v)
      { s with queue := s.queue.dropLast, result := s.result ++ [v] } := by
  have hqueue : s.queue = s.queue.dropLast ++ [v] := (List.dropLast_append_getLast? v hv).symm
  have hperm : (s.result ++ s.queue).Perm ((s.result ++ [v]) ++ s.queue.dropLast) := by
    rw [List.append_assoc]
    refine List.Perm.append_left _ ?_
    nth_rewrite 1 [hqueue]
    exact List.perm_append_comm
  have hvmem : v ∈ s.result ++ s.queue := by
    rw [hqueue]
    simp
  have hvnodes := h.sub v hvmem
  have hvnot : v ∉ s.result := by
    intro hmem
    refine (List.nodup_append.mp h.nodup).2.2 v hmem v ?_ rfl
    rw [hqueue]
    simp
  refine ⟨hperm.nodup_iff.mp h.nodup, fun n hn => h.sub n (hperm.mem_iff.mpr hn), ?_, ?_⟩
  · intro n hn
    have hdeg := h.degree n hn
    rw [List.count_nil, Nat.add_zero, waiting_place hvnodes hvnot] at hdeg
    rw [count_adj hnodup hn]
    exact hdeg
  · intro n hn
    rw [← h.ready n hn]
    exact hperm.mem_iff.symm

/-! ### The result -/

/-- Every node stands behind its dependencies. -/
inductive Ranked (nodes : List α) (deps : α → List α) : List α → Prop
  | nil : Ranked nodes deps []
  | snoc {placed : List α} {v : α} (h : Ranked nodes deps placed)
      (hv : ∀ d ∈ deps v, d ∈ nodes → d ∈ placed) : Ranked nodes deps (placed ++ [v])

/-- A node in the queue waits for nothing. -/
theorem deps_placed (h : Inv nodes deps [] s) (hv : v ∈ s.queue) :
    ∀ d ∈ deps v, d ∈ nodes → d ∈ s.result := by
  have hmem : v ∈ s.result ++ s.queue := List.mem_append_right _ hv
  have hzero := (h.ready v (h.sub v hmem)).mp hmem
  rw [h.degree v (h.sub v hmem), List.count_nil, Nat.add_zero, waiting, List.countP_eq_zero] at hzero
  intro d hd hdn
  by_contra hnot
  exact hzero d hd (decide_eq_true ⟨hdn, hnot⟩)

theorem run_spec (hsort : ∀ l, (sort l).Perm l) (hnodup : nodes.Nodup) (fuel : Nat) :
    ∀ s : State α, Inv nodes deps [] s → Ranked nodes deps s.result →
      nodes.length ≤ s.result.length + fuel →
      Inv nodes deps [] (run sort nodes deps fuel s) ∧
      Ranked nodes deps (run sort nodes deps fuel s).result ∧
      (run sort nodes deps fuel s).queue = [] := by
  induction fuel with
  | zero =>
    intro s hinv hranked hlen
    refine ⟨hinv, hranked, ?_⟩
    -- no more than the nodes fit into the result and the queue
    have hle := (List.subperm_of_subset hinv.nodup hinv.sub).length_le
    rw [List.length_append] at hle
    exact List.length_eq_zero_iff.mp (by change s.queue.length = 0; omega)
  | succ fuel ih =>
    intro s hinv hranked hlen
    rw [run]
    cases hlast : s.queue.getLast? with
    | none => exact ⟨hinv, hranked, List.getLast?_eq_none_iff.mp hlast⟩
    | some v =>
      have hv : v ∈ s.queue := List.mem_of_getLast? hlast
      obtain ⟨hinv', hres⟩ := inv_foldl_relax hsort (fun n hn => mem_nodes_of_mem_adj hn)
        (inv_pop hnodup hinv hlast)
      refine ih _ hinv' ?_ ?_
      · rw [hres]
        exact hranked.snoc (deps_placed hinv hv)
      · rw [hres, List.length_append, List.length_singleton]
        omega

/-- **A successful sort** lists the nodes, each behind its dependencies. -/
theorem topologicalSort_ok (hsort : ∀ l, (sort l).Perm l) (hnodup : nodes.Nodup) {order : List α}
    (h : topologicalSort sort nodes deps = .ok order) :
    order.Perm nodes ∧ Ranked nodes deps order := by
  obtain ⟨hinv, hranked, -⟩ := run_spec hsort hnodup nodes.length (initial sort nodes deps)
    (inv_initial hsort hnodup) .nil (Nat.le_add_left _ _)
  rw [topologicalSort] at h
  by_cases hlen : (run sort nodes deps nodes.length (initial sort nodes deps)).result.length =
      nodes.length
  · rw [if_pos hlen] at h
    cases h
    have hsub := List.subperm_of_subset (List.nodup_append.mp hinv.nodup).1
      fun n hn => hinv.sub n (List.mem_append_left _ hn)
    exact ⟨hsub.perm_of_length_le (Nat.le_of_eq hlen.symm), hranked⟩
  · rw [if_neg hlen] at h
    cases h

theorem Ranked.idxOf_lt {order : List α} (h : Ranked nodes deps order) (hnodup : order.Nodup) {n d : α}
    (hn : n ∈ order) (hd : d ∈ deps n) (hdn : d ∈ nodes) : order.idxOf d < order.idxOf n := by
  induction h with
  | nil => exact absurd hn List.not_mem_nil
  | @snoc placed v h hv ih =>
    obtain ⟨hplaced, -, hdisj⟩ := List.nodup_append.mp hnodup
    by_cases hmem : n ∈ placed
    · have hlt := ih hplaced hmem
      have hdmem : d ∈ placed := List.idxOf_lt_length_iff.mp (hlt.trans (List.idxOf_lt_length_iff.mpr hmem))
      rwa [List.idxOf_append_of_mem hmem, List.idxOf_append_of_mem hdmem]
    · rcases List.mem_append.mp hn with hold | hnew
      · exact absurd hold hmem
      · rw [List.mem_singleton.mp hnew] at hd hmem ⊢
        have hdmem := hv d hd hdn
        rw [List.idxOf_append_of_mem hdmem, List.idxOf_append_of_notMem hmem]
        have hlt := List.idxOf_lt_length_iff.mpr hdmem
        omega

theorem Ranked.before {order : List α} (h : Ranked nodes deps order) {pre post : List α} {n d : α}
    (hsplit : order = pre ++ n :: post) (hd : d ∈ deps n) (hdn : d ∈ nodes) : d ∈ pre := by
  induction h generalizing post with
  | nil =>
    cases pre with
    | nil => cases hsplit
    | cons => cases hsplit
  | @snoc placed v h hv ih =>
    rcases List.eq_nil_or_concat post with rfl | ⟨rest, w, rfl⟩
    · obtain ⟨rfl, hvn⟩ := List.append_inj' hsplit rfl
      cases hvn
      exact hv d hd hdn
    · rw [List.concat_eq_append, ← List.cons_append, ← List.append_assoc] at hsplit
      exact ih (List.append_inj' hsplit rfl).1

/-- **Sorted nodes have no cycle.** -/
theorem acyclic_of_topologicalSort (hsort : ∀ l, (sort l).Perm l) (hnodup : nodes.Nodup)
    {order : List α} (h : topologicalSort sort nodes deps = .ok order) {r : α → α → Prop}
    (hr : ∀ a b, r a b → a ∈ nodes ∧ b ∈ deps a) (v : α) : ¬ TransGen r v v := by
  obtain ⟨hperm, hranked⟩ := topologicalSort_ok hsort hnodup h
  have hdown : ∀ a b, TransGen r a b → b ∈ nodes → order.idxOf b < order.idxOf a := by
    intro a b hab
    induction hab with
    | single hab =>
      obtain ⟨ha, hb⟩ := hr _ _ hab
      exact fun hbn => hranked.idxOf_lt (hperm.nodup_iff.mpr hnodup) (hperm.mem_iff.mpr ha) hb hbn
    | tail _ hbc ih =>
      obtain ⟨hb, hc⟩ := hr _ _ hbc
      intro hcn
      exact (hranked.idxOf_lt (hperm.nodup_iff.mpr hnodup) (hperm.mem_iff.mpr hb) hc hcn).trans (ih hb)
  intro hcyc
  have hv : v ∈ nodes := by
    obtain ⟨_, hstep, -⟩ := TransGen.head'_iff.mp hcyc
    exact (hr _ _ hstep).1
  exact absurd (hdown v v hcyc hv) (Nat.lt_irrefl _)

/-! ### What is placed, and what is left over -/

/-- A listed node depends on a listed node. -/
def Depends (nodes : List α) (deps : α → List α) (a b : α) : Prop :=
  a ∈ nodes ∧ b ∈ nodes ∧ b ∈ deps a

theorem Ranked.closed {order : List α} (h : Ranked nodes deps order) {a b : α} (ha : a ∈ order)
    (hab : Depends nodes deps a b) : b ∈ order := by
  obtain ⟨pre, post, rfl⟩ := List.append_of_mem ha
  exact List.mem_append_left _ (h.before rfl hab.2.2 hab.2.1)

/-- The loop places the nodes from which no cycle is reached. -/
theorem mem_run_iff (hsort : ∀ l, (sort l).Perm l) (hnodup : nodes.Nodup) {n : α} (hn : n ∈ nodes) :
    n ∈ (run sort nodes deps nodes.length (initial sort nodes deps)).result ↔
      ∀ c, ReflTransGen (Depends nodes deps) n c → ¬ TransGen (Depends nodes deps) c c := by
  obtain ⟨hinv, hranked, hqueue⟩ := run_spec hsort hnodup nodes.length (initial sort nodes deps)
    (inv_initial hsort hnodup) .nil (Nat.le_add_left _ _)
  set s := run sort nodes deps nodes.length (initial sort nodes deps)
  constructor
  · intro hmem c hnc
    have hc : c ∈ s.result := by
      induction hnc with
      | refl => exact hmem
      | tail _ hbc ih => exact hranked.closed ih hbc
    have hdown : ∀ b, TransGen (Depends nodes deps) c b →
        b ∈ s.result ∧ s.result.idxOf b < s.result.idxOf c := by
      intro b hcb
      have hlt := fun {a d : α} ha (had : Depends nodes deps a d) =>
        hranked.idxOf_lt (List.nodup_append.mp hinv.nodup).1 ha had.2.2 had.2.1
      induction hcb with
      | single hcb => exact ⟨hranked.closed hc hcb, hlt hc hcb⟩
      | tail _ hbd ih => exact ⟨hranked.closed ih.1 hbd, (hlt ih.1 hbd).trans ih.2⟩
    exact fun hcyc => absurd (hdown c hcyc).2 (Nat.lt_irrefl _)
  · intro hacyclic
    by_contra hnot
    -- of what is left and reached from the node, a last one waits for another one
    let Left := {m | m ∈ nodes ∧ m ∉ s.result ∧ ReflTransGen (Depends nodes deps) n m}
    let waits (a b : Left) := TransGen (Depends nodes deps) b a
    have hfinite : Finite Left := (nodes.finite_toSet.subset fun _ h => h.1).to_subtype
    have htrans : IsTrans Left waits := ⟨fun _ _ _ hab hbc => hbc.trans hab⟩
    have hirrefl : Std.Irrefl waits := ⟨fun m => hacyclic m m.2.2.2⟩
    obtain ⟨⟨m, hmn, hmres, hnm⟩, -, hlast⟩ := (Finite.wellFounded_of_trans_of_irrefl waits).has_min
      Set.univ ⟨⟨n, hn, hnot, .refl⟩, trivial⟩
    have hdeg : s.inDegree m ≠ 0 := fun hzero => by
      have hmem := (hinv.ready m hmn).mpr hzero
      rw [hqueue, List.append_nil] at hmem
      exact hmres hmem
    rw [hinv.degree m hmn, List.count_nil, Nat.add_zero, waiting] at hdeg
    obtain ⟨d, hd, hwait⟩ := List.countP_pos_iff.mp (Nat.pos_of_ne_zero hdeg)
    obtain ⟨hdn, hdres⟩ := of_decide_eq_true hwait
    have hmd : Depends nodes deps m d := ⟨hmn, hdn, hd⟩
    exact hlast ⟨d, hdn, hdres, hnm.tail hmd⟩ trivial (.single hmd)

/-- **The sort succeeds exactly on the graphs without cycles.** -/
theorem topologicalSort_isOk_iff (hsort : ∀ l, (sort l).Perm l) (hnodup : nodes.Nodup) :
    (∃ order, topologicalSort sort nodes deps = .ok order) ↔
      ∀ v, ¬ TransGen (Depends nodes deps) v v := by
  constructor
  · rintro ⟨order, horder⟩
    exact acyclic_of_topologicalSort hsort hnodup horder fun a b h => ⟨h.1, h.2.2⟩
  · intro hacyclic
    obtain ⟨hinv, -, -⟩ := run_spec hsort hnodup nodes.length (initial sort nodes deps)
      (inv_initial hsort hnodup) .nil (Nat.le_add_left _ _)
    have hsub := (List.subperm_of_subset hnodup fun n hn =>
      (mem_run_iff hsort hnodup hn).mpr fun c _ => hacyclic c).length_le
    have hsup := (List.subperm_of_subset (List.nodup_append.mp hinv.nodup).1
      fun n hn => hinv.sub n (List.mem_append_left _ hn)).length_le
    exact ⟨_, if_pos (Nat.le_antisymm hsup hsub)⟩

/-- **What is left over** are the nodes from which a cycle is reached. -/
theorem mem_left_iff (hsort : ∀ l, (sort l).Perm l) (hnodup : nodes.Nodup) {n : α} :
    (∃ left, topologicalSort sort nodes deps = .error left ∧ n ∈ left) ↔
      ∃ c, ReflTransGen (Depends nodes deps) n c ∧ TransGen (Depends nodes deps) c c := by
  obtain ⟨hinv, -, -⟩ := run_spec hsort hnodup nodes.length (initial sort nodes deps)
    (inv_initial hsort hnodup) .nil (Nat.le_add_left _ _)
  have hplaced := @mem_run_iff _ _ sort nodes deps hsort hnodup n
  rw [topologicalSort]
  set s := run sort nodes deps nodes.length (initial sort nodes deps)
  constructor
  · rintro ⟨left, hleft, hn⟩
    split at hleft
    · cases hleft
    · cases hleft
      obtain ⟨hnodes, hres⟩ := List.mem_filter.mp hn
      by_contra hnone
      exact of_decide_eq_true hres
        ((hplaced hnodes).mpr fun c hc hcyc => hnone ⟨c, hc, hcyc⟩)
  · rintro ⟨c, hnc, hcyc⟩
    have hnodes : n ∈ nodes := by
      obtain ⟨_, hstep, -⟩ := TransGen.head'_iff.mp (TransGen.trans_right hnc hcyc)
      exact hstep.1
    have hres : n ∉ s.result := fun h => (hplaced hnodes).mp h c hnc hcyc
    refine ⟨_, if_neg fun hlen => hres ?_, List.mem_filter.mpr ⟨hnodes, decide_eq_true hres⟩⟩
    have hsub := List.subperm_of_subset (List.nodup_append.mp hinv.nodup).1
      fun n hn => hinv.sub n (List.mem_append_left _ hn)
    exact (hsub.perm_of_length_le hlen.ge).mem_iff.mpr hnodes

/-! ### Dependencies that are not listed -/

/-- The dependencies that are nodes. -/
def listed (nodes : List α) (deps : α → List α) (n : α) : List α := (deps n).filter (· ∈ nodes)

theorem adj_listed (hv : v ∈ nodes) : adj nodes (listed nodes deps) v = adj nodes deps v := by
  rw [adj, adj]
  refine List.flatMap_congr fun n _ => congrArg _ ?_
  rw [listed, List.filter_filter]
  refine List.filter_congr fun d _ => ?_
  by_cases hd : d = v
  · simp [hd, hv]
  · simp [hd]

theorem run_listed (hsort : ∀ l, (sort l).Perm l) (hnodup : nodes.Nodup) (fuel : Nat) :
    ∀ s : State α, Inv nodes deps [] s →
      run sort nodes (listed nodes deps) fuel s = run sort nodes deps fuel s := by
  induction fuel with
  | zero => exact fun s _ => rfl
  | succ fuel ih =>
    intro s hinv
    rw [run, run]
    cases hlast : s.queue.getLast? with
    | none => rfl
    | some v =>
      have hv : v ∈ nodes := hinv.sub v (List.mem_append_right _ (List.mem_of_getLast? hlast))
      have hnext := inv_foldl_relax hsort (fun n hn => mem_nodes_of_mem_adj hn)
        (inv_pop hnodup hinv hlast)
      change run sort nodes _ fuel _ = run sort nodes deps fuel _
      rw [adj_listed hv]
      exact ih _ hnext.1

/-- What is not listed does not matter. -/
theorem topologicalSort_listed (hsort : ∀ l, (sort l).Perm l) (hnodup : nodes.Nodup) :
    topologicalSort sort nodes (listed nodes deps) = topologicalSort sort nodes deps := by
  have hstart : initial sort nodes (listed nodes deps) = initial sort nodes deps := by
    have hcount : ∀ n, (listed nodes deps n).countP (· ∈ nodes) = (deps n).countP (· ∈ nodes) := by
      intro n
      rw [listed, List.countP_filter]
      exact List.countP_congr fun d _ => by simp
    rw [initial, initial]
    simp only [hcount]
  rw [topologicalSort, topologicalSort, hstart,
    run_listed hsort hnodup nodes.length _ (inv_initial hsort hnodup)]

/-! ### The order of the neighbours -/

/-- The loop over any lists of neighbours. -/
def runOver (sort : List α → List α) (neighbours : α → List α) : Nat → State α → State α
  | 0, s => s
  | fuel + 1, s =>
      match s.queue.getLast? with
      | none => s
      | some v =>
          runOver sort neighbours fuel ((neighbours v).foldl (relax sort)
            { s with queue := s.queue.dropLast, result := s.result ++ [v] })

theorem run_eq_runOver (fuel : Nat) :
    ∀ s : State α, run sort nodes deps fuel s = runOver sort (adj nodes deps) fuel s := by
  induction fuel with
  | zero => exact fun s => rfl
  | succ fuel ih =>
    intro s
    rw [run, runOver]
    cases s.queue.getLast? with
    | none => rfl
    | some v => exact ih _

theorem runOver_of_done {neighbours : α → List α} (h : s.queue = []) (fuel : Nat) :
    runOver sort neighbours fuel s = s := by
  cases fuel with
  | zero => rfl
  | succ fuel => rw [runOver, h]; rfl

theorem runOver_add (neighbours : α → List α) (more fuel : Nat) :
    ∀ s : State α, runOver sort neighbours (fuel + more) s =
      runOver sort neighbours more (runOver sort neighbours fuel s) := by
  induction fuel with
  | zero => exact fun s => by rw [Nat.zero_add]; rfl
  | succ fuel ih =>
    intro s
    rw [Nat.succ_add, runOver, runOver]
    cases hlast : s.queue.getLast? with
    | none => exact (runOver_of_done (List.getLast?_eq_none_iff.mp hlast) more).symm
    | some v => exact ih _

/-- Sorting loses the order that was there before. -/
def Canonical (sort : List α → List α) : Prop := ∀ l l', l.Perm l' → sort l = sort l'

/-- Neighbours can be relaxed in either order. -/
theorem relax_comm (hsort : ∀ l, (sort l).Perm l) (hcanon : Canonical sort) (s : State α) (a b : α) :
    relax sort (relax sort s a) b = relax sort (relax sort s b) a := by
  by_cases hab : a = b
  · rw [hab]
  have hba : ¬ b = a := fun h => hab h.symm
  have hswap : sort (sort (s.queue ++ [a]) ++ [b]) = sort (sort (s.queue ++ [b]) ++ [a]) := by
    apply hcanon
    have hleft : (sort (s.queue ++ [a]) ++ [b]).Perm (s.queue ++ [a] ++ [b]) := (hsort _).append_right _
    have hright : (sort (s.queue ++ [b]) ++ [a]).Perm (s.queue ++ [b] ++ [a]) := (hsort _).append_right _
    refine hleft.trans (.trans ?_ hright.symm)
    rw [List.append_assoc, List.append_assoc]
    exact List.Perm.append_left _ (List.Perm.swap _ _ _)
  apply State.ext
  · simp only [relax, Function.update_of_ne hba, Function.update_of_ne hab]
    exact Function.update_comm hab ..
  · simp only [relax, Function.update_of_ne hba, Function.update_of_ne hab]
    by_cases hza : s.inDegree a - 1 = 0
    · by_cases hzb : s.inDegree b - 1 = 0
      · simpa only [if_pos hza, if_pos hzb] using hswap
      · simp only [if_pos hza, if_neg hzb]
    · by_cases hzb : s.inDegree b - 1 = 0
      · simp only [if_neg hza, if_pos hzb]
      · simp only [if_neg hza, if_neg hzb]
  · rfl

/-- **Two runs with the same neighbours in any order** are the same. -/
theorem runOver_congr (hsort : ∀ l, (sort l).Perm l) (hcanon : Canonical sort)
    {neighbours neighbours' : α → List α} (h : ∀ v, (neighbours v).Perm (neighbours' v)) (fuel : Nat) :
    ∀ s : State α, runOver sort neighbours fuel s = runOver sort neighbours' fuel s := by
  have hcomm : RightCommutative (relax sort) := ⟨relax_comm hsort hcanon⟩
  induction fuel with
  | zero => exact fun s => rfl
  | succ fuel ih =>
    intro s
    rw [runOver, runOver]
    cases s.queue.getLast? with
    | none => rfl
    | some v =>
      change runOver sort neighbours fuel _ = runOver sort neighbours' fuel _
      rw [(h v).foldl_eq, ih]

end CambrianLang.TopoSort
