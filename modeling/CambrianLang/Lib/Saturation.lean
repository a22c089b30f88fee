/-
  **Marking a map in place until a pass changes nothing.**

  Some keys of a map are marked from the start, and a key is marked as soon as one of those
  its entry points to is.  A pass goes over the entries in whatever order the map gives them
  and uses the marks it has just set.  The marks are those of the keys that reach a key
  marked from the start, whatever the orders.

  A pass that changes something marks one key more, so there are no more passes than entries
  and one.
-/
import Mathlib.Data.List.AList

namespace CambrianLang.Saturation

open Relation

/-! ### Orders -/

/-- An order for a loop over a hash map. -/
structure Shuffle (α : Type) where
  apply : List α → List α
  perm : ∀ l, (apply l).Perm l

/-- The orders of the loops, one after the other. -/
abbrev Schedule (α : Type) : Type := Nat → Shuffle α

def Shuffle.id (α : Type) : Shuffle α := ⟨fun l => l, fun _ => .refl _⟩

theorem Shuffle.mem {α : Type} (s : Shuffle α) {l : List α} {a : α} : a ∈ s.apply l ↔ a ∈ l :=
  (s.perm l).mem_iff

/-! ### Maps from entries -/

section Collect

variable {κ ν : Type} [DecidableEq κ]

/-- The map with the given entries; a later entry replaces an earlier one of its key. -/
def collect (entries : List (κ × ν)) : AList fun _ : κ => ν :=
  entries.foldl (fun m e => m.insert e.1 e.2) ∅

theorem lookup_foldl_insert {entries : List (κ × ν)} (hnodup : (entries.map Prod.fst).Nodup)
    (m : AList fun _ : κ => ν) (k : κ) (v : ν) :
    (entries.foldl (fun m e => m.insert e.1 e.2) m).lookup k = some v ↔
      (k, v) ∈ entries ∨ k ∉ entries.map Prod.fst ∧ m.lookup k = some v := by
  induction entries generalizing m with
  | nil => simp
  | cons e entries ih =>
    obtain ⟨k', v'⟩ := e
    rw [List.map_cons, List.nodup_cons] at hnodup
    rw [List.foldl_cons, ih hnodup.2]
    by_cases heq : k = k'
    · subst heq
      have hno : ∀ w, (k, w) ∉ entries := fun w hw => hnodup.1 (List.mem_map.mpr ⟨(k, w), hw, rfl⟩)
      have hkey : k ∉ entries.map Prod.fst := hnodup.1
      simp only [AList.lookup_insert, Option.some.injEq, List.mem_cons, Prod.mk.injEq, true_and, hno,
        hkey, List.map_cons, not_true_eq_false, false_and, or_false, not_false_eq_true,
        false_or]
      exact eq_comm
    · simp only [AList.lookup_insert_ne heq, List.mem_cons, Prod.mk.injEq, heq, false_and, false_or,
        List.map_cons]

theorem lookup_collect {entries : List (κ × ν)} (hnodup : (entries.map Prod.fst).Nodup) {k : κ}
    {v : ν} : (collect entries).lookup k = some v ↔ (k, v) ∈ entries := by
  rw [collect, lookup_foldl_insert hnodup]
  simp

end Collect

/-! ### Passes -/

variable {κ φ : Type} [DecidableEq κ]

abbrev Entry (κ φ : Type) : Type := Sigma fun _ : κ => φ

abbrev Marks (κ : Type) : Type := AList fun _ : κ => Bool

/-- What is marked from the start. -/
def seed (start : φ → Bool) (entries : List (Entry κ φ)) : Marks κ :=
  entries.foldl (fun m e => m.insert e.1 (start e.2)) ∅

/-- One entry of a pass, with the flag that says whether something changed; a key without
    a mark is a panic. -/
def visit (next : κ → φ → List κ) (s : Marks κ × Bool) (e : Entry κ φ) : Option (Marks κ × Bool) :=
  match s.1.lookup e.1 with
  | none => none
  | some true => some s
  | some false =>
      if (next e.1 e.2).any fun k => (s.1.lookup k).getD false then
        some (s.1.insert e.1 true, true)
      else some s

def pass (next : κ → φ → List κ) (marks : Marks κ) (entries : List (Entry κ φ)) :
    Option (Marks κ × Bool) :=
  entries.foldlM (visit next) (marks, false)

/-- `while changed`. -/
def passes (next : κ → φ → List κ) (entries : List (Entry κ φ)) :
    Nat → Schedule (Entry κ φ) → Marks κ → Option (Marks κ)
  | 0, _, _ => none
  | fuel + 1, order, marks => do
      let (marks, changed) ← pass next marks ((order 0).apply entries)
      if changed then passes next entries fuel (fun i => order (i + 1)) marks else some marks

/-! ### What is reached -/

variable {facts : AList fun _ : κ => φ} {next : κ → φ → List κ} {start : φ → Bool}

/-- From a key to one that its entry points to. -/
def Edge (facts : AList fun _ : κ => φ) (next : κ → φ → List κ) (a b : κ) : Prop :=
  ∃ f, facts.lookup a = some f ∧ b ∈ next a f

def Starts (facts : AList fun _ : κ => φ) (start : φ → Bool) (a : κ) : Prop :=
  ∃ f, facts.lookup a = some f ∧ start f = true

/-- Some key marked from the start is reached. -/
def Reached (facts : AList fun _ : κ => φ) (next : κ → φ → List κ) (start : φ → Bool) (a : κ) :
    Prop :=
  ∃ b, ReflTransGen (Edge facts next) a b ∧ Starts facts start b

/-- The marks between two steps: the keys are those of the map, what is marked is reached,
    and what is marked from the start is marked. -/
structure Sound (facts : AList fun _ : κ => φ) (next : κ → φ → List κ) (start : φ → Bool)
    (marks : Marks κ) : Prop where
  keys : ∀ a, (marks.lookup a).isSome = true ↔ a ∈ facts
  reached : ∀ a, marks.lookup a = some true → Reached facts next start a
  started : ∀ a, Starts facts start a → marks.lookup a = some true

/-- The entry asks for no mark. -/
def Settled (next : κ → φ → List κ) (marks : Marks κ) (e : Entry κ φ) : Prop :=
  marks.lookup e.1 = some true ∨ ∀ k ∈ next e.1 e.2, marks.lookup k ≠ some true

theorem lookup_eq_of_mem {e : Entry κ φ} (he : e ∈ facts.entries) :
    facts.lookup e.1 = some e.2 := AList.mem_lookup_iff.mpr he

/-- The first marks, whatever the order they are set in. -/
theorem lookup_seed (s : Shuffle (Entry κ φ)) (a : κ) (v : Bool) :
    (seed start (s.apply facts.entries)).lookup a = some v ↔
      ∃ f, facts.lookup a = some f ∧ start f = v := by
  have hfold : seed start (s.apply facts.entries) =
      collect ((s.apply facts.entries).map fun e => (e.1, start e.2)) := by
    rw [seed, collect, List.foldl_map]
  have hnodup : (((s.apply facts.entries).map fun e => (e.1, start e.2)).map Prod.fst).Nodup := by
    rw [List.map_map]
    exact ((s.perm facts.entries).map Sigma.fst).nodup_iff.mpr facts.nodupKeys
  rw [hfold, lookup_collect hnodup, List.mem_map]
  constructor
  · rintro ⟨e, he, heq⟩
    cases heq
    exact ⟨e.2, lookup_eq_of_mem (s.mem.mp he), rfl⟩
  · rintro ⟨f, hf, rfl⟩
    exact ⟨⟨a, f⟩, s.mem.mpr (AList.mem_lookup_iff.mp hf), rfl⟩

theorem sound_seed (s : Shuffle (Entry κ φ)) :
    Sound facts next start (seed start (s.apply facts.entries)) := by
  refine ⟨?_, ?_, ?_⟩
  · intro a
    rw [← AList.lookup_isSome]
    constructor
    · intro hsome
      obtain ⟨v, hv⟩ := Option.isSome_iff_exists.mp hsome
      obtain ⟨f, hf, -⟩ := (lookup_seed s a v).mp hv
      rw [hf]
      rfl
    · intro hsome
      obtain ⟨f, hf⟩ := Option.isSome_iff_exists.mp hsome
      rw [(lookup_seed s a _).mpr ⟨f, hf, rfl⟩]
      rfl
  · intro a ha
    obtain ⟨f, hf, hstart⟩ := (lookup_seed s a true).mp ha
    exact ⟨a, .refl, f, hf, hstart⟩
  · rintro a ⟨f, hf, hstart⟩
    exact (lookup_seed s a true).mpr ⟨f, hf, hstart⟩

theorem lookup_mark (marks : Marks κ) (k a : κ) :
    (marks.insert k true).lookup a = if a = k then some true else marks.lookup a := by
  by_cases heq : a = k
  · rw [if_pos heq, heq, AList.lookup_insert]
  · rw [if_neg heq, AList.lookup_insert_ne heq]

/-- Marking a key one of whose nexts is marked. -/
theorem Sound.mark {marks : Marks κ} (h : Sound facts next start marks) {e : Entry κ φ}
    (he : e ∈ facts.entries) {k : κ} (hk : k ∈ next e.1 e.2) (hmark : marks.lookup k = some true) :
    Sound facts next start (marks.insert e.1 true) := by
  have hfact := lookup_eq_of_mem he
  refine ⟨?_, ?_, ?_⟩
  · intro a
    rw [lookup_mark]
    by_cases heq : a = e.1
    · rw [if_pos heq, heq, ← AList.lookup_isSome, hfact]
      exact ⟨fun _ => rfl, fun _ => rfl⟩
    · rw [if_neg heq]
      exact h.keys a
  · intro a ha
    rw [lookup_mark] at ha
    by_cases heq : a = e.1
    · obtain ⟨b, hpath, hb⟩ := h.reached k hmark
      exact ⟨b, .head ⟨e.2, heq ▸ hfact, heq ▸ hk⟩ hpath, hb⟩
    · rw [if_neg heq] at ha
      exact h.reached a ha
  · intro a ha
    rw [lookup_mark]
    split
    · rfl
    · exact h.started a ha

/-! ### Progress -/

def isUnmarked (marks : Marks κ) (e : Entry κ φ) : Bool := marks.lookup e.1 == some false

/-- How many entries have no mark yet. -/
def unmarked (facts : AList fun _ : κ => φ) (marks : Marks κ) : Nat :=
  facts.entries.countP (isUnmarked marks)

/-- What a pass comes to: it settled everything and changed nothing, or it marked more. -/
def Outcome (facts : AList fun _ : κ => φ) (next : κ → φ → List κ) (entries : List (Entry κ φ))
    (s t : Marks κ × Bool) : Prop :=
  (t = s ∧ ∀ e ∈ entries, Settled next s.1 e) ∨
    (t.2 = true ∧ unmarked facts t.1 < unmarked facts s.1)

theorem unmarked_insert_lt {marks : Marks κ} {e : Entry κ φ} (he : e ∈ facts.entries)
    (hfalse : marks.lookup e.1 = some false) :
    unmarked facts (marks.insert e.1 true) < unmarked facts marks := by
  obtain ⟨before, after, hsplit⟩ := List.append_of_mem he
  have hmono : ∀ l : List (Entry κ φ),
      l.countP (isUnmarked (marks.insert e.1 true)) ≤ l.countP (isUnmarked marks) := by
    intro l
    refine List.countP_mono_left fun d _ hd => ?_
    rw [isUnmarked] at hd ⊢
    rw [lookup_mark] at hd
    split at hd
    · cases hd
    · exact hd
  have hold : isUnmarked marks e = true := by rw [isUnmarked, hfalse, beq_self_eq_true]
  have hnew : isUnmarked (marks.insert e.1 true) e = false := by
    rw [isUnmarked, AList.lookup_insert]
    rfl
  have hbefore := hmono before
  have hafter := hmono after
  rw [unmarked, unmarked, hsplit, List.countP_append, List.countP_append,
    List.countP_cons_of_neg (by rw [hnew]; decide), List.countP_cons_of_pos hold]
  omega

theorem pass_spec (entries : List (Entry κ φ)) (hentries : ∀ e ∈ entries, e ∈ facts.entries)
    {s : Marks κ × Bool} (h : Sound facts next start s.1) :
    ∃ t, entries.foldlM (visit next) s = some t ∧ Sound facts next start t.1 ∧
      Outcome facts next entries s t := by
  induction entries generalizing s with
  | nil => exact ⟨s, rfl, h, Or.inl ⟨rfl, fun _ he => absurd he List.not_mem_nil⟩⟩
  | cons e entries ih =>
    obtain ⟨he, hrest⟩ := List.forall_mem_cons.mp hentries
    obtain ⟨v, hv⟩ := Option.isSome_iff_exists.mp ((h.keys e.1).mpr
      (AList.lookup_isSome.mp (by rw [lookup_eq_of_mem he]; rfl)))
    have hskip : visit next s e = some s → Settled next s.1 e →
        ∃ t, (e :: entries).foldlM (visit next) s = some t ∧ Sound facts next start t.1 ∧
          Outcome facts next (e :: entries) s t := by
      intro hvisit hsettled
      obtain ⟨t, ht, hsound, hout⟩ := ih hrest h
      refine ⟨t, by rw [List.foldlM_cons, hvisit]; exact ht, hsound, ?_⟩
      rcases hout with ⟨heq, hall⟩ | hmore
      · exact Or.inl ⟨heq, List.forall_mem_cons.mpr ⟨hsettled, hall⟩⟩
      · exact Or.inr hmore
    cases v with
    | true => exact hskip (by rw [visit, hv]) (Or.inl hv)
    | false =>
      by_cases hany : ((next e.1 e.2).any fun k => (s.1.lookup k).getD false) = true
      · have hvisit : visit next s e = some (s.1.insert e.1 true, true) := by
          rw [visit, hv]
          exact if_pos hany
        obtain ⟨k, hk, hmark⟩ := List.any_eq_true.mp hany
        have hmark : s.1.lookup k = some true := by
          cases hlook : s.1.lookup k with
          | none => simp [hlook] at hmark
          | some b => simpa [hlook] using hmark
        have hlt := unmarked_insert_lt he hv
        obtain ⟨t, ht, hsound, hout⟩ := ih (s := (s.1.insert e.1 true, true)) hrest
          (h.mark he hk hmark)
        refine ⟨t, by rw [List.foldlM_cons, hvisit]; exact ht, hsound, Or.inr ?_⟩
        rcases hout with ⟨rfl, -⟩ | ⟨hchanged, hmore⟩
        · exact ⟨rfl, hlt⟩
        · exact ⟨hchanged, Nat.lt_trans hmore hlt⟩
      · refine hskip (by rw [visit, hv]; exact if_neg hany) (Or.inr ?_)
        intro k hk hmark
        exact hany (List.any_eq_true.mpr ⟨k, hk, by rw [hmark]; rfl⟩)

/-! ### The run -/

/-- Marks that every entry agrees with are complete. -/
theorem Sound.exact {marks : Marks κ} (h : Sound facts next start marks)
    (hsettled : ∀ e ∈ facts.entries, Settled next marks e) (a : κ) :
    marks.lookup a = some true ↔ Reached facts next start a := by
  refine ⟨h.reached a, ?_⟩
  rintro ⟨b, hpath, hb⟩
  induction hpath using ReflTransGen.head_induction_on with
  | refl => exact h.started b hb
  | head hedge _ ih =>
    obtain ⟨f, hf, hnext⟩ := hedge
    rcases hsettled ⟨_, f⟩ (AList.mem_lookup_iff.mp hf) with hmarked | hnone
    · exact hmarked
    · exact absurd ih (hnone _ hnext)

theorem passes_exact (fuel : Nat) : ∀ (order : Schedule (Entry κ φ)) (marks : Marks κ),
    Sound facts next start marks → unmarked facts marks < fuel →
      ∃ final, passes next facts.entries fuel order marks = some final ∧
        Sound facts next start final ∧
        ∀ a, final.lookup a = some true ↔ Reached facts next start a := by
  induction fuel with
  | zero => exact fun _ _ _ hlt => absurd hlt (Nat.not_lt_zero _)
  | succ fuel ih =>
    intro order marks h hlt
    obtain ⟨⟨marks', changed⟩, hpass, hsound, hout⟩ := pass_spec
      ((order 0).apply facts.entries) (fun e he => (order 0).mem.mp he) (s := (marks, false)) h
    cases changed with
    | false =>
      rcases hout with ⟨heq, hsettled⟩ | ⟨hchanged, -⟩
      · have hsame : marks' = marks := congrArg Prod.fst heq
        refine ⟨marks', by rw [passes, pass, hpass]; rfl, hsound, hsound.exact fun e he => ?_⟩
        rw [hsame]
        exact hsettled e ((order 0).mem.mpr he)
      · cases hchanged
    | true =>
      rcases hout with ⟨heq, -⟩ | ⟨-, hmore⟩
      · cases heq
      · obtain ⟨final, hrun, hfinal⟩ := ih (fun i => order (i + 1)) marks' hsound
          (by simp only at hmore; omega)
        refine ⟨final, ?_, hfinal⟩
        rw [passes, pass, hpass]
        exact hrun

/-- **The marks are those of the keys that reach one marked from the start**, in whatever
    order the passes go over the map. -/
theorem saturate_exact (next : κ → φ → List κ) (start : φ → Bool) {fuel : Nat}
    (hfuel : facts.entries.length < fuel) (first : Shuffle (Entry κ φ))
    (order : Schedule (Entry κ φ)) :
    ∃ final, passes next facts.entries fuel order (seed start (first.apply facts.entries)) =
        some final ∧ (∀ a, (final.lookup a).isSome = true ↔ a ∈ facts) ∧
      ∀ a, final.lookup a = some true ↔ Reached facts next start a := by
  have hcount : unmarked facts (seed start (first.apply facts.entries)) ≤ facts.entries.length :=
    List.countP_le_length
  have hseed : Sound facts next start (seed start (first.apply facts.entries)) := sound_seed first
  obtain ⟨final, hrun, hsound, hexact⟩ := passes_exact fuel order _ hseed (by omega)
  exact ⟨final, hrun, hsound.keys, hexact⟩

end CambrianLang.Saturation
