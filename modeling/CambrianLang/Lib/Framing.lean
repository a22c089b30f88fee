/-
  **Readers that know where they stop.**

  A reader takes a buffer and an offset and gives a value and the offset behind it.  It
  `Reads` a block when it returns the same value from that block wherever the block stands
  in a buffer, and stops right behind it.  Blocks put one after the other are read one
  after the other, and no block a reader reads is a proper prefix of another.
-/
import Mathlib.Data.List.Basic

namespace CambrianLang.Framing

variable {β α γ : Type}

/-- A reader: buffer and offset in, value and offset out, or nothing. -/
abbrev Reader (β : Type) : Type → Type := ReaderT (List β) (StateT Nat Option)

/-- `n` symbols, if there are that many left. -/
def take (n : Nat) : Reader β (List β) := fun data off =>
  if data.length < off + n then none else some ((data.drop off).take n, off + n)

/-- One reader after the other, the values in order. -/
def readAll : List (Reader β α) → Reader β (List α)
  | [] => pure []
  | r :: rs => do
    let a ← r
    let as ← readAll rs
    return a :: as

/-- A loop over `n` records, each worked into the state. -/
def fold (r : Reader β α) (f : γ → α → γ) : Nat → γ → Reader β γ
  | 0, acc => pure acc
  | n + 1, acc => do
    let a ← r
    fold r f n (f acc a)

/-- The reader reads `a` from the block, in any buffer. -/
def Reads (r : Reader β α) (block : List β) (a : α) : Prop :=
  ∀ before after : List β,
    r (before ++ block ++ after) before.length = some (a, before.length + block.length)

variable {r : Reader β α} {block block' : List β} {a a' : α}

/-! ### Blocks one after the other -/

theorem reads_pure (a : α) : Reads (pure a : Reader β α) [] a := by
  intro before after
  rfl

theorem Reads.bind {f : α → Reader β γ} {c : γ} (hr : Reads r block a)
    (hf : Reads (f a) block' c) : Reads (r >>= f) (block ++ block') c := by
  intro before after
  have hfst := hr before (block' ++ after)
  have hsnd := hf (before ++ block) after
  have hrun : ∀ data off, (r >>= f) data off = (r data off).bind fun p => f p.1 data p.2 :=
    fun _ _ => rfl
  simp only [List.append_assoc, List.length_append] at hfst hsnd ⊢
  rw [hrun, hfst, Option.bind_some, hsnd, Nat.add_assoc]

/-- What follows a reader without reading on. -/
theorem Reads.bind_pure {f : α → γ} (hr : Reads r block a) :
    Reads (r >>= fun a => pure (f a)) block (f a) := by
  have h := hr.bind (f := fun a => pure (f a)) (reads_pure (f a))
  rwa [List.append_nil] at h

theorem reads_take (block : List β) {n : Nat} (h : block.length = n) : Reads (take n) block block := by
  subst h
  intro before after
  unfold take
  rw [if_neg (by simp only [List.length_append]; omega), List.append_assoc, List.drop_left,
    List.take_left]

/-- Readers in a row read their blocks in order. -/
theorem reads_readAll {ι : Type} (items : List ι) (reader : ι → Reader β α)
    (write : ι → List β) (val : ι → α)
    (h : ∀ i ∈ items, Reads (reader i) (write i) (val i)) :
    Reads (readAll (items.map reader)) (items.flatMap write) (items.map val) := by
  induction items with
  | nil => exact reads_pure []
  | cons i items ih =>
    have hi := h i List.mem_cons_self
    have hrest := ih (fun j hj => h j (List.mem_cons_of_mem _ hj))
    rw [List.map_cons, List.flatMap_cons, List.map_cons, readAll]
    exact hi.bind hrest.bind_pure

/-- A loop over the blocks of a list folds over their values. -/
theorem reads_fold {ι : Type} (items : List ι) (write : ι → List β) (val : ι → α)
    (f : γ → α → γ) (h : ∀ i ∈ items, Reads r (write i) (val i)) (acc : γ) :
    Reads (fold r f items.length acc) (items.flatMap write) ((items.map val).foldl f acc) := by
  induction items generalizing acc with
  | nil => exact reads_pure acc
  | cons i items ih =>
    have hi := h i List.mem_cons_self
    have hrest := ih (fun j hj => h j (List.mem_cons_of_mem _ hj)) (f acc (val i))
    rw [List.length_cons, List.flatMap_cons, fold]
    exact hi.bind hrest

/-! ### Prefixes -/

/-- A block that begins with another block is that block. -/
theorem Reads.eq_of_begins (hr : Reads r block a) (hr' : Reads r block' a')
    (h : block <+: block') : block = block' ∧ a = a' := by
  obtain ⟨rest, rfl⟩ := h
  have hfst := hr [] rest
  have hsnd := hr' [] []
  rw [List.nil_append] at hfst
  rw [List.nil_append, List.append_nil, hfst] at hsnd
  simp only [Option.some.injEq, Prod.mk.injEq, List.length_nil, List.length_append] at hsnd
  have hrest : rest = [] := List.length_eq_zero_iff.mp (by omega)
  exact ⟨by rw [hrest, List.append_nil], hsnd.1⟩

/-! ### What a reader looks at -/

/-- The reader stays inside the buffer and looks at nothing behind the offset it returns. -/
def Looks (r : Reader β α) : Prop :=
  ∀ data off a off', off ≤ data.length → r data off = some (a, off') →
    off ≤ off' ∧ off' ≤ data.length ∧ ∀ more, r (data ++ more) off = some (a, off')

theorem looks_pure (a : α) : Looks (pure a : Reader β α) := by
  rintro data off b off' hoff ⟨⟩
  exact ⟨Nat.le_refl _, hoff, fun _ => rfl⟩

theorem Looks.bind {f : α → Reader β γ} (hr : Looks r) (hf : ∀ a, Looks (f a)) : Looks (r >>= f) := by
  intro data off c off' hoff h
  have hrun : ∀ data off, (r >>= f) data off = (r data off).bind fun p => f p.1 data p.2 :=
    fun _ _ => rfl
  rw [hrun] at h
  obtain ⟨⟨a, mid⟩, hfst, hsnd⟩ := Option.bind_eq_some_iff.mp h
  obtain ⟨hle, hin, hmore⟩ := hr data off a mid hoff hfst
  obtain ⟨hle', hin', hmore'⟩ := hf a data mid c off' hin hsnd
  refine ⟨Nat.le_trans hle hle', hin', fun more => ?_⟩
  rw [hrun, hmore more, Option.bind_some, hmore' more]

theorem looks_take (n : Nat) : Looks (take n : Reader β (List β)) := by
  intro data off a off' hoff h
  unfold take at h ⊢
  split at h
  · cases h
  · rename_i hlong
    cases h
    refine ⟨Nat.le_add_right .., Nat.not_lt.mp hlong, fun more => ?_⟩
    rw [if_neg (by rw [List.length_append]; omega), List.drop_append_of_le_length hoff,
      List.take_append_of_le_length (by rw [List.length_drop]; omega)]

theorem looks_readAll {rs : List (Reader β α)} (h : ∀ r ∈ rs, Looks r) : Looks (readAll rs) := by
  induction rs with
  | nil => exact looks_pure []
  | cons r rs ih =>
    obtain ⟨hr, hrs⟩ := List.forall_mem_cons.mp h
    exact hr.bind fun a => (ih hrs).bind fun as => looks_pure (a :: as)

theorem looks_fold (hr : Looks r) (f : γ → α → γ) (n : Nat) (acc : γ) : Looks (fold r f n acc) := by
  induction n generalizing acc with
  | zero => exact looks_pure acc
  | succ n ih => exact hr.bind fun a => ih (f acc a)

/-- A block that is cut off is not read. -/
theorem Reads.none_of_cut (hr : Reads r block a) (hl : Looks r) {cut : List β}
    (hcut : cut <+: block) (hne : cut ≠ block) (before : List β) :
    r (before ++ cut) before.length = none := by
  obtain ⟨rest, rfl⟩ := hcut
  by_contra hsome
  obtain ⟨⟨b, stop⟩, h⟩ := Option.ne_none_iff_exists'.mp hsome
  obtain ⟨-, hin, hmore⟩ := hl _ _ _ _ (by simp) h
  have hwhole := hr before []
  rw [List.append_nil, ← List.append_assoc, hmore rest] at hwhole
  simp only [Option.some.injEq, Prod.mk.injEq, List.length_append] at hwhole hin
  exact hne (by rw [List.eq_nil_of_length_eq_zero (l := rest) (by omega), List.append_nil])

end CambrianLang.Framing
