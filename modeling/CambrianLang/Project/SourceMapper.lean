/-
  **Lines and columns of byte offsets** (`sourcemap.rs`).

  The mapper keeps the offsets at which lines start and looks an offset up by binary search.
  The table is built from the characters of the source; no character but the newline has a
  newline byte, so it is the table of its bytes.
-/
import CambrianLang.Lib.BinarySearch
import CambrianLang.Lib.Utf8Text
import Mathlib.Data.List.Induction

namespace CambrianLang.Project

open BinarySearch Utf8Text

/-- `char_indices`, from a byte offset on. -/
def charIndices : List Char → Nat → List (Nat × Char)
  | [], _ => []
  | c :: cs, i => (i, c) :: charIndices cs (i + c.utf8Size)

/-- `SourceMapper`. -/
structure SourceMapper where
  lineStarts : List Nat

/-- The offset that a character of the scan adds to the table. -/
def lineStartAfter (indexed : Nat × Char) : Option Nat :=
  if indexed.2 = '\n' then some (indexed.1 + 1) else none

/-- `SourceMapper::new`. -/
def SourceMapper.new (source : List Char) : SourceMapper where
  lineStarts := 0 :: (charIndices source 0).filterMap lineStartAfter

/-- `line_of`. -/
def SourceMapper.lineOf (m : SourceMapper) (offset : Nat) : Nat :=
  match binarySearch m.lineStarts offset with
  | .ok idx => idx + 1
  | .error idx => idx

/-- `column_of`. -/
def SourceMapper.columnOf (m : SourceMapper) (offset : Nat) : Nat :=
  let line := m.lineOf offset
  let start := (m.lineStarts[line - 1]?).getD 0
  offset - start + 1

/-! ### The table of the bytes -/

/-- `\n` as a byte. -/
def newline : UInt8 := 10

/-- The offsets behind the newlines, where the first byte has offset `i`. -/
def newlineEnds : List UInt8 → Nat → List Nat
  | [], _ => []
  | b :: bs, i => if b = newline then (i + 1) :: newlineEnds bs (i + 1) else newlineEnds bs (i + 1)

theorem newlineEnds_append (bs bs' : List UInt8) (i : Nat) :
    newlineEnds (bs ++ bs') i = newlineEnds bs i ++ newlineEnds bs' (i + bs.length) := by
  induction bs generalizing i with
  | nil => rfl
  | cons b bs ih =>
    have hlen : i + (b :: bs).length = i + 1 + bs.length := by
      rw [List.length_cons]
      omega
    rw [List.cons_append, newlineEnds, newlineEnds, ih, hlen]
    split <;> rfl

theorem newlineEnds_of_notMem {bs : List UInt8} (h : newline ∉ bs) (i : Nat) :
    newlineEnds bs i = [] := by
  induction bs generalizing i with
  | nil => rfl
  | cons b bs ih =>
    rw [List.mem_cons, not_or] at h
    rw [newlineEnds, if_neg (Ne.symm h.1), ih h.2]

/-- A newline byte is the whole newline character. -/
theorem newline_notMem {c : Char} (hc : c ≠ '\n') : newline ∉ String.utf8EncodeChar c := by
  intro hmem
  have hsize := utf8Size_of_ascii hmem (by decide)
  have hone : (String.utf8EncodeChar c).length = 1 := by rw [String.length_utf8EncodeChar, hsize]
  rw [String.utf8EncodeChar] at hmem hone
  by_cases hascii : c.val.toNat ≤ 0x7f
  · rw [if_pos hascii, List.mem_singleton] at hmem
    refine hc (Char.ext (UInt32.toNat_inj.mp ?_))
    have hbyte := congrArg UInt8.toNat hmem
    rw [UInt8.toNat_ofNat'] at hbyte
    have hten : newline.toNat = 10 := rfl
    have hnl : ('\n' : Char).val.toNat = 10 := rfl
    omega
  · rw [if_neg hascii] at hone
    split at hone
    · cases hone
    · split at hone <;> cases hone

theorem lineStarts_new (source : List Char) :
    (SourceMapper.new source).lineStarts = 0 :: newlineEnds (bytes source) 0 := by
  have htable : ∀ i,
      (charIndices source i).filterMap lineStartAfter = newlineEnds (bytes source) i := by
    induction source with
    | nil => exact fun _ => rfl
    | cons c cs ih =>
      intro i
      rw [bytes, List.flatMap_cons, newlineEnds_append, String.length_utf8EncodeChar, charIndices]
      by_cases hc : c = '\n'
      · subst hc
        have hstart : lineStartAfter (i, '\n') = some (i + 1) := rfl
        rw [List.filterMap_cons_some hstart, ih]
        rfl
      · have hnone : lineStartAfter (i, c) = none := if_neg hc
        rw [List.filterMap_cons_none hnone, ih, newlineEnds_of_notMem (newline_notMem hc),
          List.nil_append]
        rfl
  rw [SourceMapper.new, htable]

theorem lt_of_mem_newlineEnds {bs : List UInt8} {i j : Nat} (h : j ∈ newlineEnds bs i) : i < j := by
  induction bs generalizing i with
  | nil => exact absurd h List.not_mem_nil
  | cons b bs ih =>
    rw [newlineEnds] at h
    split at h
    · rcases List.mem_cons.mp h with rfl | h
      · exact Nat.lt_succ_self i
      · exact Nat.lt_of_succ_lt (ih h)
    · exact Nat.lt_of_succ_lt (ih h)

theorem pairwise_newlineEnds (bs : List UInt8) (i : Nat) :
    (newlineEnds bs i).Pairwise (· < ·) := by
  induction bs generalizing i with
  | nil => exact .nil
  | cons b bs ih =>
    rw [newlineEnds]
    split
    · exact .cons (fun j hj => lt_of_mem_newlineEnds hj) (ih (i + 1))
    · exact ih (i + 1)

theorem pairwise_lineStarts (bs : List UInt8) : (0 :: newlineEnds bs 0).Pairwise (· < ·) :=
  .cons (fun _ hj => lt_of_mem_newlineEnds hj) (pairwise_newlineEnds bs 0)

/-! ### The prefix before an offset -/

theorem rank_newlineEnds (bs : List UInt8) (i : Nat) : ∀ n,
    rank (newlineEnds bs i) (i + n) = (bs.take n).count newline := by
  induction bs generalizing i with
  | nil => exact fun n => by rw [List.take_nil]; rfl
  | cons b bs ih =>
    intro n
    cases n with
    | zero =>
      rw [List.take_zero, rank, List.countP_eq_zero.mpr]
      · rfl
      · intro j hj
        have hlt := lt_of_mem_newlineEnds hj
        simp only [decide_eq_true_eq]
        omega
    | succ n =>
      have hnext := ih (i + 1) n
      rw [show i + 1 + n = i + (n + 1) by omega] at hnext
      rw [newlineEnds, List.take_succ_cons, List.count_cons, ← hnext]
      by_cases hb : b = newline
      · subst hb
        rw [if_pos rfl, rank, List.countP_cons_of_pos (by simp only [decide_eq_true_eq]; omega)]
        simp [rank]
      · rw [if_neg hb]
        simp [hb]

/-- `line_of` is the number of line starts that are not behind the offset. -/
theorem lineOf_eq_rank {m : SourceMapper} (h : m.lineStarts.Pairwise (· < ·)) (offset : Nat) :
    m.lineOf offset = rank m.lineStarts offset := by
  have hrank := @binarySearch_rank m.lineStarts offset h
  rw [SourceMapper.lineOf]
  cases hsearch : binarySearch m.lineStarts offset with
  | ok i =>
    rw [hsearch] at hrank
    exact hrank
  | error i =>
    rw [hsearch] at hrank
    exact hrank

theorem lineOf_new (source : List Char) (offset : Nat) :
    (SourceMapper.new source).lineOf offset =
      1 + ((bytes source).take offset).count newline := by
  rw [lineOf_eq_rank (by rw [lineStarts_new]; exact pairwise_lineStarts _), lineStarts_new, rank,
    List.countP_cons_of_pos (by simp), Nat.add_comm]
  have hends := rank_newlineEnds (bytes source) 0 offset
  rw [Nat.zero_add, rank] at hends
  rw [hends]

/-- The entries behind the newlines of a prefix are those not behind its end. -/
theorem newlineEnds_take (bs : List UInt8) (i n : Nat) :
    (newlineEnds bs i).take ((bs.take n).count newline) = newlineEnds (bs.take n) i := by
  induction bs generalizing i n with
  | nil => rw [List.take_nil]; rfl
  | cons b bs ih =>
    cases n with
    | zero => rfl
    | succ n =>
      rw [List.take_succ_cons, List.count_cons, newlineEnds, newlineEnds]
      by_cases hb : b = newline
      · subst hb
        simp [ih]
      · simp [hb, ih]

/-- The last line start of a text is behind its last newline. -/
theorem last_lineStart (bs : List UInt8) :
    ((0 :: newlineEnds bs 0).getLast (List.cons_ne_nil _ _)) +
      (bs.reverse.takeWhile (· != newline)).length = bs.length := by
  induction bs using List.reverseRecOn with
  | nil => rfl
  | append_singleton bs b ih =>
    have hends : newlineEnds (bs ++ [b]) 0 =
        newlineEnds bs 0 ++ if b = newline then [bs.length + 1] else [] := by
      rw [newlineEnds_append, Nat.zero_add, newlineEnds]
      rfl
    rw [List.reverse_append, List.reverse_singleton, List.singleton_append]
    by_cases hb : b = newline
    · subst hb
      rw [if_pos rfl] at hends
      simp only [hends, ← List.cons_append, List.getLast_append_singleton]
      simp
    · rw [if_neg hb, List.append_nil] at hends
      simp only [hends]
      rw [List.takeWhile_cons_of_pos (by simpa using hb), List.length_cons, List.length_append,
        List.length_singleton, ← ih]
      omega

theorem length_newlineEnds (bs : List UInt8) (i : Nat) :
    (newlineEnds bs i).length = bs.count newline := by
  induction bs generalizing i with
  | nil => rfl
  | cons b bs ih =>
    rw [newlineEnds, List.count_cons]
    by_cases hb : b = newline
    · subst hb
      simp [ih]
    · simp [hb, ih]

/-- The line of an offset starts where the text before the offset starts its last line. -/
theorem lineStart_eq (source : List Char) (offset : Nat) :
    (SourceMapper.new source).lineStarts[(SourceMapper.new source).lineOf offset - 1]? =
      some ((0 :: newlineEnds ((bytes source).take offset) 0).getLast (List.cons_ne_nil _ _)) := by
  set k := ((bytes source).take offset).count newline with hk
  have hline : (SourceMapper.new source).lineOf offset - 1 = k := by
    rw [lineOf_new]
    omega
  have htake : (SourceMapper.new source).lineStarts.take (k + 1) =
      0 :: newlineEnds ((bytes source).take offset) 0 := by
    rw [lineStarts_new, List.take_succ_cons, newlineEnds_take]
  have hlen : (0 :: newlineEnds ((bytes source).take offset) 0).length - 1 = k := by
    rw [List.length_cons, length_newlineEnds]
    omega
  rw [hline, ← List.getLast?_eq_some_getLast, List.getLast?_eq_getElem?, hlen, ← htake,
    List.getElem?_take_of_lt (Nat.lt_succ_self k)]

/-- **Lines and columns.**  The line is one plus the newlines before the offset, and the column
is one plus the bytes between the last of them and the offset. -/
theorem lineOf_columnOf (source : List Char) (offset : Nat)
    (hoffset : offset ≤ (bytes source).length) :
    (SourceMapper.new source).lineOf offset =
        1 + ((bytes source).take offset).count newline ∧
      (SourceMapper.new source).columnOf offset =
        1 + (((bytes source).take offset).reverse.takeWhile (· != newline)).length := by
  refine ⟨lineOf_new source offset, ?_⟩
  have hlast := last_lineStart ((bytes source).take offset)
  rw [SourceMapper.columnOf, lineStart_eq, Option.getD_some]
  rw [List.length_take, Nat.min_eq_left hoffset] at hlast
  omega

/-- An empty line, a two-byte character and a final newline. -/
theorem lineOf_columnOf_multibyte :
    (SourceMapper.new ['a', '\n', '\n', 'é', 'b', '\n']).lineOf 5 =
        1 + ((bytes ['a', '\n', '\n', 'é', 'b', '\n']).take 5).count newline ∧
      (SourceMapper.new ['a', '\n', '\n', 'é', 'b', '\n']).columnOf 5 =
        1 + (((bytes ['a', '\n', '\n', 'é', 'b', '\n']).take 5).reverse.takeWhile
          (· != newline)).length :=
  lineOf_columnOf ['a', '\n', '\n', 'é', 'b', '\n'] 5 (by decide)

/-- **Positions keep the order** of the offsets, so two offsets never share a position. -/
theorem positions_ordered (source : List Char) (o o' : Nat) :
    o < o' ↔
      (SourceMapper.new source).lineOf o < (SourceMapper.new source).lineOf o' ∨
        (SourceMapper.new source).lineOf o = (SourceMapper.new source).lineOf o' ∧
          (SourceMapper.new source).columnOf o < (SourceMapper.new source).columnOf o' := by
  have hmono : ∀ {i j : Nat}, i ≤ j →
      (SourceMapper.new source).lineOf i ≤ (SourceMapper.new source).lineOf j := by
    intro i j hij
    rw [lineOf_new, lineOf_new]
    exact Nat.add_le_add_left ((List.take_prefix_take_left hij).sublist.count_le newline) 1
  have hstart : ∀ i, (((SourceMapper.new source).lineStarts[
      (SourceMapper.new source).lineOf i - 1]?).getD 0) ≤ i := by
    intro i
    have hlast := last_lineStart ((bytes source).take i)
    rw [List.length_take] at hlast
    rw [lineStart_eq, Option.getD_some]
    omega
  have ho := hstart o
  have ho' := hstart o'
  rw [SourceMapper.columnOf, SourceMapper.columnOf]
  constructor
  · intro hlt
    rcases (hmono hlt.le).lt_or_eq with hline | hline
    · exact .inl hline
    · rw [hline] at ho ⊢
      exact .inr ⟨rfl, by omega⟩
  · rintro (hline | ⟨hline, hcol⟩)
    · exact not_le.mp fun hle => absurd (hmono hle) (not_le.mpr hline)
    · rw [hline] at ho hcol
      omega

end CambrianLang.Project
