/-
  **Variables laid out in memory words.**

  Space is divided into words of `w` units.  A variable either takes a part of a
  word, sharing it with its neighbours where it still fits, or whole words of its
  own.  Where two lists of variables are laid out at the same places is decided
  variable by variable.
-/
import Mathlib.Algebra.Order.Floor.Div
import Mathlib.Tactic.Ring

namespace CambrianLang.WordPacking

/-- What a variable takes: a part of a word or whole words. -/
inductive Room where
  | part (size : ℕ)
  | words (count : ℕ)
deriving DecidableEq

variable (w : ℕ)

/-- The first word boundary that is not before `p`. -/
def alignUp (p : ℕ) : ℕ := w * ((p + w - 1) / w)

/-- Where a variable begins when everything before `p` is taken. -/
def Room.start (p : ℕ) : Room → ℕ
  | .part size => if p % w + size ≤ w then p else alignUp w p
  | .words _ => alignUp w p

def Room.size : Room → ℕ
  | .part size => size
  | .words count => w * count

/-- Where the next variable may begin. -/
def Room.next (p : ℕ) (r : Room) : ℕ := r.start w p + r.size w

variable {α β : Type*}

/-- Every variable with the place where it begins. -/
def layOut (room : α → Room) : ℕ → List α → List (α × ℕ)
  | _, [] => []
  | p, x :: xs => (x, (room x).start w p) :: layOut room ((room x).next w p) xs

/-- Where the next variable may begin behind a list of variables. -/
def advance (room : α → Room) (p : ℕ) (xs : List α) : ℕ := xs.foldl (fun p x => (room x).next w p) p

/-- The whole words that hold a list of variables. -/
def wordsOf (rooms : List Room) : ℕ := alignUp w (advance w id 0 rooms) / w

/-- A whole word can be taken as one part. -/
inductive Room.Same : Room → Room → Prop
  | refl (r : Room) : Room.Same r r
  | part_words : Room.Same (.part w) (.words 1)
  | words_part : Room.Same (.words 1) (.part w)

/-- Rooms that always begin at the same place. -/
def Room.Comparable (r s : Room) : Prop := Room.Same w r s ∨ ∃ m n, r = .words m ∧ s = .words n

variable {w}

theorem alignUp_of_dvd {p : ℕ} (hw : 0 < w) (h : w ∣ p) : alignUp w p = p := by
  obtain ⟨k, rfl⟩ := h
  rw [alignUp, Nat.add_sub_assoc hw, Nat.mul_add_div hw, Nat.div_eq_of_lt (by omega), Nat.add_zero]

theorem dvd_alignUp (p : ℕ) : w ∣ alignUp w p := Dvd.intro _ rfl

theorem start_of_dvd {p : ℕ} (hw : 0 < w) (h : w ∣ p) (r : Room) : r.start w p = p := by
  cases r with
  | part size =>
    rw [Room.start]
    split
    · rfl
    · exact alignUp_of_dvd hw h
  | words count => exact alignUp_of_dvd hw h

theorem layOut_append (room : α → Room) (p : ℕ) (xs ys : List α) :
    layOut w room p (xs ++ ys) = layOut w room p xs ++ layOut w room (advance w room p xs) ys := by
  induction xs generalizing p with
  | nil => rfl
  | cons x xs ih =>
    rw [List.cons_append, layOut, layOut, ih]
    rfl

theorem advance_append (room : α → Room) (p : ℕ) (xs ys : List α) :
    advance w room p (xs ++ ys) = advance w room (advance w room p xs) ys :=
  List.foldl_append

/-! ### What is laid out does not overlap -/

theorem le_alignUp (hw : 0 < w) (p : ℕ) : p ≤ alignUp w p := by
  have hdiv := Nat.div_add_mod (p + w - 1) w
  have hmod := Nat.mod_lt (p + w - 1) hw
  rw [alignUp]
  omega

theorem le_start (hw : 0 < w) (p : ℕ) (r : Room) : p ≤ r.start w p := by
  cases r with
  | part size =>
    rw [Room.start]
    split
    · exact Nat.le_refl p
    · exact le_alignUp hw p
  | words count => exact le_alignUp hw p

theorem le_of_mem_layOut (hw : 0 < w) (room : α → Room) {p : ℕ} {xs : List α} {y : α × ℕ}
    (hy : y ∈ layOut w room p xs) : p ≤ y.2 := by
  induction xs generalizing p with
  | nil => exact absurd hy List.not_mem_nil
  | cons x xs ih =>
    have hstart := le_start hw p (room x)
    rcases List.mem_cons.mp hy with rfl | hrest
    · exact hstart
    · have hnext := ih hrest
      rw [Room.next] at hnext
      omega

/-- **Every variable ends before the next one begins.** -/
theorem pairwise_layOut (hw : 0 < w) (room : α → Room) (p : ℕ) (xs : List α) :
    (layOut w room p xs).Pairwise fun x y => x.2 + (room x.1).size w ≤ y.2 := by
  induction xs generalizing p with
  | nil => exact .nil
  | cons x xs ih => exact .cons (fun y hy => le_of_mem_layOut hw room hy) (ih _)

/-- A part of a word stays in it. -/
theorem part_start_mod {size : ℕ} (hsize : size ≤ w) (p : ℕ) :
    (Room.part size).start w p % w + size ≤ w := by
  rw [Room.start]
  split
  · rename_i hfit
    exact hfit
  · rw [alignUp, Nat.mul_mod_right, Nat.zero_add]
    exact hsize

theorem mem_layOut {room : α → Room} {p : ℕ} {xs : List α} {y : α × ℕ} (hy : y ∈ layOut w room p xs) :
    y.1 ∈ xs ∧ ∃ q, y.2 = (room y.1).start w q := by
  induction xs generalizing p with
  | nil => exact absurd hy List.not_mem_nil
  | cons x xs ih =>
    rcases List.mem_cons.mp hy with rfl | hrest
    · exact ⟨List.mem_cons_self, p, rfl⟩
    · obtain ⟨hmem, hq⟩ := ih hrest
      exact ⟨List.mem_cons_of_mem x hmem, hq⟩

theorem Room.Same.start_eq (hw : 0 < w) {r s : Room} (h : Room.Same w r s) (p : ℕ) :
    r.start w p = s.start w p := by
  have hpart : (Room.part w).start w p = alignUp w p := by
    rw [Room.start]
    split
    · rename_i hfit
      exact (alignUp_of_dvd hw (Nat.dvd_of_mod_eq_zero (by omega))).symm
    · rfl
  cases h with
  | refl r => rfl
  | part_words => exact hpart
  | words_part => exact hpart.symm

theorem Room.Same.size_eq {r s : Room} (h : Room.Same w r s) : r.size w = s.size w := by
  cases h with
  | refl r => rfl
  | part_words => exact (Nat.mul_one w).symm
  | words_part => exact Nat.mul_one w

theorem Room.Same.next_eq (hw : 0 < w) {r s : Room} (h : Room.Same w r s) (p : ℕ) :
    r.next w p = s.next w p := by
  rw [Room.next, Room.next, h.start_eq hw, h.size_eq]

theorem Room.Comparable.start_eq (hw : 0 < w) {r s : Room} (h : Room.Comparable w r s) (p : ℕ) :
    r.start w p = s.start w p := by
  rcases h with hsame | ⟨m, n, rfl, rfl⟩
  · exact hsame.start_eq hw p
  · rfl

/-- Comparable rooms that leave off at the same place are the same. -/
theorem Room.Comparable.same_of_next_eq (hw : 0 < w) {r s : Room} (h : Room.Comparable w r s) {p : ℕ}
    (hnext : r.next w p = s.next w p) : Room.Same w r s := by
  rcases h with hsame | ⟨m, n, rfl, rfl⟩
  · exact hsame
  · have hsize : w * m = w * n := Nat.add_left_cancel hnext
    rw [Nat.eq_of_mul_eq_mul_left hw hsize]
    exact .refl _

/-- Behind comparable rooms the next variable begins at the same place only if the rooms are the
same. -/
theorem Room.Comparable.same_of_start_next (hw : 0 < w) {r s r' s' : Room}
    (h : Room.Comparable w r s) {p : ℕ}
    (hstart : r'.start w (r.next w p) = s'.start w (s.next w p)) : Room.Same w r s := by
  rcases h with hsame | ⟨m, n, rfl, rfl⟩
  · exact hsame
  · have hdvd : ∀ k, w ∣ (Room.words k).next w p := fun k =>
      Nat.dvd_add (dvd_alignUp p) (Dvd.intro k rfl)
    rw [start_of_dvd hw (hdvd m), start_of_dvd hw (hdvd n)] at hstart
    exact Room.Comparable.same_of_next_eq hw (.inr ⟨m, n, rfl, rfl⟩) hstart

/-- **Two lists of variables lie at the same places** exactly when every variable but the last
takes the same room. -/
theorem forall₂_layOut_iff (hw : 0 < w) {R : α → β → Prop} {room : α → Room} {room' : β → Room}
    (hcmp : ∀ a b, R a b → Room.Comparable w (room a) (room' b)) (p : ℕ) (xs : List α) (ys : List β) :
    List.Forall₂ (fun x y => R x.1 y.1 ∧ x.2 = y.2) (layOut w room p xs) (layOut w room' p ys) ↔
      List.Forall₂ R xs ys ∧
        List.Forall₂ (fun a b => Room.Same w (room a) (room' b)) xs.dropLast ys.dropLast := by
  induction xs generalizing ys p with
  | nil =>
    cases ys with
    | nil => simp [layOut]
    | cons y ys => simp [layOut]
  | cons x xs ih =>
    cases ys with
    | nil => simp [layOut]
    | cons y ys =>
      rw [layOut, layOut, List.forall₂_cons, List.forall₂_cons]
      cases xs with
      | nil =>
        cases ys with
        | nil =>
          simp only [layOut, List.Forall₂.nil, and_true, List.dropLast_singleton]
          exact ⟨And.left, fun h => ⟨h, (hcmp _ _ h).start_eq hw p⟩⟩
        | cons y' ys => simp [layOut]
      | cons x' xs =>
        cases ys with
        | nil => simp [layOut]
        | cons y' ys =>
          rw [List.dropLast_cons_cons, List.dropLast_cons_cons]
          constructor
          · rintro ⟨⟨hR, -⟩, htail⟩
            have hnext := htail
            rw [layOut, layOut, List.forall₂_cons] at hnext
            have hsame := (hcmp x y hR).same_of_start_next hw hnext.1.2
            rw [← hsame.next_eq hw p] at htail
            obtain ⟨hrest, hdrop⟩ := (ih _ _).mp htail
            exact ⟨⟨hR, hrest⟩, .cons hsame hdrop⟩
          · rintro ⟨⟨hR, hrest⟩, hdrops⟩
            obtain ⟨hsame, hdrop⟩ := List.forall₂_cons.mp hdrops
            refine ⟨⟨hR, hsame.start_eq hw p⟩, ?_⟩
            rw [← hsame.next_eq hw p]
            exact (ih _ _).mpr ⟨hrest, hdrop⟩

end CambrianLang.WordPacking
