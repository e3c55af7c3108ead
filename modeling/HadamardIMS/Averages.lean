import HadamardIMS.Signals
import Mathlib.Data.Finset.Card

/-!
# Which elements `getAverageSignal` adds up

The kept frames, each from the element that shifting it by its number brings to the
front. The element past a row that every pass of `arraycircShift` reads is not among
them. On rows that hold delayed copies of one response, shifting aligns the copies, and
each sum is a multiple of a point of the response.
-/
namespace HadamardIMS.Signals

open Loops Buffers Hadamard Finset

/-- The frames below `totalFrame` that are not discarded. -/
def keptIndices (discardFrameNumber : List ℤ) (errFrameNumber totalFrame : ℕ) : Finset ℕ :=
  {i ∈ range totalFrame | ¬Discarded discardFrameNumber errFrameNumber i}

theorem mem_keptIndices {discard : List ℤ} {e totalFrame i : ℕ} :
    i ∈ keptIndices discard e totalFrame ↔ i < totalFrame ∧ (i : ℤ) ∉ discard.take e := by
  rw [keptIndices, mem_filter, mem_range, Discarded]

theorem keptSum_eq (discard : List ℤ) (e totalFrame L : ℕ) (R : ℕ → ℚ) (j : ℕ) :
    keptSum discard e totalFrame L R j =
      ∑ i ∈ keptIndices discard e totalFrame, if i + j < L then R (i * L + i + j) else 0 := by
  rw [keptIndices, sum_filter, keptSum]
  refine sum_congr rfl fun i _ => ?_
  by_cases hd : Discarded discard e i
  · rw [if_pos hd, if_neg (not_not.mpr hd)]
  · rw [if_neg hd, if_pos hd]

/-- The elements just past the rows below `totalFrame`, which `arraycircShift` reads. -/
def PastRow (L totalFrame p : ℕ) : Prop := ∃ i < totalFrame, p = i * L + L

/-- Shifting row `i` by `i` never brings an element from past a row into place. -/
theorem not_pastRow {L totalFrame i j : ℕ} (hij : i + j < L) :
    ¬PastRow L totalFrame (i * L + (i + j)) := by
  rintro ⟨i', -, h⟩
  have hhead : i * L + (i + j) = (i' + 1) * L + 0 := by rw [h, Nat.succ_mul, Nat.add_zero]
  have := (rowMajor_inj hij (by omega)).mp hhead
  omega

/-! ## Delayed copies of one response -/

/-- Row `i` is `f` delayed by `i`, for the rows that are averaged. -/
def HoldsDelayed {L : ℕ} (R : Buffer MatrixElementType (L * L)) (f : ℕ → ℚ) (totalFrame : ℕ) :
    Prop :=
  ∀ i t, i < totalFrame → t < L → R.cell (i * L + t) = .set (if i ≤ t then f (t - i) else 0)

/-- Every kept frame that still has a sample at point `j` contributes the response. -/
theorem keptSum_delayed {L totalFrame e : ℕ} {discard : List ℤ}
    {R : Buffer MatrixElementType (L * L)} {f : ℕ → ℚ} (hR : HoldsDelayed R f totalFrame) (j : ℕ) :
    keptSum discard e totalFrame L R.value j =
      #{i ∈ keptIndices discard e totalFrame | i + j < L} * f j := by
  have hterm : ∀ i ∈ keptIndices discard e totalFrame,
      (if i + j < L then R.value (i * L + i + j) else 0) = if i + j < L then f j else 0 := by
    intro i hi
    by_cases hij : i + j < L
    · rw [if_pos hij, if_pos hij, Nat.add_assoc, Buffer.value,
        hR i (i + j) (mem_keptIndices.mp hi).1 hij, if_pos (Nat.le_add_right i j),
        Nat.add_sub_cancel_left, Cell.value_set]
    · rw [if_neg hij, if_neg hij]
  rw [keptSum_eq, sum_congr rfl hterm, ← sum_filter, sum_const, nsmul_eq_mul]

/-- The matrix whose row `i` is `f` delayed by `i`. -/
def delayedCopies (L : ℕ) (f : ℕ → ℚ) : Buffer MatrixElementType (L * L) :=
  ⟨fun p => .set (if p / L ≤ p % L then f (p % L - p / L) else 0)⟩

theorem delayedCopies_assigned (L : ℕ) (f : ℕ → ℚ) : (delayedCopies L f).Assigned :=
  fun _ _ => ⟨_, rfl⟩

theorem holdsDelayed_delayedCopies (L : ℕ) (f : ℕ → ℚ) (totalFrame : ℕ) :
    HoldsDelayed (delayedCopies L f) f totalFrame := by
  intro i t _ ht
  simp only [delayedCopies, rowMajor_div ht, rowMajor_mod ht]

end HadamardIMS.Signals
