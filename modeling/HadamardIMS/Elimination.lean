import Mathlib.Algebra.BigOperators.Field
import Mathlib.LinearAlgebra.Matrix.Block
import Mathlib.LinearAlgebra.Matrix.NonsingularInverse
import Mathlib.LinearAlgebra.Matrix.ToLinearEquiv

/-!
# Elimination without row exchanges

A matrix is reduced column by column, and the same row operations go over a second
matrix that starts as the identity. Before each pass the second matrix times the
original one is the first, so when every column has been reduced the second is the
inverse. Without row exchanges the pivot of a pass is zero exactly if the leading
block that ends with this column is singular, although the matrix need not be.
-/
namespace HadamardIMS.Elimination

open Finset

variable {K : Type*} [Field K]

/-- One pass over a row operation's target `M`: row `l` is divided by its pivot, and
every other row loses the multiple of it that clears column `l` of `A`. -/
def clearColumn (A M : ℕ → ℕ → K) (l i j : ℕ) : K :=
  if i = l then M l j / A l l else M i j - A i l * (M l j / A l l)

/-- The leading block of order `k`. -/
def leading (A : ℕ → ℕ → K) (k : ℕ) : Matrix (Fin k) (Fin k) K := .of fun i j => A i j

/-- The invariant of the passes over a matrix of order `n`: in the first `l` columns
`A` is the identity, from there on `D` still is, and the operations that led from
the original to `A` are multiplication by `D`. -/
structure Reduced (original : ℕ → ℕ → K) (n l : ℕ) (A D : ℕ → ℕ → K) : Prop where
  cleared : ∀ i j, i < n → j < l → A i j = if i = j then 1 else 0
  untouched : ∀ i j, i < n → l ≤ j → j < n → D i j = if i = j then 1 else 0
  product : ∀ i j, i < n → j < n → ∑ c ∈ range n, D i c * original c j = A i j

variable {original A D : ℕ → ℕ → K} {n l : ℕ}

theorem reduced_zero (original : ℕ → ℕ → K) (n : ℕ) :
    Reduced original n 0 original fun i j => if i = j then 1 else 0 := by
  refine ⟨nofun, fun _ _ _ _ _ => rfl, fun i j hi _ => ?_⟩
  simp [hi]

namespace Reduced

/-- A pass on the columns to the right of the pivot is a pass on all columns. -/
theorem clearColumn_of_lt (h : Reduced original n l A D) (hl : l < n) {i j : ℕ}
    (hj : j < l) : clearColumn A A l i j = A i j := by
  have hzero : A l j = 0 := by rw [h.cleared l j hl hj, if_neg (by omega)]
  rw [clearColumn, hzero, zero_div]
  split_ifs with hil
  · rw [hil, hzero]
  · rw [mul_zero, sub_zero]

/-- A pass with a pivot that is not zero clears one more column. -/
theorem step (h : Reduced original n l A D) (hl : l < n) (hpivot : A l l ≠ 0) :
    Reduced original n (l + 1) (clearColumn A A l) (clearColumn A D l) := by
  refine ⟨fun i j hi hj => ?_, fun i j hi hlj hj => ?_, fun i j hi hj => ?_⟩
  · rcases Nat.lt_succ_iff_lt_or_eq.mp hj with hlt | rfl
    · rw [h.clearColumn_of_lt hl hlt, h.cleared i j hi hlt]
    · rw [clearColumn, div_self hpivot, mul_one, sub_self]
  · have hrow : D l j = 0 := by rw [h.untouched l j hl (by omega) hj, if_neg (by omega)]
    rw [clearColumn, hrow, zero_div, mul_zero, sub_zero, h.untouched i j hi (by omega) hj]
    split_ifs <;> first | rfl | omega
  · -- The product is linear in each row of the left factor.
    by_cases hil : i = l
    · simp only [clearColumn, if_pos hil, div_mul_eq_mul_div]
      rw [← sum_div, h.product l j hl hj]
    · have hterm : ∀ c, (D i c - A i l * (D l c / A l l)) * original c j =
          D i c * original c j - A i l * (D l c * original c j / A l l) := fun c => by ring
      simp only [clearColumn, if_neg hil, hterm]
      rw [sum_sub_distrib, ← mul_sum, ← sum_div, h.product i j hi hj, h.product l j hl hj]

/-- Row `i` of `D` combines the rows below `k` only, if it is one of them. -/
theorem sum_leading (h : Reduced original n l A D) {k i j : ℕ} (hlk : l ≤ k) (hkn : k ≤ n)
    (hi : i < k) (hj : j < n) : ∑ c ∈ range k, D i c * original c j = A i j := by
  rw [← h.product i j (by omega) hj]
  refine sum_subset (range_subset_range.mpr hkn) fun c hc hck => ?_
  have hcn := mem_range.mp hc
  have hkc : k ≤ c := not_lt.mp (mt mem_range.mpr hck)
  rw [h.untouched i c (by omega) (by omega) hcn, if_neg (by omega), zero_mul]

/-- The columns that have been cleared belong to a regular leading block. -/
theorem det_leading_ne_zero (h : Reduced original n l A D) (hl : l ≤ n) :
    (leading original l).det ≠ 0 := by
  have hproduct : leading D l * leading original l = 1 := by
    ext i j
    rw [Matrix.mul_apply, Matrix.one_apply]
    simp only [leading, Matrix.of_apply, Fin.ext_iff]
    rw [Fin.sum_univ_eq_sum_range fun c => D i c * original c j,
      h.sum_leading le_rfl hl i.isLt (by omega), h.cleared i j (by omega) j.isLt]
  intro hzero
  have hdet := congrArg Matrix.det hproduct
  rw [Matrix.det_mul, hzero, mul_zero, Matrix.det_one] at hdet
  exact zero_ne_one hdet

/-- A pivot that is zero shows that the leading block up to its column is singular:
row `l` of `D` combines the rows of the block to zero. -/
theorem det_leading_eq_zero (h : Reduced original n l A D) (hl : l < n) (hpivot : A l l = 0) :
    (leading original (l + 1)).det = 0 := by
  refine Matrix.exists_vecMul_eq_zero_iff.mp ⟨fun c => D l c, fun hzero => ?_, ?_⟩
  · have hone := congrFun hzero (Fin.last l)
    rw [Fin.val_last, h.untouched l l hl le_rfl hl, if_pos rfl] at hone
    exact one_ne_zero hone
  · ext j
    change ∑ c : Fin (l + 1), D l c * original c j = 0
    rw [Fin.sum_univ_eq_sum_range fun c => D l c * original c j,
      h.sum_leading (Nat.le_succ l) hl (Nat.lt_succ_self l) (by omega)]
    rcases Nat.lt_succ_iff_lt_or_eq.mp j.isLt with hj | hj
    · rw [h.cleared l j hl hj, if_neg (by omega)]
    · rw [hj, hpivot]

/-- The entries within the order are all that counts. -/
theorem congr {A' D' : ℕ → ℕ → K} (h : Reduced original n l A D) (hl : l ≤ n)
    (hA : ∀ i j, i < n → j < n → A i j = A' i j) (hD : ∀ i j, i < n → j < n → D i j = D' i j) :
    Reduced original n l A' D' := by
  refine ⟨fun i j hi hj => ?_, fun i j hi hlj hj => ?_, fun i j hi hj => ?_⟩
  · rw [← hA i j hi (by omega), h.cleared i j hi hj]
  · rw [← hD i j hi hj, h.untouched i j hi hlj hj]
  · rw [← hA i j hi hj, ← h.product i j hi hj]
    exact sum_congr rfl fun c hc => by rw [hD i c hi (mem_range.mp hc)]

/-- When every column has been cleared, `D` is the inverse. -/
theorem inverse (h : Reduced original n n A D) : leading D n * leading original n = 1 := by
  ext i j
  rw [Matrix.mul_apply, Matrix.one_apply]
  simp only [leading, Matrix.of_apply, Fin.ext_iff]
  rw [Fin.sum_univ_eq_sum_range fun c => D i c * original c j, h.product i j i.isLt j.isLt,
    h.cleared i j i.isLt j.isLt]

end Reduced

/-! ## Matrices with a known factorisation -/

/-- A factorisation of a matrix of order `n` into a unit triangle, a regular diagonal and
the transposed triangle, with the inverse `M` of the triangle. -/
structure Factors (A L M : ℕ → ℕ → K) (d : ℕ → K) (n : ℕ) : Prop where
  unit : ∀ i < n, L i i = 1
  lower : ∀ i t, i < t → t < n → L i t = 0
  inverse_lower : ∀ i t, i < t → t < n → M i t = 0
  inverse : ∀ i j, i < n → j < n → ∑ t ∈ range n, L i t * M t j = if i = j then 1 else 0
  diagonal : ∀ t < n, d t ≠ 0
  product : ∀ i j, i < n → j < n → A i j = ∑ t ∈ range n, L i t * d t * L j t

/-- The matrix after the first `l` passes. -/
def leftAfter (L M : ℕ → ℕ → K) (d : ℕ → K) (n l i j : ℕ) : K :=
  if i < l then ∑ t ∈ range l, M t i * L j t else ∑ t ∈ Ico l n, L i t * d t * L j t

/-- What the passes have made of the identity. -/
def rightAfter (L M : ℕ → ℕ → K) (d : ℕ → K) (l i j : ℕ) : K :=
  if i < l then ∑ t ∈ range l, M t i * M t j / d t
  else (if i = j then 1 else 0) - ∑ t ∈ range l, L i t * M t j

namespace Factors

variable {A L M : ℕ → ℕ → K} {d : ℕ → K} {n l : ℕ}

/-- The product of the triangles needs the columns up to the row only. -/
theorem sum_row (h : Factors A L M d n) {i j : ℕ} (hi : i < n) (hj : j < n) :
    ∑ t ∈ range i, L i t * M t j = (if i = j then 1 else 0) - M i j := by
  have hsum := h.inverse i j hi hj
  rw [← sum_range_add_sum_Ico _ hi.le, sum_eq_sum_Ico_succ_bot hi, h.unit i hi, one_mul] at hsum
  have hzero : ∑ t ∈ Ico (i + 1) n, L i t * M t j = 0 := sum_eq_zero fun t ht => by
    rw [h.lower i t (mem_Ico.mp ht).1 (mem_Ico.mp ht).2, zero_mul]
  rw [hzero, add_zero] at hsum
  exact eq_sub_of_add_eq hsum

theorem inverse_unit (h : Factors A L M d n) {i : ℕ} (hi : i < n) : M i i = 1 := by
  have hsum := h.sum_row hi hi
  rw [sum_eq_zero fun t ht => by rw [h.inverse_lower t i (mem_range.mp ht) hi, mul_zero],
    if_pos rfl] at hsum
  exact (sub_eq_zero.mp hsum.symm).symm

/-- The row of the pivot before its pass. -/
theorem leftAfter_row (h : Factors A L M d n) (hl : l < n) (j : ℕ) :
    leftAfter L M d n l l j = d l * L j l := by
  rw [leftAfter, if_neg (lt_irrefl l), sum_eq_sum_Ico_succ_bot hl, h.unit l hl, one_mul,
    sum_eq_zero fun t ht => by rw [h.lower l t (mem_Ico.mp ht).1 (mem_Ico.mp ht).2, zero_mul,
      zero_mul], add_zero]

/-- The column of the pivot before its pass. -/
theorem leftAfter_column (h : Factors A L M d n) (hl : l < n) {i : ℕ} (hne : i ≠ l) (hi : i < n) :
    leftAfter L M d n l i l = if i < l then -M l i else L i l * d l := by
  rw [leftAfter]
  by_cases hil : i < l
  · have hsum := h.sum_row hl hi
    rw [if_neg (Ne.symm hne), zero_sub] at hsum
    rw [if_pos hil, if_pos hil, ← hsum]
    exact sum_congr rfl fun t _ => mul_comm _ _
  · rw [if_neg hil, if_neg hil, sum_eq_sum_Ico_succ_bot hl, h.unit l hl, mul_one,
      sum_eq_zero fun t ht => by rw [h.lower l t (mem_Ico.mp ht).1 (mem_Ico.mp ht).2, mul_zero],
      add_zero]

theorem rightAfter_row (h : Factors A L M d n) (hl : l < n) {j : ℕ} (hj : j < n) :
    rightAfter L M d l l j = M l j := by
  rw [rightAfter, if_neg (lt_irrefl l), h.sum_row hl hj, sub_sub_cancel]

/-- The pivot of a pass. -/
theorem pivot_eq (h : Factors A L M d n) (hl : l < n) : leftAfter L M d n l l l = d l := by
  rw [h.leftAfter_row hl, h.unit l hl, mul_one]

/-- The divided row of the pivot. -/
theorem left_quotient (h : Factors A L M d n) (hl : l < n) (j : ℕ) :
    leftAfter L M d n l l j / leftAfter L M d n l l l = L j l := by
  rw [h.pivot_eq hl, h.leftAfter_row hl, mul_div_cancel_left₀ _ (h.diagonal l hl)]

theorem right_quotient (h : Factors A L M d n) (hl : l < n) {j : ℕ} (hj : j < n) :
    rightAfter L M d l l j / leftAfter L M d n l l l = M l j / d l := by
  rw [h.pivot_eq hl, h.rightAfter_row hl hj]

theorem clearColumn_left (h : Factors A L M d n) (hl : l < n) {i j : ℕ} (hi : i < n) :
    clearColumn (leftAfter L M d n l) (leftAfter L M d n l) l i j =
      leftAfter L M d n (l + 1) i j := by
  rw [clearColumn, h.left_quotient hl]
  by_cases hil : i = l
  · rw [if_pos hil, hil, leftAfter, if_pos (Nat.lt_succ_self l), sum_range_succ,
      sum_eq_zero fun t ht => by rw [h.inverse_lower t l (mem_range.mp ht) hl, zero_mul],
      h.inverse_unit hl, zero_add, one_mul]
  · rw [if_neg hil, h.leftAfter_column hl hil hi, leftAfter, leftAfter]
    by_cases hlt : i < l
    · rw [if_pos hlt, if_pos hlt, if_pos (by omega), sum_range_succ]
      ring
    · rw [if_neg hlt, if_neg hlt, if_neg (by omega), sum_eq_sum_Ico_succ_bot hl]
      ring

theorem clearColumn_right (h : Factors A L M d n) (hl : l < n) {i j : ℕ} (hi : i < n)
    (hj : j < n) : clearColumn (leftAfter L M d n l) (rightAfter L M d l) l i j =
      rightAfter L M d (l + 1) i j := by
  rw [clearColumn, h.right_quotient hl hj]
  by_cases hil : i = l
  · rw [if_pos hil, hil, rightAfter, if_pos (Nat.lt_succ_self l), sum_range_succ,
      sum_eq_zero fun t ht => by rw [h.inverse_lower t l (mem_range.mp ht) hl, zero_mul, zero_div],
      h.inverse_unit hl, zero_add, one_mul]
  · rw [if_neg hil, h.leftAfter_column hl hil hi, rightAfter, rightAfter]
    have hd := h.diagonal l hl
    by_cases hlt : i < l
    · rw [if_pos hlt, if_pos hlt, if_pos (by omega), sum_range_succ]
      ring
    · rw [if_neg hlt, if_neg hlt, if_neg (show ¬i < l + 1 by omega), sum_range_succ, mul_assoc,
        mul_div_cancel₀ _ hd]
      ring

/-- The passes go through, and these are the matrices after each of them. -/
theorem reduced (h : Factors A L M d n) (hl : l ≤ n) :
    Reduced A n l (leftAfter L M d n l) (rightAfter L M d l) := by
  induction l with
  | zero =>
    refine (reduced_zero A n).congr (Nat.zero_le n) (fun i j hi hj => ?_) fun i j _ _ => ?_
    · rw [h.product i j hi hj, leftAfter, if_neg (Nat.not_lt_zero i), range_eq_Ico]
    · rw [rightAfter, if_neg (Nat.not_lt_zero i), range_zero, sum_empty, sub_zero]
  | succ l ih =>
    have hpivot : leftAfter L M d n l l l ≠ 0 := by
      rw [h.pivot_eq hl]
      exact h.diagonal l hl
    exact ((ih (by omega)).step hl hpivot).congr hl (fun i j hi _ => h.clearColumn_left hl hi)
      fun i j hi hj => h.clearColumn_right hl hi hj

end Factors

end HadamardIMS.Elimination
