import HadamardIMS.MatrixProducts
import HadamardIMS.PrbsInverse

/-!
# The matrix functions on the sequence matrix

`main` once inverted the sequence matrix with `arm_mat_inverse_f32` and decoded with
`arm_mat_mult_f32`; both calls are commented out now. The sequence matrix splits into
triangles of zeros and ones and a diagonal of powers of two. So the elimination meets
small multiples of 1/128 only and no operation of it is rounded in single precision.
-/
namespace HadamardIMS.MatrixFunctions

open Loops Buffers Hadamard Sylvester Elimination Significands Precision Finset

/-! ## The factors of the sequence matrix -/

/-- The pivot of column `t`. -/
def sequencePivot (k t : ℕ) : ℚ := (-2) ^ (commonOnes k (t + 1) (t + 1) - 1)

theorem commonOnes_self_pos {k t : ℕ} (ht : t < 2 ^ k - 1) :
    0 < commonOnes k (t + 1) (t + 1) := by
  refine Nat.pos_of_ne_zero fun hzero => ?_
  have hle : t + 1 ≤ 0 := le_of_commonOnes_eq (show t + 1 < 2 ^ k by omega)
    (by rw [commonOnes_zero_left, hzero])
  omega

theorem commonOnes_self_le (k t : ℕ) : commonOnes k t t ≤ k := by
  rw [commonOnes]
  exact (card_filter_le _ _).trans_eq (card_range k)

theorem sequencePivot_eq {k t : ℕ} (ht : t < 2 ^ k - 1) :
    sequencePivot k t = -(-2) ^ commonOnes k (t + 1) (t + 1) / 2 := by
  obtain ⟨c, hc⟩ := Nat.exists_eq_succ_of_ne_zero (commonOnes_self_pos ht).ne'
  rw [sequencePivot, hc, Nat.succ_sub_one, pow_succ]
  ring

theorem sequence_factors (k : ℕ) : Factors (simplex ℚ k) (fun i t => within ℚ k (i + 1) (t + 1))
    (fun i t => mobius ℚ k (i + 1) (t + 1)) (sequencePivot k) (2 ^ k - 1) where
  unit i _ := within_self k (i + 1)
  lower i t hit ht := within_of_lt (by omega) (by omega)
  inverse_lower i t hit ht := mobius_of_lt (by omega) (by omega)
  inverse i j hi hj := by
    have hn : 2 ^ k - 1 + 1 = 2 ^ k := Nat.sub_add_cancel Nat.one_le_two_pow
    have hsum := sum_within_mul_mobius (R := ℚ) k (show i + 1 < 2 ^ k by omega)
      (show j + 1 < 2 ^ k by omega)
    rw [← hn, sum_range_succ', mobius_of_lt (by omega) (Nat.succ_pos j), mul_zero, add_zero] at hsum
    rw [hsum]
    exact if_congr (by omega) rfl rfl
  diagonal t _ := pow_ne_zero _ (by norm_num)
  product i j hi hj := by
    rw [simplex_eq_sum_within hi hj]
    exact sum_congr rfl fun t ht => by rw [sequencePivot_eq (mem_range.mp ht)]

/-! ## Small multiples of 1/128 -/

/-- Zero, one or minus one. -/
def IsSign (x : ℚ) : Prop := x = 0 ∨ x = 1 ∨ x = -1

theorem IsSign.mul {x y : ℚ} (hx : IsSign x) (hy : IsSign y) : IsSign (x * y) := by
  rcases hx with rfl | rfl | rfl <;> rcases hy with rfl | rfl | rfl <;> norm_num [IsSign]

theorem isSign_within (k i t : ℕ) : IsSign (within ℚ k i t) := by
  rw [within]
  split_ifs
  · exact .inr (.inl rfl)
  · exact .inl rfl

theorem isSign_mobius (k i t : ℕ) : IsSign (mobius ℚ k i t) := by
  refine IsSign.mul ?_ (isSign_within k i t)
  exact .inr (neg_one_pow_eq_or ℚ _)

theorem IsSign.multiple_mul {e : ℤ} {b : ℕ} {x y : ℚ} (hx : IsSign x) (hy : Multiple e b y) :
    Multiple e b (x * y) := by
  rcases hx with rfl | rfl | rfl
  · rw [zero_mul]
    exact Multiple.zero.mono (Nat.zero_le b)
  · rwa [one_mul]
  · rw [neg_one_mul]
    exact hy.neg

theorem multiple_one : Multiple (-7) (2 ^ 7) 1 := ⟨2 ^ 7, by norm_num, by norm_num⟩

theorem IsSign.multiple {x : ℚ} (hx : IsSign x) : Multiple (-7) (2 ^ 7) x := by
  have h := hx.multiple_mul multiple_one
  rwa [mul_one] at h

theorem abs_neg_two_pow (c : ℕ) : |(-2 : ℤ) ^ c| = 2 ^ c := by
  rw [abs_pow, abs_neg, abs_two]

section Bounds

variable {k t : ℕ}

theorem multiple_pivot (hk : k ≤ 8) : Multiple (-7) (2 ^ 14) (sequencePivot k t) := by
  have hc : commonOnes k (t + 1) (t + 1) - 1 ≤ 7 := by
    have := commonOnes_self_le k (t + 1)
    omega
  rw [sequencePivot]
  generalize commonOnes k (t + 1) (t + 1) - 1 = c at hc
  refine ⟨(-2) ^ c * 2 ^ 7, ?_, ?_⟩
  · rw [abs_mul, abs_neg_two_pow, abs_pow, abs_two, ← pow_add]
    exact_mod_cast Nat.pow_le_pow_right (by omega) (by omega)
  · push_cast
    rw [mul_assoc]
    norm_num

theorem multiple_pivot_inv (hk : k ≤ 8) : Multiple (-7) (2 ^ 7) (sequencePivot k t)⁻¹ := by
  have hc : commonOnes k (t + 1) (t + 1) - 1 ≤ 7 := by
    have := commonOnes_self_le k (t + 1)
    omega
  rw [sequencePivot]
  generalize commonOnes k (t + 1) (t + 1) - 1 = c at hc
  refine ⟨(-1) ^ c * 2 ^ (7 - c), ?_, ?_⟩
  · rw [abs_mul, abs_neg_one_pow, one_mul, abs_pow, abs_two]
    exact_mod_cast Nat.pow_le_pow_right (by omega) (by omega)
  · interval_cases c <;> norm_num

variable {r : Rounding binary32} {l i j : ℕ}

/-- Single precision holds the multiples of 1/128 in question. -/
theorem representable_of_multiple {b : ℕ} {x : ℚ} (h : Multiple (-7) b x) (hb : b < 2 ^ 24) :
    binary32.Representable x := h.representable hb (by decide) (by decide)

/-- The matrices before pass `l`. -/
abbrev leftSequence (k l i j : ℕ) : ℚ :=
  leftAfter (fun i t => within ℚ k (i + 1) (t + 1)) (fun i t => mobius ℚ k (i + 1) (t + 1))
    (sequencePivot k) (2 ^ k - 1) l i j

abbrev rightSequence (k l i j : ℕ) : ℚ :=
  rightAfter (fun i t => within ℚ k (i + 1) (t + 1)) (fun i t => mobius ℚ k (i + 1) (t + 1))
    (sequencePivot k) l i j

theorem two_pow_le_256 (hk : k ≤ 8) : 2 ^ k ≤ 256 := Nat.pow_le_pow_right (by omega) hk

theorem multiple_left (hk : k ≤ 8) (hl : l ≤ 2 ^ k - 1) :
    Multiple (-7) (2 ^ 22) (leftSequence k l i j) := by
  have hn := two_pow_le_256 hk
  rw [leftSequence, leftAfter]
  split_ifs
  · refine (Multiple.sum fun t _ =>
      ((isSign_mobius k _ _).mul (isSign_within k _ _)).multiple).mono ?_
    rw [card_range]
    omega
  · refine (Multiple.sum (b := 2 ^ 14) fun t _ => ?_).mono ?_
    · rw [mul_comm]
      exact (isSign_within k _ _).multiple_mul
        ((isSign_within k _ _).multiple_mul (multiple_pivot hk))
    · rw [Nat.card_Ico]
      omega

theorem multiple_right (hk : k ≤ 8) (hl : l ≤ 2 ^ k - 1) :
    Multiple (-7) (2 ^ 22) (rightSequence k l i j) := by
  have hn := two_pow_le_256 hk
  rw [rightSequence, rightAfter]
  split_ifs with _ hij
  · refine (Multiple.sum (b := 2 ^ 7) fun t _ => ?_).mono ?_
    · rw [div_eq_mul_inv]
      exact ((isSign_mobius k _ _).mul (isSign_mobius k _ _)).multiple_mul (multiple_pivot_inv hk)
    · rw [card_range]
      omega
  · rw [sub_eq_add_neg]
    refine (multiple_one.add (Multiple.sum fun t _ =>
      ((isSign_within k _ _).mul (isSign_mobius k _ _)).multiple).neg).mono ?_
    rw [card_range]
    omega
  · rw [zero_sub]
    refine (Multiple.sum fun t _ =>
      ((isSign_within k _ _).mul (isSign_mobius k _ _)).multiple).neg.mono ?_
    rw [card_range]
    omega

/-- A factor times an entry of the divided pivot row, on the left. -/
theorem multiple_left_product (hk : k ≤ 8) (hl : l < 2 ^ k - 1) (hi : i < 2 ^ k - 1)
    (hne : i ≠ l) :
    Multiple (-7) (2 ^ 14) (leftSequence k l i l * within ℚ k (j + 1) (l + 1)) := by
  rw [leftSequence, (sequence_factors k).leftAfter_column hl hne hi, mul_comm]
  refine (isSign_within k _ _).multiple_mul ?_
  split_ifs
  · exact (isSign_mobius k _ _).multiple.neg.mono (by norm_num)
  · exact (isSign_within k _ _).multiple_mul (multiple_pivot hk)

/-- And on the right. -/
theorem multiple_right_product (hk : k ≤ 8) (hl : l < 2 ^ k - 1) (hi : i < 2 ^ k - 1)
    (hne : i ≠ l) :
    Multiple (-7) (2 ^ 14)
      (leftSequence k l i l * (mobius ℚ k (l + 1) (j + 1) / sequencePivot k l)) := by
  have hpivot : sequencePivot k l ≠ 0 := (sequence_factors k).diagonal l hl
  rw [leftSequence, (sequence_factors k).leftAfter_column hl hne hi]
  split_ifs
  · rw [div_eq_mul_inv, neg_mul, ← mul_assoc]
    exact ((((isSign_mobius k _ _).mul (isSign_mobius k _ _)).multiple_mul
      (multiple_pivot_inv hk)).neg).mono (by norm_num)
  · rw [mul_assoc, mul_div_cancel₀ _ hpivot]
    exact ((isSign_within k _ _).mul (isSign_mobius k _ _)).multiple.mono (by norm_num)

theorem eliminated_left (hk : k ≤ 8) (hl : l < 2 ^ k - 1) (hi : i < 2 ^ k - 1) :
    eliminated r (leftSequence k l) (leftSequence k l) l i j = leftSequence k (l + 1) i j := by
  have hfactors := sequence_factors k
  have hquotient := hfactors.left_quotient hl j
  have hclear := hfactors.clearColumn_left hl (j := j) hi
  rw [eliminated_eq r, hclear]
  · rw [hquotient]
    exact representable_of_multiple (isSign_within k _ _).multiple (by norm_num)
  · intro hne
    rw [hquotient]
    exact representable_of_multiple (multiple_left_product hk hl hi hne) (by norm_num)
  · rw [hclear]
    exact representable_of_multiple (multiple_left hk hl) (by norm_num)

theorem eliminated_right (hk : k ≤ 8) (hl : l < 2 ^ k - 1) (hi : i < 2 ^ k - 1)
    (hj : j < 2 ^ k - 1) :
    eliminated r (leftSequence k l) (rightSequence k l) l i j = rightSequence k (l + 1) i j := by
  have hfactors := sequence_factors k
  have hquotient := hfactors.right_quotient hl hj
  have hclear := hfactors.clearColumn_right hl hi hj
  rw [eliminated_eq r, hclear]
  · rw [hquotient, div_eq_mul_inv]
    exact representable_of_multiple ((isSign_mobius k _ _).multiple_mul (multiple_pivot_inv hk))
      (by norm_num)
  · intro hne
    rw [hquotient]
    exact representable_of_multiple (multiple_right_product hk hl hi hne) (by norm_num)
  · rw [hclear]
    exact representable_of_multiple (multiple_right hk hl) (by norm_num)

/-- Up to order 255 the elimination goes through in single precision, as in exact
arithmetic. -/
theorem sequence_passes (hk : k ≤ 8) (r : Rounding binary32) :
    Passes r (2 ^ k - 1) (leftSequence k) (rightSequence k) where
  pivot l hl := by
    rw [leftSequence, (sequence_factors k).pivot_eq hl]
    exact (sequence_factors k).diagonal l hl
  left l i j hl hi _ _ := eliminated_left hk hl hi
  left_cleared l i j hl hi hj := by
    have hcleared := fun l hl => ((sequence_factors k).reduced (l := l) hl).cleared
    rw [leftSequence, leftSequence, hcleared l hl.le i j hi hj,
      hcleared (l + 1) hl i j hi (by omega)]
  right l i j hl hi hj := eliminated_right hk hl hi hj
  identity i j hi hj := ((sequence_factors k).reduced le_rfl).cleared i j hi hj

end Bounds

/-! ## The inverse by elimination and in closed form -/

section Pair

variable {k : ℕ} {S W : Buffer MatrixElementType ((2 ^ k - 1) * (2 ^ k - 1))}

/-- `MatrixInit` for the square matrices of `main`. -/
def squareInstance (n : ℕ) (pData : Buffer MatrixElementType (n * n)) : MatrixInstance (n * n) :=
  armMatInitF32 (UInt16.ofNat n) (UInt16.ofNat n) pData

theorem squareInstance_numRows {n : ℕ} (hn : n < 2 ^ 16) (b : Buffer MatrixElementType (n * n)) :
    (squareInstance n b).numRows.toNat = n := by
  rw [squareInstance, armMatInitF32, UInt16.toNat_ofNat', Nat.mod_eq_of_lt hn]

/-- Up to the factor `256 / 2 ^ k`, elimination leaves the matrix of `createInverseMatrix`. -/
theorem armMatInverseF32_pair (hk : 1 ≤ k) (hk8 : k ≤ 8) (r : Rounding binary32)
    (h : IsSequencePair k S W) (d : Buffer MatrixElementType ((2 ^ k - 1) * (2 ^ k - 1))) :
    Ensures (armMatInverseF32 r (squareInstance (2 ^ k - 1) S) (squareInstance (2 ^ k - 1) d))
      fun q => q.1 = .success ∧ q.2.2.numCols = UInt16.ofNat (2 ^ k - 1) ∧ q.2.2.pData.Holds
        fun i j => 256 / 2 ^ k * W.value (i * (2 ^ k - 1) + j) := by
  have hle := two_pow_le_256 hk8
  have hpos : 2 ≤ 2 ^ k := Nat.pow_le_pow_right (show 0 < 2 by omega) hk
  have hfactors := sequence_factors k
  have hzero := hfactors.reduced (Nat.zero_le _)
  have hD : ∀ i j, i < 2 ^ k - 1 → j < 2 ^ k - 1 →
      rightSequence k 0 i j = if i = j then 1 else 0 :=
    fun i j hi hj => hzero.untouched i j hi (Nat.zero_le j) hj
  have hsrc : (squareInstance (2 ^ k - 1) S).pData.Holds (leftSequence k 0) := by
    intro i j hi hj
    rw [leftSequence, leftAfter, if_neg (Nat.not_lt_zero i), ← range_eq_Ico,
      ← hfactors.product i j hi hj]
    exact h.sequence_entry i j hi hj
  refine (armMatInverseF32_passes r (by omega) (sequence_passes hk8 r) hD
    (squareInstance_numRows (by omega) S) (squareInstance_numRows (by omega) S) hsrc).mono
    fun q hq => ⟨hq.1, hq.2.1, hq.2.2.congr fun i j hi hj => ?_⟩
  -- The inverse is unique.
  set D := leading (rightSequence k (2 ^ k - 1)) (2 ^ k - 1)
  have hDS : D * S.toMatrix (2 ^ k - 1) (2 ^ k - 1) = 1 := by
    rw [← (hfactors.reduced le_rfl).inverse]
    congr 1
    ext i j
    exact h.sequence_value i.isLt j.isLt
  have hSW : S.toMatrix (2 ^ k - 1) (2 ^ k - 1) * W.toMatrix (2 ^ k - 1) (2 ^ k - 1) =
      ((2 ^ k : ℚ) / 256) • (1 : Matrix (Fin (2 ^ k - 1)) (Fin (2 ^ k - 1)) ℚ) :=
    Buffer.toMatrix_mul_eq_smul_one fun _ _ hi hc => h.sum_row_mul_column hi hc
  have hW : ((2 ^ k : ℚ) / 256) • D = W.toMatrix (2 ^ k - 1) (2 ^ k - 1) := by
    calc ((2 ^ k : ℚ) / 256) • D
        = D * (S.toMatrix (2 ^ k - 1) (2 ^ k - 1) * W.toMatrix (2 ^ k - 1) (2 ^ k - 1)) := by
          rw [hSW, Matrix.mul_smul, mul_one]
      _ = W.toMatrix (2 ^ k - 1) (2 ^ k - 1) := by rw [← mul_assoc, hDS, one_mul]
  have hentry : (2 ^ k : ℚ) / 256 * rightSequence k (2 ^ k - 1) i j =
      W.value (i * (2 ^ k - 1) + j) := congrFun (congrFun hW ⟨i, hi⟩) ⟨j, hj⟩
  rw [← hentry]
  field_simp

theorem cell_eq_of_order_256 {S W b : Buffer MatrixElementType (255 * 255)}
    (h : IsSequencePair 8 S W) (hb : b.Holds fun i j => 256 / 2 ^ 8 * W.value (i * 255 + j)) :
    ∀ p < 255 * 255, b.cell p = W.cell p := by
  refine forall_of_rowMajor fun i j hi hj => ?_
  have hcell : W.cell (i * 255 + j) = .set (W.value (i * 255 + j)) :=
    h.inverse_assigned.stores _ (rowMajor_lt hi hj)
  rw [hb i j hi hj, hcell]
  norm_num

/-- For each order `n = 2 ^ k` up to 256, with any rounding and whatever the memory held,
`arm_mat_inverse_f32` inverts the sequence matrix without ever rounding: it leaves the
matrix of `createInverseMatrix` times `256 / n`, so the same block exactly for 256. -/
theorem armMatInverseF32_eq_createInverseMatrix_iff (k : ℕ) (hk : 1 ≤ k) (hk8 : k ≤ 8)
    (r : Rounding binary32) (stale : ℕ → Buffer MatrixElementType (2 ^ k))
    (junk : ℕ → ℕ → MatrixElementType) (memory : ℕ → MatrixElementType) (old : OldContents)
    (d : Buffer MatrixElementType ((2 ^ k - 1) * (2 ^ k - 1))) :
    ∃ H S W src dst, hadamard (2 ^ k) stale junk memory = .ok H ∧
      constructMatrices old H = .ok (S, W) ∧
      armMatInverseF32 r (squareInstance (2 ^ k - 1) S) (squareInstance (2 ^ k - 1) d) =
        .ok (.success, src, dst) ∧
      dst.pData.toMatrix (2 ^ k - 1) (2 ^ k - 1) =
        ((256 : ℚ) / 2 ^ k) • W.toMatrix (2 ^ k - 1) (2 ^ k - 1) ∧
      ((∀ p < (2 ^ k - 1) * (2 ^ k - 1), dst.pData.cell p = W.cell p) ↔ k = 8) := by
  obtain ⟨H, hrun, hH⟩ := hadamardWith_entries hk stale junk memory
  obtain ⟨⟨S, W⟩, hbuild, hpair⟩ := constructMatrices_ensures old hH
  obtain ⟨⟨_, src, dst⟩, hinverse, rfl, -, hdst⟩ := armMatInverseF32_pair hk hk8 r hpair d
  refine ⟨H, S, W, src, dst, (hadamard_two_pow (by omega) stale junk memory).trans hrun, hbuild,
    hinverse, ?_, fun hsame => ?_, ?_⟩
  · ext i j
    exact hdst.value_eq i.isLt j.isLt
  · have hpos : 2 ≤ 2 ^ k := Nat.pow_le_pow_right (show 0 < 2 by omega) hk
    have hcell := hsame 0 (Nat.mul_pos (by omega) (by omega))
    have hfirst := hdst 0 0 (by omega) (by omega)
    have hentry := hpair.inverse_entry 0 0 (by omega) (by omega)
    simp only [Nat.zero_mul, Nat.add_zero] at hfirst hentry
    rw [hfirst, hentry, Buffer.value, hentry, Cell.value_set] at hcell
    have hvalue := Cell.set.inj hcell
    -- The entry is not zero, so the factor is one.
    have hne : -sylvester ℚ k 1 1 / 128 ≠ 0 := by
      rcases sylvester_eq_or (R := ℚ) k 1 1 with hs | hs <;> norm_num [hs]
    have hfactor : (256 : ℚ) / 2 ^ k = 1 := mul_right_cancel₀ hne (hvalue.trans (one_mul _).symm)
    have hpow : (2 : ℚ) ^ k = 2 ^ 8 := by
      rw [div_eq_one_iff_eq (by positivity)] at hfactor
      rw [← hfactor]
      norm_num
    exact pow_right_injective₀ (by norm_num) (by norm_num) hpow
  · rintro rfl
    exact cell_eq_of_order_256 hpair hdst

end Pair

/-- Orders 4 and 256, in the default rounding. -/
theorem armMatInverseF32_eq_createInverseMatrix_iff_orders :
    (∃ H S W src dst, hadamard 4 (fun _ => .fill _ 7) (fun _ _ => 7) (fun _ => 7) = .ok H ∧
      constructMatrices ⟨fun _ => 7, fun _ => 7⟩ H = .ok (S, W) ∧
      armMatInverseF32 (toNearestEven binary32) (squareInstance 3 S)
        (squareInstance 3 (.fill _ 7)) = .ok (.success, src, dst) ∧
      dst.pData.toMatrix 3 3 = ((256 : ℚ) / 2 ^ 2) • W.toMatrix 3 3) ∧
    ∃ H S W src dst, hadamard 256 (fun _ => .fill _ 7) (fun _ _ => 7) (fun _ => 7) = .ok H ∧
      constructMatrices ⟨fun _ => 7, fun _ => 7⟩ H = .ok (S, W) ∧
      armMatInverseF32 (toNearestEven binary32) (squareInstance 255 S)
        (squareInstance 255 (.fill _ 7)) = .ok (.success, src, dst) ∧
      ∀ p < 255 * 255, dst.pData.cell p = W.cell p := by
  obtain ⟨H, S, W, src, dst, hH, hbuild, hinverse, hscaled, -⟩ :=
    armMatInverseF32_eq_createInverseMatrix_iff 2 (by decide) (by decide) (toNearestEven binary32)
      (fun _ => .fill _ 7) (fun _ _ => 7) (fun _ => 7) ⟨fun _ => 7, fun _ => 7⟩ (.fill _ 7)
  obtain ⟨H', S', W', src', dst', hH', hbuild', hinverse', -, hsame⟩ :=
    armMatInverseF32_eq_createInverseMatrix_iff 8 (by decide) (by decide) (toNearestEven binary32)
      (fun _ => .fill _ 7) (fun _ _ => 7) (fun _ => 7) ⟨fun _ => 7, fun _ => 7⟩ (.fill _ 7)
  exact ⟨⟨H, S, W, src, dst, hH, hbuild, hinverse, hscaled⟩,
    H', S', W', src', dst', hH', hbuild', hinverse', hsame.mpr rfl⟩

/-! ## The two ways to decode -/

section Decode

variable {f : Format} {n : ℕ}

/-- What `main` does with the measured matrix: it transposes it, multiplies it by the
inverse with `calculate`, and transposes the product. -/
def decodeByCalculate (r : Rounding f) (res : Pointer MatrixElementType (n * n))
    (pOverlapSignal pPrbsTemp : Buffer MatrixElementType (n * n)) :
    Except Fault (Buffer MatrixElementType (n * n)) := do
  let pOverlapSignal ← transposingMatrix n n pOverlapSignal
  match ← calculateRounded r n pOverlapSignal pPrbsTemp res with
  | none => .error .nullPointer
  | some pRecoverySignal => transposingMatrix n n pRecoverySignal

/-- The same with the call of `MatrixMultiply` that is commented out. -/
def decodeByMultiply (r : Rounding f)
    (matrixOverlapSignal matrixPrbsInverse matrixRecoverySignal : MatrixInstance (n * n)) :
    Except Fault (Buffer MatrixElementType (n * n)) := do
  let pOverlapSignal ← transposingMatrix n n matrixOverlapSignal.pData
  let (_, matrixRecoverySignal) ← armMatMultF32 r
    { matrixOverlapSignal with pData := pOverlapSignal } matrixPrbsInverse matrixRecoverySignal
  transposingMatrix n n matrixRecoverySignal.pData

/-- Equal inverses, equal results. -/
theorem decodeByMultiply_eq (hn : 0 < n) (hfits : (n - 1) * n < 2 ^ 16) (r : Rounding f)
    {O W R : Buffer MatrixElementType (n * n)} {V : MatrixInstance (n * n)} (hO : O.Assigned)
    (hW : W.Assigned) (hcols : V.numCols.toNat = n) (hVW : ∀ p < n * n, V.pData.cell p = W.cell p)
    (res : Buffer MatrixElementType (n * n)) :
    ∃ c c', decodeByCalculate r (some res) O W = .ok c ∧
      decodeByMultiply r (squareInstance n O) V (squareInstance n R) = .ok c' ∧
      ∀ p < n * n, c'.cell p = c.cell p := by
  have hlt : n < 2 ^ 16 := hcols ▸ V.numCols.toNat_lt
  obtain ⟨O', hO', hassigned, -⟩ := transposingMatrix_square hO
  have hV : V.pData.Assigned := fun p hp => by
    rw [hVW p hp]
    exact hW p hp
  obtain ⟨_, hcalculate, c, rfl, hc⟩ := calculateRounded_stores (r := r) hassigned hW res
  have hrows := squareInstance_numRows hlt O
  obtain ⟨⟨_, R'⟩, hmult, -, hR'⟩ := armMatMultF32_stores (r := r)
    { squareInstance n O with pData := O' } V (squareInstance n R)
    ⟨hrows, hrows⟩ hcols hassigned hV hn hn hfits
  obtain ⟨c₁, hc₁, -, hsquare₁⟩ := transposingMatrix_square hc.assigned
  obtain ⟨c₂, hc₂, -, hsquare₂⟩ := transposingMatrix_square hR'.assigned
  have hsame : ∀ p < n * n, R'.pData.cell p = c.cell p := by
    intro p hp
    have hcol : p % n < n := Nat.mod_lt p hn
    rw [hR' p hp, hc p hp]
    refine congrArg Cell.set (r.sum_congr fun k hk => ?_)
    rw [roundedTerm, roundedTerm, Buffer.value, Buffer.value, Buffer.value,
      hVW _ (rowMajor_lt hk hcol)]
  refine ⟨c₁, c₂, ?_, ?_, forall_of_rowMajor fun i j hi hj => ?_⟩
  · rw [decodeByCalculate, hO', ok_bind, hcalculate, ok_bind]
    exact hc₁
  · have hsrc : (squareInstance n O).pData = O := rfl
    rw [decodeByMultiply, hsrc, hO', ok_bind, hmult, ok_bind]
    exact hc₂
  · rw [hsquare₁ i j hi hj, hsquare₂ i j hi hj, hsame _ (rowMajor_lt hj hi)]

/-- For the shipped order, any rounding, any measured matrix and whatever the blocks held
before, inverting with `arm_mat_inverse_f32` and decoding with `arm_mat_mult_f32` gives the
recovered signal of `createInverseMatrix` and `calculate` bit for bit. -/
theorem decodeByMultiply_eq_decodeByCalculate (r : Rounding binary32)
    (stale : ℕ → Buffer MatrixElementType 256) (junk : ℕ → ℕ → MatrixElementType)
    (memory : ℕ → MatrixElementType) (old : OldContents)
    {O : Buffer MatrixElementType (255 * 255)} (hO : O.Assigned)
    (d R res : Buffer MatrixElementType (255 * 255)) :
    ∃ H S W src V c c', hadamard 256 stale junk memory = .ok H ∧
      constructMatrices old H = .ok (S, W) ∧
      armMatInverseF32 r (squareInstance 255 S) (squareInstance 255 d) = .ok (.success, src, V) ∧
      decodeByCalculate r (some res) O W = .ok c ∧
      decodeByMultiply r (squareInstance 255 O) V (squareInstance 255 R) = .ok c' ∧
      ∀ p < 255 * 255, c'.cell p = c.cell p := by
  obtain ⟨H, hrun, hH⟩ := hadamardWith_entries (k := 8) (by decide) stale junk memory
  obtain ⟨⟨S, W⟩, hbuild, hpair⟩ := constructMatrices_ensures old hH
  obtain ⟨⟨_, src, V⟩, hinverse, rfl, hcols, hV⟩ :=
    armMatInverseF32_pair (by decide) le_rfl r hpair d
  obtain ⟨c, c', hc, hc', hsame⟩ := decodeByMultiply_eq (R := R) (by decide) (by decide) r hO
    hpair.inverse_assigned (V := V) (congrArg UInt16.toNat hcols) (cell_eq_of_order_256 hpair hV)
    res
  have hsearch := hadamard_two_pow (k := 8) (by decide) stale junk memory
  exact ⟨H, S, W, src, V, c, c', hsearch.trans hrun, hbuild,
    hinverse, hc, hc', hsame⟩

/-- A measured matrix with all elements 1000. -/
theorem decodeByMultiply_eq_decodeByCalculate_constant :
    ∃ H S W src V c c', hadamard 256 (fun _ => .fill _ 7) (fun _ _ => 7) (fun _ => 7) = .ok H ∧
      constructMatrices ⟨fun _ => 7, fun _ => 7⟩ H = .ok (S, W) ∧
      armMatInverseF32 (toNearestEven binary32) (squareInstance 255 S)
        (squareInstance 255 (.fill _ 7)) = .ok (.success, src, V) ∧
      decodeByCalculate (toNearestEven binary32) (some (.fill _ 7))
        (.fill (255 * 255) 1000 : Buffer MatrixElementType _) W = .ok c ∧
      decodeByMultiply (toNearestEven binary32) (squareInstance 255 (.fill _ 1000)) V
        (squareInstance 255 (.fill _ 7)) = .ok c' ∧
      ∀ p < 255 * 255, c'.cell p = c.cell p :=
  decodeByMultiply_eq_decodeByCalculate (toNearestEven binary32) (fun _ => .fill _ 7)
    (fun _ _ => 7) (fun _ => 7) ⟨fun _ => 7, fun _ => 7⟩ (Buffer.assigned_fill 1000) (.fill _ 7)
    (.fill _ 7) (.fill _ 7)

end Decode

end HadamardIMS.MatrixFunctions
