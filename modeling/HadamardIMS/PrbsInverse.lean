import HadamardIMS.MatrixRoutines
import Mathlib.Tactic.Linarith

/-!
# The closed-form inverse of the sequence matrix

`main` builds the sequence matrix twice from one Hadamard matrix and overwrites
the second copy by its inverse. The copy becomes a matrix of signs over 128,
transposed; against it the rows of the sequence matrix sum to zero off the
diagonal and to the order over 256 on it.
-/
namespace HadamardIMS.Hadamard

open Loops Buffers Sylvester Finset

/-- What the blocks that `main` allocates for the two matrices held before. -/
structure OldContents where
  prbsTemp : ℕ → MatrixElementType
  prbs : ℕ → MatrixElementType

/-- The construction of `pPrbs` and `pPrbsTemp` in `main`, in this order of the
result, from the matrix that `hadamard` returned. -/
def constructMatrices (old : OldContents) {n : ℕ}
    (pHadamard : Buffer MatrixElementType (n * n)) :
    Except Fault (Buffer MatrixElementType ((n - 1) * (n - 1)) ×
      Buffer MatrixElementType ((n - 1) * (n - 1))) := do
  let pPrbsTemp ← prbs old.prbsTemp pHadamard
  let pPrbs ← prbs old.prbs pHadamard
  let pPrbsTemp ← createInverseMatrix pPrbsTemp
  pure (pPrbs, pPrbsTemp)

/-- The pair of matrices `main` works with, by their entries: the simplex core
and the transposed signs over 128. -/
structure IsSequencePair (k : ℕ)
    (S W : Buffer MatrixElementType ((2 ^ k - 1) * (2 ^ k - 1))) : Prop where
  sequence_entry : ∀ i j, i < 2 ^ k - 1 → j < 2 ^ k - 1 →
    S.cell (i * (2 ^ k - 1) + j) = .set (simplex ℚ k i j)
  inverse_entry : ∀ i j, i < 2 ^ k - 1 → j < 2 ^ k - 1 →
    W.cell (i * (2 ^ k - 1) + j) = .set (-sylvester ℚ k (j + 1) (i + 1) / 128)

/-- A block all of whose row-major entries are known is assigned throughout. -/
theorem assigned_of_entries {L : ℕ} {b : Buffer MatrixElementType (L * L)} {F : ℕ → ℕ → ℚ}
    (h : ∀ i j, i < L → j < L → b.cell (i * L + j) = .set (F i j)) : b.Assigned :=
  forall_of_rowMajor fun i j hi hj => ⟨F i j, h i j hi hj⟩

theorem constructMatrices_ensures {k : ℕ} (old : OldContents)
    {pHadamard : Buffer MatrixElementType (2 ^ k * 2 ^ k)}
    (hH : ∀ i j, i < 2 ^ k → j < 2 ^ k → pHadamard.cell (i * 2 ^ k + j) = .set (sylvester ℚ k i j)) :
    Ensures (constructMatrices old pHadamard) fun p => IsSequencePair k p.1 p.2 := by
  have hprbs : ∀ old, Ensures (prbs old pHadamard) fun b => ∀ i j, i < 2 ^ k - 1 → j < 2 ^ k - 1 →
      b.cell (i * (2 ^ k - 1) + j) = .set (simplex ℚ k i j) := by
    refine fun old => (prbs_ensures old hH fun i j => sylvester_eq_or k i j).mono ?_
    intro b hb i j hi hj
    simp only [hb _ (rowMajor_lt hi hj), rowMajor_div hj, rowMajor_mod hj, simplex]
  refine (hprbs old.prbsTemp).bind fun T hT => (hprbs old.prbs).bind fun S hS => ?_
  refine (createInverseMatrix_ensures (assigned_of_entries hT)).bind fun W hW => .ok ⟨hS, ?_⟩
  intro i j hi hj
  rw [hW.2 i j hi hj, Buffer.value, hT j i hj hi, Cell.value_set, simplex]
  rcases sylvester_eq_or (R := ℚ) k (j + 1) (i + 1) with h | h
  · rw [h]
    norm_num
  · rw [h]
    norm_num

namespace IsSequencePair

variable {k : ℕ} {S W : Buffer MatrixElementType ((2 ^ k - 1) * (2 ^ k - 1))}

theorem sequence_assigned (h : IsSequencePair k S W) : S.Assigned :=
  assigned_of_entries h.sequence_entry

theorem inverse_assigned (h : IsSequencePair k S W) : W.Assigned :=
  assigned_of_entries h.inverse_entry

theorem sequence_value (h : IsSequencePair k S W) {i j : ℕ} (hi : i < 2 ^ k - 1)
    (hj : j < 2 ^ k - 1) : S.value (i * (2 ^ k - 1) + j) = simplex ℚ k i j := by
  rw [Buffer.value, h.sequence_entry i j hi hj, Cell.value_set]

theorem inverse_value (h : IsSequencePair k S W) {i j : ℕ} (hi : i < 2 ^ k - 1)
    (hj : j < 2 ^ k - 1) :
    W.value (i * (2 ^ k - 1) + j) = -sylvester ℚ k (j + 1) (i + 1) / 128 := by
  rw [Buffer.value, h.inverse_entry i j hi hj, Cell.value_set]

theorem sequence_bit (h : IsSequencePair k S W) {i j : ℕ} (hi : i < 2 ^ k - 1)
    (hj : j < 2 ^ k - 1) :
    S.cell (i * (2 ^ k - 1) + j) = .set 0 ∨ S.cell (i * (2 ^ k - 1) + j) = .set 1 := by
  rw [h.sequence_entry i j hi hj]
  exact (simplex_eq_or k i j).imp (congrArg Cell.set) (congrArg Cell.set)

/-- Row `i` of the sequence matrix against column `c` of the inverse. -/
theorem sum_row_mul_column (h : IsSequencePair k S W) {i c : ℕ} (hi : i < 2 ^ k - 1)
    (hc : c < 2 ^ k - 1) :
    ∑ j ∈ range (2 ^ k - 1), S.value (i * (2 ^ k - 1) + j) * W.value (j * (2 ^ k - 1) + c) =
      if i = c then 2 ^ k / 256 else 0 := by
  have hterm : ∀ j ∈ range (2 ^ k - 1),
      S.value (i * (2 ^ k - 1) + j) * W.value (j * (2 ^ k - 1) + c) =
        simplex ℚ k i j * -sylvester ℚ k (c + 1) (j + 1) / 128 := by
    intro j hj
    rw [h.sequence_value hi (mem_range.mp hj), h.inverse_value (mem_range.mp hj) hc]
    ring
  rw [sum_congr rfl hterm, ← sum_div, sum_simplex_mul_sign hi hc]
  split_ifs <;> ring

/-- Both matrices are symmetric, so the product in the other order is the same. -/
theorem sum_column_mul_row (h : IsSequencePair k S W) {i c : ℕ} (hi : i < 2 ^ k - 1)
    (hc : c < 2 ^ k - 1) :
    ∑ j ∈ range (2 ^ k - 1), W.value (i * (2 ^ k - 1) + j) * S.value (j * (2 ^ k - 1) + c) =
      if i = c then 2 ^ k / 256 else 0 := by
  have hterm : ∀ j ∈ range (2 ^ k - 1),
      W.value (i * (2 ^ k - 1) + j) * S.value (j * (2 ^ k - 1) + c) =
        S.value (c * (2 ^ k - 1) + j) * W.value (j * (2 ^ k - 1) + i) := by
    intro j hj
    rw [h.sequence_value (mem_range.mp hj) hc, h.sequence_value hc (mem_range.mp hj),
      h.inverse_value hi (mem_range.mp hj), h.inverse_value (mem_range.mp hj) hi,
      simplex_comm, sylvester_comm, mul_comm]
  rw [sum_congr rfl hterm, h.sum_row_mul_column hc hi]
  simp only [eq_comm]

end IsSequencePair

/-- For each order `n = 2 ^ k` whose exponent `hadamard` has found, and whatever
the allocated memory held, the sequence matrix is assigned throughout with zeros
and ones, and the matrix that `createInverseMatrix` leaves is its two-sided
inverse up to the factor `n / 256`; exactly so for `n = 256`. The search of
`hadamard` finds the exponents up to nine. -/
theorem createInverseMatrix_inverse (k : ℕ) (hk : 1 ≤ k)
    (stale : ℕ → Buffer MatrixElementType (2 ^ k)) (junk : ℕ → ℕ → MatrixElementType)
    (memory : ℕ → MatrixElementType) (old : OldContents) :
    ∃ H S W, hadamardWith k (2 ^ k) stale junk memory = .ok H ∧
      (k ≤ 9 → hadamard (2 ^ k) stale junk memory = .ok H) ∧
      constructMatrices old H = .ok (S, W) ∧
      (∀ p < (2 ^ k - 1) * (2 ^ k - 1), S.cell p = .set 0 ∨ S.cell p = .set 1) ∧
      S.toMatrix (2 ^ k - 1) (2 ^ k - 1) * W.toMatrix (2 ^ k - 1) (2 ^ k - 1) =
        ((2 ^ k : ℚ) / 256) • (1 : Matrix (Fin (2 ^ k - 1)) (Fin (2 ^ k - 1)) ℚ) ∧
      W.toMatrix (2 ^ k - 1) (2 ^ k - 1) * S.toMatrix (2 ^ k - 1) (2 ^ k - 1) =
        ((2 ^ k : ℚ) / 256) • (1 : Matrix (Fin (2 ^ k - 1)) (Fin (2 ^ k - 1)) ℚ) ∧
      ((S.toMatrix (2 ^ k - 1) (2 ^ k - 1) * W.toMatrix (2 ^ k - 1) (2 ^ k - 1) = 1 ∧
        W.toMatrix (2 ^ k - 1) (2 ^ k - 1) * S.toMatrix (2 ^ k - 1) (2 ^ k - 1) = 1) ↔
        2 ^ k = 256) := by
  obtain ⟨H, hrun, hH⟩ := hadamardWith_entries hk stale junk memory
  obtain ⟨⟨S, W⟩, hbuild, hpair⟩ := constructMatrices_ensures old hH
  have hSW : S.toMatrix (2 ^ k - 1) (2 ^ k - 1) * W.toMatrix (2 ^ k - 1) (2 ^ k - 1) =
      ((2 ^ k : ℚ) / 256) • (1 : Matrix (Fin (2 ^ k - 1)) (Fin (2 ^ k - 1)) ℚ) :=
    Buffer.toMatrix_mul_eq_smul_one fun _ _ hi hc => hpair.sum_row_mul_column hi hc
  have hWS : W.toMatrix (2 ^ k - 1) (2 ^ k - 1) * S.toMatrix (2 ^ k - 1) (2 ^ k - 1) =
      ((2 ^ k : ℚ) / 256) • (1 : Matrix (Fin (2 ^ k - 1)) (Fin (2 ^ k - 1)) ℚ) :=
    Buffer.toMatrix_mul_eq_smul_one fun _ _ hi hc => hpair.sum_column_mul_row hi hc
  refine ⟨H, S, W, hrun, fun h => by rw [hadamard_two_pow h, hrun], hbuild, ?_, hSW, hWS, ?_⟩
  · exact forall_of_rowMajor fun i j hi hj => hpair.sequence_bit hi hj
  · rw [hSW, hWS, and_self]
    -- The core is not empty, so the factor decides.
    have hpos : 0 < 2 ^ k - 1 := by
      have := Nat.pow_le_pow_right (show 0 < 2 by omega) hk
      omega
    constructor
    · intro h
      have hentry := congrFun (congrFun h ⟨0, hpos⟩) ⟨0, hpos⟩
      simp only [Matrix.smul_apply, Matrix.one_apply_eq, smul_eq_mul, mul_one] at hentry
      have hq : (2 ^ k : ℚ) = 256 := by linarith
      exact_mod_cast hq
    · intro h
      have hq : (2 ^ k : ℚ) = 256 := by exact_mod_cast h
      rw [hq, div_self (by norm_num), one_smul]

/-- The restriction on the exponent is needed: for order 1024 the search ends
without a match and `iteration` is read unassigned. -/
theorem not_inverse_for_every_exponent :
    ¬ ∀ k, 1 ≤ k → ∀ (stale : ℕ → Buffer MatrixElementType (2 ^ k))
      (junk : ℕ → ℕ → MatrixElementType) (memory : ℕ → MatrixElementType) (old : OldContents),
      ∃ H S W, hadamard (2 ^ k) stale junk memory = .ok H ∧
        constructMatrices old H = .ok (S, W) ∧
        (∀ p < (2 ^ k - 1) * (2 ^ k - 1), S.cell p = .set 0 ∨ S.cell p = .set 1) ∧
        S.toMatrix (2 ^ k - 1) (2 ^ k - 1) * W.toMatrix (2 ^ k - 1) (2 ^ k - 1) =
          ((2 ^ k : ℚ) / 256) • (1 : Matrix (Fin (2 ^ k - 1)) (Fin (2 ^ k - 1)) ℚ) := by
  intro h
  obtain ⟨H, -, -, hH, -⟩ := h 10 (by decide) (fun _ => .fill _ 0) (fun _ _ => 0) (fun _ => 0)
    ⟨fun _ => 0, fun _ => 0⟩
  have hfault : hadamard (2 ^ 10) (fun _ => .fill _ 0) (fun _ _ => 0) (fun _ => 0) =
      .error .unassigned := rfl
  rw [hfault] at hH
  cases hH

theorem createInverseMatrix_inverse_shipped :
    ∃ H S W, hadamard 256 (fun _ => .fill _ 7) (fun _ _ => 7) (fun _ => 7) = .ok H ∧
      constructMatrices ⟨fun _ => 7, fun _ => 7⟩ H = .ok (S, W) ∧
      S.toMatrix 255 255 * W.toMatrix 255 255 = 1 ∧
      W.toMatrix 255 255 * S.toMatrix 255 255 = 1 := by
  obtain ⟨H, S, W, -, hH, hbuild, -, -, -, hexact⟩ := createInverseMatrix_inverse 8 (by decide)
    (fun _ => .fill _ 7) (fun _ _ => 7) (fun _ => 7) ⟨fun _ => 7, fun _ => 7⟩
  exact ⟨H, S, W, hH (by decide), hbuild, hexact.mpr (by decide)⟩

end HadamardIMS.Hadamard
