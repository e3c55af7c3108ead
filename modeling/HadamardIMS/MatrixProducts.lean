import HadamardIMS.MatrixInverse
import HadamardIMS.Precision

/-!
# `arm_mat_mult_f32` and `arm_mat_trans_f32`

The branches for the Cortex-M4, without the size checks, which the build leaves out.
The loops are unrolled four times, the row and column counters count down from their
16-bit start to zero, and the products are taken with any rounding. The offset of a
row of the product is a 16-bit number too.
-/
namespace HadamardIMS.MatrixFunctions

open Loops Buffers Hadamard Significands Precision

variable {f : Format} {sizeA sizeB sizeD : ℕ}

/-! ## The product -/

/-- The accumulator and the two pointers of the innermost loops. -/
structure MacLocals where
  sum : MatrixElementType
  pIn1 : ℕ
  pIn2 : ℕ

section Mac

variable (r : Rounding f) (numColsB : ℕ) (a : Buffer MatrixElementType sizeA)
  (b : Buffer MatrixElementType sizeB)

/-- The four multiplications of an unrolled pass. -/
def macFour (s : MacLocals) : Except Fault MacLocals := do
  let in3 ← b.read s.pIn2
  let pIn2 := s.pIn2 + numColsB
  let in1 ← a.read s.pIn1
  let in2 ← a.read (s.pIn1 + 1)
  let sum := r.add s.sum (r.mul in1 in3)
  let in4 ← b.read pIn2
  let pIn2 := pIn2 + numColsB
  let sum := r.add sum (r.mul in2 in4)
  let in3 ← b.read pIn2
  let pIn2 := pIn2 + numColsB
  let in1 ← a.read (s.pIn1 + 2)
  let in2 ← a.read (s.pIn1 + 3)
  let sum := r.add sum (r.mul in1 in3)
  let in4 ← b.read pIn2
  let pIn2 := pIn2 + numColsB
  let sum := r.add sum (r.mul in2 in4)
  pure ⟨sum, s.pIn1 + 4, pIn2⟩

/-- One of the multiplications that remain. -/
def macOne (s : MacLocals) : Except Fault MacLocals := do
  let in1 ← a.read s.pIn1
  let in2 ← b.read s.pIn2
  pure ⟨r.add s.sum (r.mul in1 in2), s.pIn1 + 1, s.pIn2 + numColsB⟩

/-- The variables of the loop over the columns. -/
structure ColumnLocals (sizeD : ℕ) where
  dst : Buffer MatrixElementType sizeD
  px : ℕ
  pIn2 : ℕ
  j : UInt16

/-- One pass of the loop over the columns. -/
def multColumn (numColsA pInA : ℕ) (c : ColumnLocals sizeD) :
    Except Fault (ColumnLocals sizeD) := do
  let s ← unrolled 4 numColsA (macFour r numColsB a b) (macOne r numColsB a b) ⟨0, pInA, c.pIn2⟩
  let dst ← c.dst.write c.px s.sum
  let j := c.j + 1
  pure ⟨dst, c.px + 1, j.toNat, j⟩

/-- The variables of the loop over the rows. -/
structure MultLocals (sizeD : ℕ) where
  dst : Buffer MatrixElementType sizeD
  i : UInt16
  pInA : ℕ

/-- One pass of the loop over the rows. -/
def multRow (numColsA : ℕ) (q : MultLocals sizeD) : Except Fault (MultLocals sizeD) := do
  let c ← doCountdown 16 numColsB (multColumn r numColsB a b numColsA q.pInA)
    ⟨q.dst, q.i.toNat, 0, 0⟩
  pure ⟨c.dst, q.i + UInt16.ofNat numColsB, q.pInA + numColsA⟩

end Mac

/-- `arm_mat_mult_f32`. -/
def armMatMultF32 (r : Rounding f) (pSrcA : MatrixInstance sizeA) (pSrcB : MatrixInstance sizeB)
    (pDst : MatrixInstance sizeD) : Except Fault (ArmStatus × MatrixInstance sizeD) := do
  let q ← doCountdown 16 pSrcA.numRows.toNat
    (multRow r pSrcB.numCols.toNat pSrcA.pData pSrcB.pData pSrcA.numCols.toNat) ⟨pDst.pData, 0, 0⟩
  pure (.success, { pDst with pData := q.dst })

section Product

variable (r : Rounding f) {aRow aCol bCol : ℕ} {a : Buffer MatrixElementType (aRow * aCol)}
  {b : Buffer MatrixElementType (aCol * bCol)}

/-- A product of the entry `(row, col)`, rounded. -/
def roundedTerm (a : Buffer MatrixElementType sizeA) (b : Buffer MatrixElementType sizeB)
    (aCol bCol row col k : ℕ) : ℚ :=
  r.mul (a.value (row * aCol + k)) (b.value (k * bCol + col))

/-- The entry `(row, col)` in the order in which the loops add the products. -/
def roundedEntry (a : Buffer MatrixElementType sizeA) (b : Buffer MatrixElementType sizeB)
    (aCol bCol row col : ℕ) : ℚ := r.sum (roundedTerm r a b aCol bCol row col) aCol

/-- The accumulator after `k` products. -/
structure Accumulated (a : Buffer MatrixElementType sizeA) (b : Buffer MatrixElementType sizeB)
    (aCol bCol row col k : ℕ) (s : MacLocals) : Prop where
  sum : s.sum = r.sum (roundedTerm r a b aCol bCol row col) k
  pIn1 : s.pIn1 = row * aCol + k
  pIn2 : s.pIn2 = k * bCol + col

variable {r} {row col k : ℕ} {s : MacLocals}

theorem macOne_ensures (ha : a.Assigned) (hb : b.Assigned) (hrow : row < aRow) (hcol : col < bCol)
    (hk : k < aCol) (h : Accumulated r a b aCol bCol row col k s) :
    Ensures (macOne r bCol a b s) (Accumulated r a b aCol bCol row col (k + 1)) := by
  simp only [macOne, h.pIn1, h.pIn2, ha.stores.read (rowMajor_lt hrow hk),
    hb.stores.read (rowMajor_lt hk hcol), ok_bind]
  refine .pure ⟨?_, rfl, by ring⟩
  rw [Rounding.sum, ← h.sum]
  rfl

/-- A block reads in another order than four passes, but adds in the same. -/
theorem macFour_ensures (ha : a.Assigned) (hb : b.Assigned) (hrow : row < aRow) (hcol : col < bCol)
    (hk : k + 4 ≤ aCol) (h : Accumulated r a b aCol bCol row col k s) :
    Ensures (macFour r bCol a b s) (Accumulated r a b aCol bCol row col (k + 4)) := by
  have hreadA : ∀ t < 4, a.read (s.pIn1 + t) = .ok (a.value (row * aCol + (k + t))) := by
    intro t ht
    rw [h.pIn1, Nat.add_assoc]
    exact ha.stores.read (rowMajor_lt hrow (by omega))
  have hreadB : ∀ t < 4, b.read (s.pIn2 + t * bCol) = .ok (b.value ((k + t) * bCol + col)) := by
    intro t ht
    rw [h.pIn2, show k * bCol + col + t * bCol = (k + t) * bCol + col by ring]
    exact hb.stores.read (rowMajor_lt (by omega) hcol)
  have hB0 := hreadB 0 (by omega)
  have hB1 := hreadB 1 (by omega)
  have hB2 := hreadB 2 (by omega)
  have hB3 := hreadB 3 (by omega)
  rw [Nat.zero_mul, Nat.add_zero] at hB0
  rw [Nat.one_mul] at hB1
  rw [show s.pIn2 + 2 * bCol = s.pIn2 + bCol + bCol by ring] at hB2
  rw [show s.pIn2 + 3 * bCol = s.pIn2 + bCol + bCol + bCol by ring] at hB3
  have hA0 := hreadA 0 (by omega)
  rw [Nat.add_zero] at hA0
  simp only [macFour, hB0, hB1, hB2, hB3, hA0, hreadA 1 (by omega), hreadA 2 (by omega),
    hreadA 3 (by omega), ok_bind]
  refine .pure ⟨?_, ?_, ?_⟩
  · simp only [Rounding.sum, ← h.sum]
    rfl
  · change s.pIn1 + 4 = _
    rw [h.pIn1]
    ring
  · change s.pIn2 + bCol + bCol + bCol + bCol = _
    rw [h.pIn2]
    ring

/-- The columns below `j` of a row are in place, from offset `off` on. -/
structure ColumnsDone (r : Rounding f) (a : Buffer MatrixElementType sizeA)
    (b : Buffer MatrixElementType sizeB) (aCol bCol row off j : ℕ)
    (old : Buffer MatrixElementType sizeD) (c : ColumnLocals sizeD) : Prop where
  px : c.px = off + j
  pIn2 : c.pIn2 = j
  counter : c.j.toNat = j
  cells : ∀ p, c.dst.cell p =
    if off ≤ p ∧ p < off + j then .set (roundedEntry r a b aCol bCol row (p - off)) else old.cell p

theorem multColumn_ensures (ha : a.Assigned) (hb : b.Assigned) (hrow : row < aRow) {j off : ℕ}
    (hj : j < bCol) (hbCol : bCol < 2 ^ 16) {old : Buffer MatrixElementType sizeD}
    (hoff : off + bCol ≤ sizeD) {c : ColumnLocals sizeD}
    (h : ColumnsDone r a b aCol bCol row off j old c) :
    Ensures (multColumn r bCol a b aCol (row * aCol) c)
      (ColumnsDone r a b aCol bCol row off (j + 1) old) := by
  obtain ⟨s, hrun, hs⟩ := unrolled_ensures (n := aCol)
    (fun k => Accumulated r a b aCol bCol row j k) (s := ⟨0, row * aCol, c.pIn2⟩)
    ⟨rfl, rfl, by rw [h.pIn2, Nat.zero_mul, Nat.zero_add]⟩
    (fun k t hk ht => macFour_ensures ha hb hrow hj hk ht)
    (fun k t hk ht => macOne_ensures ha hb hrow hj hk ht)
  have hnext : (c.j + 1).toNat = j + 1 := by
    rw [UInt16.toNat_add, h.counter]
    exact Nat.mod_eq_of_lt (by change j + 1 < 2 ^ 16; omega)
  rw [multColumn, hrun, ok_bind, Buffer.write_of_lt _ _ (by rw [h.px]; omega), ok_bind]
  refine .pure ⟨?_, hnext, hnext, fun p => ?_⟩
  · change c.px + 1 = off + (j + 1)
    rw [h.px, Nat.add_assoc]
  · change (c.dst.put c.px s.sum).cell p = _
    rw [Buffer.cell_put, h.cells, h.px]
    by_cases hp : p = off + j
    · rw [if_pos hp, if_pos (by omega), hs.sum, hp, Nat.add_sub_cancel_left]
      rfl
    · rw [if_neg hp]
      exact if_congr (by omega) rfl rfl

/-- A pass over row `row` writes the entries of the row from offset `i` on. -/
theorem multRow_ensures (ha : a.Assigned) (hb : b.Assigned) (hrow : row < aRow) (hpos : 0 < bCol)
    (hbCol : bCol < 2 ^ 16) {q : MultLocals sizeD} (hoff : q.i.toNat + bCol ≤ sizeD)
    (hpInA : q.pInA = row * aCol) (hi : q.i.toNat = row * bCol % 2 ^ 16) :
    Ensures (multRow r bCol a b aCol q) fun q' => q'.pInA = (row + 1) * aCol ∧
      q'.i.toNat = (row + 1) * bCol % 2 ^ 16 ∧ ∀ p, q'.dst.cell p =
        if q.i.toNat ≤ p ∧ p < q.i.toNat + bCol then
          .set (roundedEntry r a b aCol bCol row (p - q.i.toNat))
        else q.dst.cell p := by
  rw [multRow, hpInA]
  refine (doCountdown_ensures (fun j => ColumnsDone r a b aCol bCol row q.i.toNat j q.dst) hpos
    ⟨rfl, rfl, rfl, fun p => by rw [if_neg (by omega)]⟩
    fun j c hj hc => multColumn_ensures ha hb hrow hj hbCol hoff hc).bind fun c hc =>
    .pure ⟨(Nat.succ_mul row aCol).symm, ?_, hc.cells⟩
  change (q.i + UInt16.ofNat bCol).toNat = _
  rw [UInt16.toNat_add, hi, UInt16.toNat_ofNat', Nat.succ_mul, ← Nat.add_mod]

/-- What `calculate` leaves, with any rounding. -/
theorem calculateRounded_stores (ha : a.Assigned) (hb : b.Assigned)
    (c : Buffer MatrixElementType (aRow * bCol)) :
    Ensures (calculateRounded r aCol a b (some c)) fun res => ∃ c', res = some c' ∧
      c'.Stores fun p => roundedEntry r a b aCol bCol (p / bCol) (p % bCol) := by
  refine forRange_rowMajor_ensures (fun m (res : Pointer MatrixElementType (aRow * bCol)) =>
    ∃ c', res = some c' ∧
      c'.FilledTo m fun p => roundedEntry r a b aCol bCol (p / bCol) (p % bCol))
    ⟨c, rfl, Buffer.filledTo_zero _ _⟩ ?_
  rintro row col res hrow hcol ⟨c, rfl, hfilled⟩
  have hlt := rowMajor_lt hrow hcol
  rw [accumulateTo, Pointer.store_some_of_lt _ _ hlt]
  refine (forRange_zero_ensures (fun k (res : Pointer MatrixElementType (aRow * bCol)) =>
    ∃ c', res = some c' ∧
      c'.cell (row * bCol + col) = .set (r.sum (roundedTerm r a b aCol bCol row col) k) ∧
      ∀ p ≠ row * bCol + col, c'.cell p = c.cell p)
    ⟨_, rfl, by simp [Rounding.sum], fun p hp => by simp [hp]⟩ ?_).mono ?_
  · rintro k res hk ⟨c', rfl, hsum, hrest⟩
    have hload : Pointer.load (some c') (row * bCol + col) =
        .ok (r.sum (roundedTerm r a b aCol bCol row col) k) := Buffer.read_of_set hlt hsum
    simp only [accumulate, hload, ha.stores.read (rowMajor_lt hrow hk),
      hb.stores.read (rowMajor_lt hk hcol), ok_bind, Pointer.store_some_of_lt _ _ hlt]
    exact .ok ⟨_, rfl, by simp [Rounding.sum, roundedTerm], fun p hp => by simp [hp, hrest p hp]⟩
  · rintro res ⟨c', rfl, hsum, hrest⟩
    refine ⟨c', rfl, fun p hp => ?_⟩
    by_cases hpe : p = row * bCol + col
    · simp only [hpe, hsum, rowMajor_div hcol, rowMajor_mod hcol, roundedEntry]
    · rw [hrest p hpe]
      exact hfilled p (by omega)

/-- While the offsets fit into 16 bits, the product goes row by row into its place. -/
theorem armMatMultF32_stores (pSrcA : MatrixInstance (aRow * aCol))
    (pSrcB : MatrixInstance (aCol * bCol)) (pDst : MatrixInstance (aRow * bCol))
    (hA : pSrcA.numRows.toNat = aRow ∧ pSrcA.numCols.toNat = aCol) (hB : pSrcB.numCols.toNat = bCol)
    (ha : pSrcA.pData.Assigned) (hb : pSrcB.pData.Assigned) (hrow : 0 < aRow) (hcol : 0 < bCol)
    (hfits : (aRow - 1) * bCol < 2 ^ 16) :
    Ensures (armMatMultF32 r pSrcA pSrcB pDst) fun p => p.1 = .success ∧
      p.2.pData.Stores fun t =>
        roundedEntry r pSrcA.pData pSrcB.pData aCol bCol (t / bCol) (t % bCol) := by
  have hbCol : bCol < 2 ^ 16 := hB ▸ pSrcB.numCols.toNat_lt
  rw [armMatMultF32, hA.1, hA.2, hB]
  refine (doCountdown_ensures (fun t (q : MultLocals (aRow * bCol)) => q.pInA = t * aCol ∧
    q.i.toNat = t * bCol % 2 ^ 16 ∧ q.dst.FilledTo (t * bCol) fun t =>
      roundedEntry r pSrcA.pData pSrcB.pData aCol bCol (t / bCol) (t % bCol)) hrow
    ⟨(Nat.zero_mul _).symm, by simp, by simpa using Buffer.filledTo_zero _ _⟩ ?_).bind
    fun q hq => .pure ⟨rfl, hq.2.2⟩
  rintro t q ht ⟨hpInA, hi, hfilled⟩
  -- No offset up to the last one has been reduced.
  have hle : t * bCol ≤ (aRow - 1) * bCol := Nat.mul_le_mul_right bCol (by omega)
  have hoff : q.i.toNat = t * bCol := hi.trans (Nat.mod_eq_of_lt (by omega))
  have hend : t * bCol + bCol ≤ aRow * bCol := by
    rw [← Nat.succ_mul]
    exact Nat.mul_le_mul_right bCol ht
  refine (multRow_ensures ha hb ht hcol hbCol (by omega) hpInA hi).mono fun q' h =>
    ⟨h.1, h.2.1, fun p hp => ?_⟩
  rw [h.2.2, hoff]
  rw [Nat.succ_mul] at hp
  by_cases hin : t * bCol ≤ p
  · rw [if_pos ⟨hin, hp⟩]
    obtain ⟨c, rfl⟩ := Nat.exists_eq_add_of_le hin
    simp only [Nat.add_sub_cancel_left, rowMajor_div (show c < bCol by omega),
      rowMajor_mod (show c < bCol by omega)]
  · rw [if_neg (by omega)]
    exact hfilled p (by omega)

/-- Otherwise no pass reaches the last element. -/
theorem armMatMultF32_last (pSrcA : MatrixInstance (aRow * aCol))
    (pSrcB : MatrixInstance (aCol * bCol)) (pDst : MatrixInstance (aRow * bCol))
    (hA : pSrcA.numRows.toNat = aRow ∧ pSrcA.numCols.toNat = aCol) (hB : pSrcB.numCols.toNat = bCol)
    (ha : pSrcA.pData.Assigned) (hb : pSrcB.pData.Assigned) (hrow : 0 < aRow) (hcol : 0 < bCol)
    (hwraps : 2 ^ 16 ≤ (aRow - 1) * bCol) :
    Ensures (armMatMultF32 r pSrcA pSrcB pDst) fun p => p.1 = .success ∧
      p.2.pData.cell (aRow * bCol - 1) = pDst.pData.cell (aRow * bCol - 1) := by
  have hbCol : bCol < 2 ^ 16 := hB ▸ pSrcB.numCols.toNat_lt
  have hsize : aRow * bCol = (aRow - 1) * bCol + bCol := by
    rw [← Nat.succ_mul, Nat.succ_eq_add_one, Nat.sub_add_cancel hrow]
  rw [armMatMultF32, hA.1, hA.2, hB]
  refine (doCountdown_ensures (fun t (q : MultLocals (aRow * bCol)) => q.pInA = t * aCol ∧
    q.i.toNat = t * bCol % 2 ^ 16 ∧
    q.dst.cell (aRow * bCol - 1) = pDst.pData.cell (aRow * bCol - 1)) hrow
    ⟨(Nat.zero_mul _).symm, by simp, rfl⟩ ?_).bind fun q hq => .pure ⟨rfl, hq.2.2⟩
  rintro t q ht ⟨hpInA, hi, hlast⟩
  have hoff : q.i.toNat < 2 ^ 16 := q.i.toNat_lt
  refine (multRow_ensures ha hb ht hcol hbCol (by omega) hpInA hi).mono fun q' h =>
    ⟨h.1, h.2.1, ?_⟩
  rw [h.2.2, if_neg (by omega), hlast]

/-- For all matrices with at least one row and one column that have been assigned, and with
any rounding, `arm_mat_mult_f32` returns without a fault. In a fresh block it leaves what
`calculate` leaves, bit for bit, exactly if the offset of the last row is below `2 ^ 16`;
from there on offsets wrap around and the last cell of the product is never written. -/
theorem armMatMultF32_eq_calculate_iff (r : Rounding f) (pSrcA : MatrixInstance (aRow * aCol))
    (pSrcB : MatrixInstance (aCol * bCol)) (pDst : MatrixInstance (aRow * bCol))
    (hA : pSrcA.numRows.toNat = aRow ∧ pSrcA.numCols.toNat = aCol) (hB : pSrcB.numCols.toNat = bCol)
    (ha : pSrcA.pData.Assigned) (hb : pSrcB.pData.Assigned) (hrow : 0 < aRow) (hcol : 0 < bCol)
    (junk : ℕ → MatrixElementType) (hfresh : pDst.pData = Buffer.malloc (aRow * bCol) junk)
    (res : Buffer MatrixElementType (aRow * bCol)) :
    ∃ dst c, armMatMultF32 r pSrcA pSrcB pDst = .ok (.success, dst) ∧
      calculateRounded r aCol pSrcA.pData pSrcB.pData (some res) = .ok (some c) ∧
      ((∀ p < aRow * bCol, dst.pData.cell p = c.cell p) ↔ (aRow - 1) * bCol < 2 ^ 16) ∧
      (2 ^ 16 ≤ (aRow - 1) * bCol →
        dst.pData.cell (aRow * bCol - 1) = pDst.pData.cell (aRow * bCol - 1)) := by
  obtain ⟨_, hcalculate, c, rfl, hc⟩ := calculateRounded_stores (r := r) ha hb res
  by_cases hfits : (aRow - 1) * bCol < 2 ^ 16
  · obtain ⟨⟨_, dst⟩, hrun, rfl, hdst⟩ :=
      armMatMultF32_stores (r := r) pSrcA pSrcB pDst hA hB ha hb hrow hcol hfits
    have hsame : ∀ p < aRow * bCol, dst.pData.cell p = c.cell p :=
      fun p hp => (hdst p hp).trans (hc p hp).symm
    exact ⟨dst, c, hrun, hcalculate, iff_of_true hsame hfits, fun hwraps => by omega⟩
  · obtain ⟨⟨_, dst⟩, hrun, rfl, hlast⟩ :=
      armMatMultF32_last (r := r) pSrcA pSrcB pDst hA hB ha hb hrow hcol (not_lt.mp hfits)
    have hpos : 0 < aRow * bCol := Nat.mul_pos hrow hcol
    refine ⟨dst, c, hrun, hcalculate, iff_of_false (fun hsame => ?_) hfits, fun _ => hlast⟩
    -- The last element is still what the memory held.
    have hcell := hsame (aRow * bCol - 1) (by omega)
    rw [hlast, hc _ (by omega), hfresh] at hcell
    exact nomatch hcell

end Product

/-- Matrices of zeros of the order that `main` uses, and of the next one, for which the
offsets wrap around. -/
theorem armMatMultF32_eq_calculate_iff_shipped :
    ∃ dst c dst' c',
      armMatMultF32 (toNearestEven binary32) (armMatInitF32 255 255 (.fill (255 * 255) 0))
        (armMatInitF32 255 255 (.fill (255 * 255) 0))
        (armMatInitF32 255 255 (.malloc (255 * 255) fun _ => 7)) = .ok (.success, dst) ∧
      calculateRounded (toNearestEven binary32) 255 (.fill (255 * 255) 0) (.fill (255 * 255) 0)
        (some (.fill (255 * 255) 7 : Buffer MatrixElementType _)) = .ok (some c) ∧
      (∀ p < 255 * 255, dst.pData.cell p = c.cell p) ∧
      armMatMultF32 (toNearestEven binary32) (armMatInitF32 511 511 (.fill (511 * 511) 0))
        (armMatInitF32 511 511 (.fill (511 * 511) 0))
        (armMatInitF32 511 511 (.malloc (511 * 511) fun _ => 7)) = .ok (.success, dst') ∧
      calculateRounded (toNearestEven binary32) 511 (.fill (511 * 511) 0) (.fill (511 * 511) 0)
        (some (.fill (511 * 511) 7 : Buffer MatrixElementType _)) = .ok (some c') ∧
      (¬ ∀ p < 511 * 511, dst'.pData.cell p = c'.cell p) ∧
      dst'.pData.cell (511 * 511 - 1) = .junk 7 := by
  obtain ⟨dst, c, hdst, hc, hiff, -⟩ := armMatMultF32_eq_calculate_iff (toNearestEven binary32)
    (armMatInitF32 255 255 (.fill (255 * 255) 0)) (armMatInitF32 255 255 (.fill (255 * 255) 0))
    (armMatInitF32 255 255 (.malloc (255 * 255) fun _ => 7)) ⟨rfl, rfl⟩ rfl
    (Buffer.assigned_fill 0) (Buffer.assigned_fill 0) (by decide) (by decide) _ rfl (.fill _ 7)
  obtain ⟨dst', c', hdst', hc', hiff', hlast⟩ := armMatMultF32_eq_calculate_iff (toNearestEven binary32)
    (armMatInitF32 511 511 (.fill (511 * 511) 0)) (armMatInitF32 511 511 (.fill (511 * 511) 0))
    (armMatInitF32 511 511 (.malloc (511 * 511) fun _ => 7)) ⟨rfl, rfl⟩ rfl
    (Buffer.assigned_fill 0) (Buffer.assigned_fill 0) (by decide) (by decide) _ rfl (.fill _ 7)
  exact ⟨dst, c, dst', c', hdst, hc, hiff.mpr (by decide), hdst', hc',
    fun h => absurd (hiff'.mp h) (by decide), hlast (by decide)⟩

/-! ## The transpose -/

/-- The two pointers of the loops over the columns. -/
structure TransLocals (sizeD : ℕ) where
  dst : Buffer MatrixElementType sizeD
  pIn : ℕ
  px : ℕ

/-- `*px = *pIn++; px += nRows;` -/
def transOne (nRows : ℕ) (src : Buffer MatrixElementType sizeA) (s : TransLocals sizeD) :
    Except Fault (TransLocals sizeD) := do
  let x ← src.read s.pIn
  let dst ← s.dst.write s.px x
  pure ⟨dst, s.pIn + 1, s.px + nRows⟩

/-- Four of them. -/
def transFour (nRows : ℕ) (src : Buffer MatrixElementType sizeA) (s : TransLocals sizeD) :
    Except Fault (TransLocals sizeD) := do
  let s ← transOne nRows src s
  let s ← transOne nRows src s
  let s ← transOne nRows src s
  transOne nRows src s

/-- The variables of the loop over the rows. -/
structure TransRowLocals (sizeD : ℕ) where
  dst : Buffer MatrixElementType sizeD
  pIn : ℕ
  i : UInt16

/-- One pass of the loop over the rows. -/
def transRow (nRows nColumns : ℕ) (src : Buffer MatrixElementType sizeA)
    (q : TransRowLocals sizeD) : Except Fault (TransRowLocals sizeD) := do
  let s ← unrolled 4 nColumns (transFour nRows src) (transOne nRows src) ⟨q.dst, q.pIn, q.i.toNat⟩
  pure ⟨s.dst, s.pIn, q.i + 1⟩

/-- `arm_mat_trans_f32`. -/
def armMatTransF32 (pSrc : MatrixInstance sizeA) (pDst : MatrixInstance sizeD) :
    Except Fault (ArmStatus × MatrixInstance sizeD) := do
  let q ← doCountdown 16 pSrc.numRows.toNat
    (transRow pSrc.numRows.toNat pSrc.numCols.toNat pSrc.pData) ⟨pDst.pData, 0, 0⟩
  pure (.success, { pDst with pData := q.dst })

section Transpose

variable {m n : ℕ} {src : Buffer MatrixElementType (m * n)}

/-- The rows below `i` have gone to their columns, and row `i` up to column `j`. -/
structure Transposed (src : Buffer MatrixElementType (m * n)) (i j : ℕ)
    (s : TransLocals (n * m)) : Prop where
  pIn : s.pIn = i * n + j
  px : s.px = j * m + i
  cells : ∀ x y, x < m → y < n → x < i ∨ (x = i ∧ y < j) →
    s.dst.cell (y * m + x) = .set (src.value (x * n + y))

theorem transOne_ensures (hsrc : src.Assigned) {i j : ℕ} (hi : i < m) (hj : j < n)
    {s : TransLocals (n * m)} (h : Transposed src i j s) :
    Ensures (transOne m src s) (Transposed src i (j + 1)) := by
  rw [transOne, h.pIn, hsrc.stores.read (rowMajor_lt hi hj), ok_bind, h.px,
    Buffer.write_of_lt _ _ (rowMajor_lt hj hi), ok_bind]
  refine .pure ⟨Nat.add_assoc _ _ _, by ring, fun x y hx hy hxy => ?_⟩
  have hcell : y * m + x = j * m + i ↔ y = j ∧ x = i := rowMajor_inj hx hi
  rw [Buffer.cell_put]
  by_cases hnew : y = j ∧ x = i
  · rw [if_pos (hcell.mpr hnew), hnew.1, hnew.2]
  · rw [if_neg (mt hcell.mp hnew)]
    exact h.cells x y hx hy (by omega)

theorem transFour_ensures (hsrc : src.Assigned) {i j : ℕ} (hi : i < m) (hj : j + 4 ≤ n)
    {s : TransLocals (n * m)} (h : Transposed src i j s) :
    Ensures (transFour m src s) (Transposed src i (j + 4)) :=
  (transOne_ensures hsrc hi (by omega) h).bind fun _ h =>
    (transOne_ensures hsrc hi (by omega) h).bind fun _ h =>
      (transOne_ensures hsrc hi (by omega) h).bind fun _ h =>
        transOne_ensures hsrc hi (by omega) h

/-- `arm_mat_trans_f32` puts every entry of an assigned matrix of any shape in the place of
its mirror image. -/
theorem armMatTransF32_ensures (pSrc : MatrixInstance (m * n)) (pDst : MatrixInstance (n * m))
    (hrows : pSrc.numRows.toNat = m) (hcols : pSrc.numCols.toNat = n) (hm : 0 < m)
    (hsrc : pSrc.pData.Assigned) :
    Ensures (armMatTransF32 pSrc pDst) fun p => p.1 = .success ∧
      p.2.pData.Holds fun j i => pSrc.pData.value (i * n + j) := by
  have hlt : m < 2 ^ 16 := hrows ▸ pSrc.numRows.toNat_lt
  rw [armMatTransF32, hrows, hcols]
  refine (doCountdown_ensures (fun i (q : TransRowLocals (n * m)) => q.i.toNat = i ∧
    Transposed pSrc.pData i 0 ⟨q.dst, q.pIn, i⟩) hm
    ⟨rfl, (Nat.zero_mul _).symm, by simp, fun x y _ _ h => by omega⟩ ?_).bind fun q hq =>
    .pure ⟨rfl, fun y x hy hx => hq.2.cells x y hx hy (.inl hx)⟩
  rintro i q hi ⟨hcount, h⟩
  rw [transRow, hcount]
  refine (unrolled_ensures (fun j => Transposed pSrc.pData i j) h
    (fun j s hj hs => transFour_ensures hsrc hi hj hs)
    fun j s hj hs => transOne_ensures hsrc hi hj hs).bind fun s hs => .pure ⟨?_, ?_⟩
  · rw [UInt16.toNat_add, hcount]
    exact Nat.mod_eq_of_lt (by change i + 1 < 2 ^ 16; omega)
  · refine ⟨?_, by simp, fun x y hx hy hxy => hs.cells x y hx hy (by omega)⟩
    change s.pIn = (i + 1) * n + 0
    rw [hs.pIn]
    ring

/-- For assigned matrices of any shape with at least one row and one column, the unrolled
loops of `arm_mat_trans_f32` leave the transpose, a second call gives the matrix back, and
on square matrices the result is that of `transposingMatrix`, which works in place. -/
theorem armMatTransF32_transposes (pSrc pBack : MatrixInstance (m * n))
    (pDst : MatrixInstance (n * m)) (hrows : pSrc.numRows.toNat = m)
    (hcols : pSrc.numCols.toNat = n) (hm : 0 < m) (hn : 0 < n) (hsrc : pSrc.pData.Assigned) :
    ∃ dst back, armMatTransF32 pSrc pDst = .ok (.success, dst) ∧
      dst.pData.toMatrix n m = (pSrc.pData.toMatrix m n).transpose ∧
      armMatTransF32 (armMatInitF32 pSrc.numCols pSrc.numRows dst.pData) pBack =
        .ok (.success, back) ∧
      (∀ p < m * n, back.pData.cell p = pSrc.pData.cell p) ∧
      (m = n → ∃ a, transposingMatrix m n pSrc.pData = .ok a ∧
        ∀ p < m * n, a.cell p = dst.pData.cell p) := by
  obtain ⟨⟨_, dst⟩, hrun, rfl, hdst⟩ := armMatTransF32_ensures pSrc pDst hrows hcols hm hsrc
  obtain ⟨⟨_, back⟩, hagain, rfl, hback⟩ := armMatTransF32_ensures
    (armMatInitF32 pSrc.numCols pSrc.numRows dst.pData) pBack hcols hrows hn hdst.assigned
  refine ⟨dst, back, hrun, ?_, hagain, forall_of_rowMajor fun i j hi hj => ?_, ?_⟩
  · ext j i
    exact hdst.value_eq j.isLt i.isLt
  · rw [hback i j hi hj, hsrc.stores _ (rowMajor_lt hi hj)]
    exact congrArg Cell.set (hdst.value_eq hj hi)
  · rintro rfl
    obtain ⟨a, hmirror, -, ha⟩ := transposingMatrix_square hsrc
    refine ⟨a, hmirror, forall_of_rowMajor fun i j hi hj => ?_⟩
    rw [hdst i j hi hj, ha i j hi hj, hsrc.stores _ (rowMajor_lt hj hi)]

/-- Two rows of length five: one unrolled pass and one more for each. -/
theorem armMatTransF32_transposes_two_rows :
    ∃ dst back,
      armMatTransF32 (armMatInitF32 2 5 (⟨fun p => .set p⟩ : Buffer MatrixElementType (2 * 5)))
        (armMatInitF32 5 2 (.fill (5 * 2) 7)) = .ok (.success, dst) ∧
      dst.pData.toMatrix 5 2 =
        ((⟨fun p => .set p⟩ : Buffer MatrixElementType (2 * 5)).toMatrix 2 5).transpose ∧
      armMatTransF32 (armMatInitF32 5 2 dst.pData) (armMatInitF32 2 5 (.fill (2 * 5) 7)) =
        .ok (.success, back) := by
  obtain ⟨dst, back, hrun, htranspose, hagain, -, -⟩ := armMatTransF32_transposes
    (armMatInitF32 2 5 (⟨fun p => .set p⟩ : Buffer MatrixElementType (2 * 5)))
    (armMatInitF32 2 5 (.fill (2 * 5) 7)) (armMatInitF32 5 2 (.fill (5 * 2) 7))
    rfl rfl (by decide) (by decide) fun p _ => ⟨_, rfl⟩
  exact ⟨dst, back, hrun, htranspose, hagain⟩

end Transpose

end HadamardIMS.MatrixFunctions
