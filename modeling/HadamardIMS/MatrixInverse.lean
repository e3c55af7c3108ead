import HadamardIMS.Elimination
import HadamardIMS.MatrixRoutines
import HadamardIMS.Significands

/-!
# `arm_mat_inverse_f32`

The branch for the Cortex-M4, without the size check, which the build leaves out. The
search for a larger pivot compares the pivot itself with the maximum of its column
again, in every pass, instead of the elements below it, so rows are never exchanged.
-/
namespace HadamardIMS.MatrixFunctions

open Loops Buffers Hadamard Elimination Significands Finset

/-- `arm_matrix_instance_f32`. -/
structure MatrixInstance (size : ℕ) where
  numRows : UInt16
  numCols : UInt16
  pData : Buffer MatrixElementType size

/-- The values of `arm_status` that the matrix functions return. -/
inductive ArmStatus where
  | success
  | singular
  deriving Repr, DecidableEq

/-- `arm_mat_init_f32`. -/
def armMatInitF32 {size : ℕ} (nRows nColumns : UInt16) (pData : Buffer MatrixElementType size) :
    MatrixInstance size := ⟨nRows, nColumns, pData⟩

variable {f : Format} {size : ℕ}

/-- `x > 0 ? x : -x`. -/
def magnitude (x : MatrixElementType) : MatrixElementType := if 0 < x then x else -x

/-- `*p++ = x`, `count` times. -/
def storeRun (x : MatrixElementType) (count : ℕ) (p : Buffer MatrixElementType size × ℕ) :
    Except Fault (Buffer MatrixElementType size × ℕ) :=
  forRange 0 count (fun _ p => do
    let b ← p.1.write p.2 x
    pure (b, p.2 + 1)) p

/-- The loop that makes the destination the identity. -/
def makeIdentity (numRows : ℕ) (pOut : Buffer MatrixElementType size) :
    Except Fault (Buffer MatrixElementType size) := do
  let p ← forRange 0 numRows (fun t p => do
    let rowCnt := numRows - t
    let p ← storeRun 0 (numRows - rowCnt) p
    let b ← p.1.write p.2 1
    storeRun 0 (rowCnt - 1) (b, p.2 + 1)) (pOut, 0)
  pure p.1

/-- The variables that the loop over the columns carries along: the two blocks, the
pointer into the source and the last value of `in`. -/
structure InverseLocals (size : ℕ) where
  src : Buffer MatrixElementType size
  dst : Buffer MatrixElementType size
  pIn : ℕ
  flag : ℕ
  pivot : MatrixElementType

/-- The most significant value of column `l` from the pivot on, which `pInT1` points to. -/
def columnMaximum (numRows numCols l pInT1 : ℕ) (src : Buffer MatrixElementType size) :
    Except Fault MatrixElementType := do
  let p ← forRange l numRows (fun _ p => do
    let x ← src.read p.2
    let maxC := if 0 < x then if p.1 < x then x else p.1 else if p.1 < -x then -x else p.1
    pure (maxC, p.2 + numCols)) ((0, pInT1) : MatrixElementType × ℕ)
  pure p.1

/-- Unless the pivot has the maximum, the loop over the rows below looks for it. The
element it looks at is the same in all passes; `k` is `t + 1` in pass `t`. -/
def exchange (numRows numCols l : ℕ) (maxC : MatrixElementType) (p : InverseLocals size) :
    Except Fault (InverseLocals size) := do
  let pInT1 := p.pIn
  let pOutT1 := l * numCols
  let pInT2 := pInT1 + numCols * l
  if magnitude p.pivot ≠ maxC then do
    let found ← breakLoop (fun _ => do
      let x ← p.src.read pInT2
      pure (magnitude x == maxC)) 0 (numRows - (l + 1))
    match found with
    | none => pure p
    | some t => do
      let pOutT2 := pOutT1 + numCols * (t + 1)
      let src ← forRange 0 (numCols - l) (fun j src => SWAP src (pInT2 + j) (pInT1 + j)) p.src
      let dst ← forRange 0 numCols (fun j dst => SWAP dst (pOutT2 + j) (pOutT1 + j)) p.dst
      pure { p with src, dst, flag := 1 }
  else pure p

/-- `count` elements from `start` on are divided by the pivot. -/
def divideRow (r : Rounding f) (pivot : MatrixElementType) (count start : ℕ)
    (b : Buffer MatrixElementType size) : Except Fault (Buffer MatrixElementType size) :=
  forRange 0 count (fun j b => do
    let in1 ← b.read (start + j)
    b.write (start + j) (r.div in1 pivot)) b

/-- A multiple of `count` elements of the pivot row is subtracted. -/
def subtractRow (r : Rounding f) (factor : MatrixElementType) (count pivotRow start : ℕ)
    (b : Buffer MatrixElementType size) : Except Fault (Buffer MatrixElementType size) :=
  forRange 0 count (fun j b => do
    let in1 ← b.read (start + j)
    let y ← b.read (pivotRow + j)
    b.write (start + j) (r.sub in1 (r.mul factor y))) b

/-- The variables of the loop over the rows. -/
structure RowLocals (size : ℕ) where
  src : Buffer MatrixElementType size
  dst : Buffer MatrixElementType size
  pInT1 : ℕ
  pInT2 : ℕ
  factor : MatrixElementType

/-- One pass of the loop over the rows. -/
def reduceRow (r : Rounding f) (numCols l pPivotRowIn pPivotRowDst i : ℕ) (q : RowLocals size) :
    Except Fault (RowLocals size) :=
  if i = l then
    pure { q with pInT1 := q.pInT1 + (numCols - l) + l, pInT2 := q.pInT2 + numCols }
  else do
    let factor ← q.src.read q.pInT1
    let src ← subtractRow r factor (numCols - l) pPivotRowIn q.pInT1 q.src
    let dst ← subtractRow r factor numCols pPivotRowDst q.pInT2 q.dst
    pure ⟨src, dst, q.pInT1 + (numCols - l) + l, q.pInT2 + numCols, factor⟩

/-- The part of a pass over column `l` that follows the search: the pivot row is divided
by the pivot, and the loop over the rows clears the column. -/
def reduceColumn (r : Rounding f) (numRows numCols l : ℕ) (p : InverseLocals size) :
    Except Fault (InverseLocals size) := do
  let pPivotRowIn := p.pIn + l * numCols
  let pPivotRowDst := l * numCols
  let pivot ← p.src.read pPivotRowIn
  let src ← divideRow r pivot (numCols - l) pPivotRowIn p.src
  let dst ← divideRow r pivot numCols pPivotRowDst p.dst
  let q ← forRange 0 numRows (reduceRow r numCols l pPivotRowIn pPivotRowDst)
    ⟨src, dst, p.pIn, 0, pivot⟩
  pure ⟨q.src, q.dst, p.pIn + 1, p.flag, q.factor⟩

/-- One pass of the loop over the columns; `true` where it returns
`ARM_MATH_SINGULAR`. -/
def columnPass (r : Rounding f) (numRows numCols l : ℕ) (p : InverseLocals size) :
    Except Fault (Bool × InverseLocals size) := do
  let pivot ← p.src.read (p.pIn + l * numCols)
  let maxC ← columnMaximum numRows numCols l (p.pIn + l * numCols) p.src
  if maxC = 0 then pure (true, { p with pivot })
  else do
    let p ← exchange numRows numCols l maxC { p with pivot }
    if p.flag ≠ 1 ∧ p.pivot = 0 then pure (true, p)
    else do
      let p ← reduceColumn r numRows numCols l p
      pure (false, p)

/-- The status after the loop. -/
def finalStatus (numRows numCols : ℕ) (p : InverseLocals size) : Except Fault ArmStatus :=
  if p.flag ≠ 1 ∧ p.pivot = 0 then do
    let i ← breakLoop (fun i => do
      let x ← p.src.read i
      pure (x != 0)) 0 (numRows * numCols)
    pure (if i = none then .singular else .success)
  else pure .success

/-- The loop over the columns, with `loopCnt` of them left. -/
def columnLoop (r : Rounding f) (numRows numCols : ℕ) : ℕ → ℕ → InverseLocals size →
    Except Fault (ArmStatus × InverseLocals size)
  | 0, _, p => do
    let status ← finalStatus numRows numCols p
    pure (status, p)
  | loopCnt + 1, l, p => do
    let (singular, p) ← columnPass r numRows numCols l p
    if singular then pure (.singular, p) else columnLoop r numRows numCols loopCnt (l + 1) p

/-- `arm_mat_inverse_f32`. Both matrices are overwritten. -/
def armMatInverseF32 (r : Rounding f) (pSrc pDst : MatrixInstance size) :
    Except Fault (ArmStatus × MatrixInstance size × MatrixInstance size) := do
  let numRows := pSrc.numRows.toNat
  let numCols := pSrc.numCols.toNat
  let pOut ← makeIdentity numRows pDst.pData
  let (status, p) ← columnLoop r numRows numCols numCols 0 ⟨pSrc.pData, pOut, 0, 0, 0⟩
  pure (status, { pSrc with pData := p.src }, { pDst with pData := p.dst })

variable {n : ℕ} (r : Rounding f)

/-! ## Row operations -/

theorem magnitude_eq_abs (x : ℚ) : magnitude x = |x| := by
  rw [magnitude]
  split_ifs with h
  · rw [abs_of_pos h]
  · rw [abs_of_nonpos (not_lt.mp h)]

/-- Row `l` is divided from column `c` on. -/
theorem divideRow_ensures {b : Buffer MatrixElementType (n * n)} {M : ℕ → ℕ → ℚ} (hb : b.Holds M)
    {l c : ℕ} (hl : l < n) (hc : c ≤ n) (x : ℚ) :
    Ensures (divideRow r x (n - c) (l * n + c) b) fun b' =>
      b'.Holds fun i j => if i = l ∧ c ≤ j then r.div (M l j) x else M i j := by
  refine (forRange_zero_ensures (fun t (b' : Buffer MatrixElementType (n * n)) =>
    b'.Holds fun i j => if i = l ∧ c ≤ j ∧ j < c + t then r.div (M l j) x else M i j)
    (hb.congr fun i j _ _ => by rw [if_neg (by omega)]) ?_).mono fun b' h =>
    h.congr fun i j _ hj => if_congr (by omega) rfl rfl
  intro t b' ht h
  have hcol : c + t < n := by omega
  have hread := h.read hl hcol
  rw [if_neg (by omega), ← Nat.add_assoc] at hread
  simp only [hread, bind, Except.bind]
  rw [Buffer.write_of_lt _ _ (by rw [Nat.add_assoc]; exact rowMajor_lt hl hcol), Nat.add_assoc]
  refine .ok ((h.put hcol _).congr fun i j _ _ => ?_)
  by_cases hij : i = l ∧ j = c + t
  · rw [if_pos hij, if_pos (by omega), hij.2]
  · rw [if_neg hij]
    exact if_congr (by omega) rfl rfl

/-- A multiple of row `l` is subtracted from row `i`, from column `c` on. -/
theorem subtractRow_ensures {b : Buffer MatrixElementType (n * n)} {M : ℕ → ℕ → ℚ} (hb : b.Holds M)
    {i l c : ℕ} (hi : i < n) (hl : l < n) (hc : c ≤ n) (x : ℚ) :
    Ensures (subtractRow r x (n - c) (l * n + c) (i * n + c) b) fun b' =>
      b'.Holds fun i' j => if i' = i ∧ c ≤ j then r.sub (M i j) (r.mul x (M l j)) else M i' j := by
  refine (forRange_zero_ensures (fun t (b' : Buffer MatrixElementType (n * n)) =>
    b'.Holds fun i' j =>
      if i' = i ∧ c ≤ j ∧ j < c + t then r.sub (M i j) (r.mul x (M l j)) else M i' j)
    (hb.congr fun i j _ _ => by rw [if_neg (by omega)]) ?_).mono fun b' h =>
    h.congr fun i j _ hj => if_congr (by omega) rfl rfl
  intro t b' ht h
  have hcol : c + t < n := by omega
  have hread := h.read hi hcol
  have hpivot := h.read hl hcol
  rw [if_neg (by omega), ← Nat.add_assoc] at hread hpivot
  simp only [hread, hpivot, bind, Except.bind]
  rw [Buffer.write_of_lt _ _ (by rw [Nat.add_assoc]; exact rowMajor_lt hi hcol), Nat.add_assoc]
  refine .ok ((h.put hcol _).congr fun i' j _ _ => ?_)
  by_cases hij : i' = i ∧ j = c + t
  · rw [if_pos hij, if_pos (by omega), hij.2]
  · rw [if_neg hij]
    exact if_congr (by omega) rfl rfl

/-! ## The identity -/

theorem storeRun_ensures {size : ℕ} {f : ℕ → ℚ} {x : ℚ} {count q : ℕ}
    {b : Buffer MatrixElementType size} (hb : b.FilledTo q f) (hsize : q + count ≤ size)
    (hf : ∀ t < count, f (q + t) = x) :
    Ensures (storeRun x count (b, q)) fun p => p.2 = q + count ∧ p.1.FilledTo p.2 f := by
  refine forRange_zero_ensures (fun t (p : Buffer MatrixElementType size × ℕ) =>
    p.2 = q + t ∧ p.1.FilledTo p.2 f) ⟨rfl, hb⟩ ?_
  rintro t ⟨b', q'⟩ ht ⟨rfl, h⟩
  have hput := h.put
  rw [hf t ht] at hput
  simp only [bind, Except.bind, Buffer.write_of_lt b' x (show q + t < size by omega)]
  exact .ok ⟨rfl, hput⟩

/-- The destination becomes the identity, whatever it held. -/
theorem makeIdentity_ensures (b : Buffer MatrixElementType (n * n)) :
    Ensures (makeIdentity n b) fun b' => b'.Holds fun i j => if i = j then 1 else 0 := by
  set f : ℕ → ℚ := fun q => if q / n = q % n then 1 else 0 with hf
  have hentry : ∀ i j, j < n → f (i * n + j) = if i = j then 1 else 0 := by
    intro i j hj
    simp only [hf, rowMajor_div hj, rowMajor_mod hj]
  refine Ensures.bind (P := fun p => p.1.FilledTo (n * n) f)
    ((forRange_zero_ensures (fun t (p : Buffer MatrixElementType (n * n) × ℕ) =>
      p.2 = t * n ∧ p.1.FilledTo p.2 f) ⟨(Nat.zero_mul n).symm, Buffer.filledTo_zero _ _⟩ ?_).mono
      fun p h q hq => h.2 q (by omega)) fun p h => .pure fun i j hi hj => ?_
  · rintro t ⟨b, q⟩ ht ⟨hq, h⟩
    simp only at hq h
    have hrow : t * n + n ≤ n * n := by
      calc t * n + n = (t + 1) * n := by ring
        _ ≤ n * n := Nat.mul_le_mul_right n ht
    refine (storeRun_ensures h (by omega) fun c hc => ?_).bind ?_
    · rw [hq, hentry t c (by omega), if_neg (by omega)]
    rintro ⟨b, q'⟩ ⟨hq', h⟩
    simp only at hq' h
    have hdiagonal : q' = t * n + t := by omega
    have hput := h.put
    rw [hdiagonal, hentry t t ht, if_pos rfl, ← hdiagonal] at hput
    simp only [Buffer.write_of_lt b 1 (show q' < n * n by omega), bind, Except.bind]
    refine (storeRun_ensures hput (by omega) fun c hc => ?_).mono fun p hp =>
      ⟨by rw [hp.1, Nat.succ_mul]; omega, hp.2⟩
    rw [show q' + 1 + c = t * n + (t + 1 + c) by omega, hentry t _ (by omega), if_neg (by omega)]
  · rw [h _ (rowMajor_lt hi hj), hentry i j hj]

/-! ## The loops over rows and columns -/

/-- The search takes the pivot itself into account. -/
theorem columnMaximum_ensures {b : Buffer MatrixElementType (n * n)} {M : ℕ → ℕ → ℚ}
    (hb : b.Holds M) {l : ℕ} (hl : l < n) :
    Ensures (columnMaximum n n l (l * n + l) b) fun maxC => |M l l| ≤ maxC := by
  have hstep : ∀ i (p : MatrixElementType × ℕ), l ≤ i → i < n → p.2 = i * n + l →
      Ensures (do
        let x ← b.read p.2
        let maxC := if 0 < x then if p.1 < x then x else p.1 else if p.1 < -x then -x else p.1
        pure (maxC, p.2 + n)) fun p' : MatrixElementType × ℕ =>
          p'.1 = max p.1 |M i l| ∧ p'.2 = (i + 1) * n + l := by
    rintro i ⟨maxC, q⟩ - hi hq
    simp only at hq
    subst hq
    simp only [hb.read hi hl, bind, Except.bind]
    refine .ok ⟨?_, by ring⟩
    rw [← magnitude_eq_abs, magnitude, max_def']
    split_ifs <;> first | rfl | linarith
  refine Ensures.bind (P := fun p : MatrixElementType × ℕ => |M l l| ≤ p.1) ?_ fun p h => .pure h
  refine (forRange_ensures (fun i (p : MatrixElementType × ℕ) =>
    p.2 = i * n + l ∧ (l < i → |M l l| ≤ p.1)) hl.le ⟨rfl, fun h => absurd h (lt_irrefl l)⟩ ?_).mono
    fun p h => h.2 hl
  rintro i p hli hi ⟨hq, hmax⟩
  refine (hstep i p hli hi hq).mono fun p' h => ⟨h.2, fun hlt => ?_⟩
  rw [h.1]
  rcases hli.eq_or_lt with rfl | hlt'
  · exact le_max_right _ _
  · exact (hmax hlt').trans (le_max_left _ _)

/-- The loop over the rows below compares the pivot again every time, so it finds no row. -/
theorem exchange_eq {numCols l : ℕ} {maxC : ℚ} {p : InverseLocals (n * n)}
    (hread : p.src.read (p.pIn + numCols * l) = .ok p.pivot) :
    exchange n numCols l maxC p = .ok p := by
  by_cases hne : magnitude p.pivot ≠ maxC
  · have htest : ∀ t, 0 ≤ t → t < 0 + (n - (l + 1)) → (do
        let x ← p.src.read (p.pIn + numCols * l)
        pure (magnitude x == maxC) : Except Fault Bool) = .ok false := by
      intro t _ _
      simp [hread, bind, Except.bind, pure, Except.pure, hne]
    have hnone := breakLoop_eq_find (p := fun _ => false) (n - (l + 1)) 0 htest
    rw [List.find?_eq_none.mpr (by simp)] at hnone
    rw [exchange, if_pos hne, hnone, ok_bind]
    rfl
  · rw [exchange, if_neg hne]
    rfl

section Rows

variable {P Q : ℕ → ℕ → ℚ} {l : ℕ}

/-- What the loop over the rows has left once the rows below `i` are done; `P` and `Q`
are the two matrices before it. -/
structure RowsReduced (r : Rounding f) (P Q : ℕ → ℕ → ℚ) (l i : ℕ) (q : RowLocals (n * n)) :
    Prop where
  pInT1 : q.pInT1 = i * n + l
  pInT2 : q.pInT2 = i * n
  src : q.src.Holds fun i' j =>
    if i' < i ∧ i' ≠ l ∧ l ≤ j then r.sub (P i' j) (r.mul (P i' l) (P l j)) else P i' j
  dst : q.dst.Holds fun i' j =>
    if i' < i ∧ i' ≠ l then r.sub (Q i' j) (r.mul (P i' l) (Q l j)) else Q i' j

theorem reduceRow_ensures (hl : l < n) {i : ℕ} (hi : i < n) {q : RowLocals (n * n)}
    (h : RowsReduced r P Q l i q) :
    Ensures (reduceRow r n l (l * n + l) (l * n) i q) (RowsReduced r P Q l (i + 1)) := by
  have hnext : (i + 1) * n = i * n + n := Nat.succ_mul i n
  have hpInT1 : q.pInT1 + (n - l) + l = (i + 1) * n + l := by rw [h.pInT1]; omega
  have hpInT2 : q.pInT2 + n = (i + 1) * n := by rw [h.pInT2, hnext]
  by_cases hil : i = l
  · rw [reduceRow, if_pos hil]
    exact .pure ⟨hpInT1, hpInT2, h.src.congr fun i' j _ _ => if_congr (by omega) rfl rfl,
      h.dst.congr fun i' j _ _ => if_congr (by omega) rfl rfl⟩
  · have hread := h.src.read hi hl
    rw [if_neg (by omega), ← h.pInT1] at hread
    obtain ⟨src, hsrcrun, hsrc⟩ := subtractRow_ensures r h.src hi hl hl.le (P i l)
    obtain ⟨dst, hdstrun, hdst⟩ := subtractRow_ensures r h.dst hi hl (Nat.zero_le n) (P i l)
    rw [← h.pInT1] at hsrcrun
    rw [Nat.add_zero, Nat.add_zero, Nat.sub_zero, ← h.pInT2] at hdstrun
    simp only [reduceRow, if_neg hil, hread, hsrcrun, hdstrun, ok_bind]
    refine .pure ⟨hpInT1, hpInT2, hsrc.congr fun i' j _ _ => ?_, hdst.congr fun i' j _ _ => ?_⟩
    · by_cases hrow : i' = i ∧ l ≤ j
      · rw [if_pos hrow, if_neg (by omega), if_neg (by omega), if_pos (by omega), hrow.1]
      · rw [if_neg hrow]
        exact if_congr (by omega) rfl rfl
    · by_cases hrow : i' = i
      · rw [if_pos ⟨hrow, Nat.zero_le j⟩, if_neg (by omega), if_neg (by omega),
          if_pos (by omega), hrow]
      · rw [if_neg (by omega)]
        exact if_congr (by omega) rfl rfl

end Rows

variable {A D : ℕ → ℕ → ℚ} {l : ℕ} {p : InverseLocals (n * n)}

/-- What a pass over column `l` of `A` makes of an entry of `M`. -/
def eliminated (r : Rounding f) (A M : ℕ → ℕ → ℚ) (l i j : ℕ) : ℚ :=
  if i = l then r.div (M l j) (A l l)
  else r.sub (M i j) (r.mul (A i l) (r.div (M l j) (A l l)))

/-- What the loop over the columns has left once the columns below `l` are done. -/
structure Columns (A D : ℕ → ℕ → ℚ) (l : ℕ) (p : InverseLocals (n * n)) : Prop where
  src : p.src.Holds A
  dst : p.dst.Holds D
  pIn : p.pIn = l
  flag : p.flag = 0

theorem reduceColumn_ensures (hl : l < n) (h : Columns A D l p) :
    Ensures (reduceColumn r n n l p) (Columns (fun i j =>
      if l ≤ j then eliminated r A A l i j else A i j) (eliminated r A D l) (l + 1)) := by
  have hpivot : p.pIn + l * n = l * n + l := by rw [h.pIn, Nat.add_comm]
  obtain ⟨src, hsrcrun, hsrc⟩ := divideRow_ensures r h.src hl hl.le (A l l)
  obtain ⟨dst, hdstrun, hdst⟩ := divideRow_ensures r h.dst hl (Nat.zero_le n) (A l l)
  rw [Nat.add_zero, Nat.sub_zero] at hdstrun
  simp only [reduceColumn, hpivot, h.src.read hl hl, hsrcrun, hdstrun, ok_bind]
  set P : ℕ → ℕ → ℚ := fun i j => if i = l ∧ l ≤ j then r.div (A l j) (A l l) else A i j with hP
  set Q : ℕ → ℕ → ℚ := fun i j => if i = l ∧ 0 ≤ j then r.div (D l j) (A l l) else D i j with hQ
  have hinit : RowsReduced r P Q l 0 (⟨src, dst, p.pIn, 0, A l l⟩ : RowLocals (n * n)) :=
    ⟨by rw [h.pIn, Nat.zero_mul, Nat.zero_add], (Nat.zero_mul n).symm,
      hsrc.congr fun i j _ _ => by rw [if_neg (by omega)],
      hdst.congr fun i j _ _ => by rw [if_neg (by omega)]⟩
  refine (forRange_zero_ensures (RowsReduced r P Q l) hinit
    fun i q hi hq => reduceRow_ensures r hl hi hq).bind fun q hq => .pure ⟨?_, ?_, ?_, h.flag⟩
  · refine hq.src.congr fun i j hi hj => ?_
    by_cases hlj : l ≤ j
    · by_cases hil : i = l <;> simp [eliminated, hi, hil, hlj, hP]
    · simp [hlj, hP]
  · refine hq.dst.congr fun i j hi hj => ?_
    by_cases hil : i = l <;> simp [eliminated, hi, hil, hP, hQ]
  · change p.pIn + 1 = l + 1
    rw [h.pIn]

/-- A pass over a column with a zero pivot gives up, whatever stands below the pivot;
any other pass is a step of the elimination. -/
theorem columnPass_ensures (hl : l < n) (h : Columns A D l p) :
    Ensures (columnPass r n n l p) fun q =>
      if A l l = 0 then q.1 = true
      else q.1 = false ∧ Columns (fun i j => if l ≤ j then eliminated r A A l i j else A i j)
        (eliminated r A D l) (l + 1) q.2 := by
  have hread := h.src.read hl hl
  obtain ⟨maxC, hmaxrun, hmax⟩ := columnMaximum_ensures h.src hl
  have hpIn : p.pIn + l * n = l * n + l := by rw [h.pIn, Nat.add_comm]
  have hagain : p.src.read (p.pIn + n * l) = .ok (A l l) := by
    rw [Nat.mul_comm n l, hpIn]
    exact hread
  rw [columnPass, hpIn, hread, ok_bind, hmaxrun, ok_bind, exchange_eq hagain, ok_bind]
  by_cases hzero : A l l = 0
  · simp only [if_pos hzero]
    split_ifs with hmaxC hflag
    · exact .pure rfl
    · exact .pure rfl
    · exact absurd ⟨by rw [h.flag]; exact nofun, hzero⟩ hflag
  · rw [if_neg fun hmaxC => hzero (abs_nonpos_iff.mp (hmax.trans_eq hmaxC)),
      if_neg fun h => hzero h.2]
    simp only [if_neg hzero]
    exact (reduceColumn_ensures r hl ⟨h.src, h.dst, h.pIn, h.flag⟩).bind fun p' hp' =>
      .pure ⟨rfl, hp'⟩

/-- The scan after the loop goes over the source, of which the identity is left. -/
theorem finalStatus_eq (hn : 0 < n) (hsrc : p.src.Holds fun i j => if i = j then 1 else 0) :
    finalStatus n n p = .ok .success := by
  have hread := hsrc.read hn hn
  rw [if_pos rfl, Nat.zero_mul, Nat.add_zero] at hread
  have hfound : breakLoop (fun i => do
      let x ← p.src.read i
      pure (x != 0)) 0 (n * n) = .ok (some 0) :=
    breakLoop_first (Nat.mul_pos hn hn) (by rw [hread]; rfl)
  rw [finalStatus]
  split_ifs with h
  · rw [hfound]
    rfl
  · rfl

/-- A pass is exact when its quotients, products and differences are. -/
theorem eliminated_eq {M : ℕ → ℕ → ℚ} {i j : ℕ} (hquotient : f.Representable (M l j / A l l))
    (hproduct : i ≠ l → f.Representable (A i l * (M l j / A l l)))
    (hdifference : f.Representable (clearColumn A M l i j)) :
    eliminated r A M l i j = clearColumn A M l i j := by
  by_cases hil : i = l
  · rw [eliminated, clearColumn, if_pos hil, if_pos hil, r.div_eq hquotient]
  · rw [clearColumn, if_neg hil] at hdifference
    rw [eliminated, clearColumn, if_neg hil, if_neg hil, r.div_eq hquotient,
      r.mul_eq (hproduct hil), r.sub_eq hdifference]

/-- The matrices before each pass, when every pivot is regular. -/
structure Passes (r : Rounding f) (n : ℕ) (A D : ℕ → ℕ → ℕ → ℚ) : Prop where
  pivot : ∀ l < n, A l l l ≠ 0
  left : ∀ l i j, l < n → i < n → l ≤ j → j < n → eliminated r (A l) (A l) l i j = A (l + 1) i j
  left_cleared : ∀ l i j, l < n → i < n → j < l → A l i j = A (l + 1) i j
  right : ∀ l i j, l < n → i < n → j < n → eliminated r (A l) (D l) l i j = D (l + 1) i j
  identity : ∀ i j, i < n → j < n → A n i j = if i = j then 1 else 0

theorem columnLoop_passes {A D : ℕ → ℕ → ℕ → ℚ} (hn : 0 < n) (hpasses : Passes r n A D)
    (loopCnt : ℕ) (hl : l + loopCnt = n) (h : Columns (A l) (D l) l p) :
    Ensures (columnLoop r n n loopCnt l p) fun q => q.1 = .success ∧ q.2.dst.Holds (D n) := by
  induction loopCnt generalizing l p with
  | zero =>
    obtain rfl : l = n := hl
    rw [columnLoop, finalStatus_eq hn (h.src.congr hpasses.identity), ok_bind]
    exact .pure ⟨rfl, h.dst⟩
  | succ loopCnt ih =>
    have hlt : l < n := by omega
    obtain ⟨⟨gaveUp, p'⟩, hrun, hpass⟩ := columnPass_ensures r hlt h
    rw [if_neg (hpasses.pivot l hlt)] at hpass
    obtain ⟨hgoes, hcolumns⟩ := hpass
    obtain rfl : gaveUp = false := hgoes
    rw [columnLoop, hrun, ok_bind]
    refine ih (by omega) ⟨hcolumns.src.congr fun i j hi hj => ?_,
      hcolumns.dst.congr fun i j hi hj => hpasses.right l i j hlt hi hj,
      hcolumns.pIn, hcolumns.flag⟩
    by_cases hlj : l ≤ j
    · rw [if_pos hlj, hpasses.left l i j hlt hi hlj hj]
    · rw [if_neg hlj, hpasses.left_cleared l i j hlt hi (not_le.mp hlj)]

/-- `arm_mat_inverse_f32` on a matrix whose passes are known. -/
theorem armMatInverseF32_passes {A D : ℕ → ℕ → ℕ → ℚ} (hn : 0 < n) (hpasses : Passes r n A D)
    (hD : ∀ i j, i < n → j < n → D 0 i j = if i = j then 1 else 0)
    {pSrc pDst : MatrixInstance (n * n)} (hrows : pSrc.numRows.toNat = n)
    (hcols : pSrc.numCols.toNat = n) (hsrc : pSrc.pData.Holds (A 0)) :
    Ensures (armMatInverseF32 r pSrc pDst) fun q => q.1 = .success ∧
      q.2.2.numCols = pDst.numCols ∧ q.2.2.pData.Holds (D n) := by
  obtain ⟨pOut, hidentity, hpOut⟩ := makeIdentity_ensures pDst.pData
  rw [armMatInverseF32, hrows, hcols, hidentity, ok_bind]
  exact (columnLoop_passes r hn hpasses n (Nat.zero_add n)
    ⟨hsrc, hpOut.congr fun i j hi hj => (hD i j hi hj).symm, rfl, rfl⟩).bind fun q hq =>
    .pure ⟨hq.1, rfl, hq.2⟩

/-! ## Exact arithmetic -/

/-- What the function returns from column `l` on for a source that held the matrix
`original`. -/
structure Outcome (original : ℕ → ℕ → ℚ) (l : ℕ) (q : ArmStatus × InverseLocals (n * n)) :
    Prop where
  success : (∀ k, l < k → k ≤ n → (leading original k).det ≠ 0) → q.1 = .success ∧
    (q.2.src.Holds fun i j => if i = j then 1 else 0) ∧
    ∃ D, q.2.dst.Holds D ∧ leading D n * leading original n = 1
  singular : ∀ k, l < k → k ≤ n → (leading original k).det = 0 → q.1 = .singular

theorem columnLoop_ensures {original : ℕ → ℕ → ℚ} (hn : 0 < n) (loopCnt : ℕ)
    (hl : l + loopCnt = n) (hreduced : Reduced original n l A D) (h : Columns A D l p) :
    Ensures (columnLoop (.exact f) n n loopCnt l p) (Outcome original l) := by
  induction loopCnt generalizing l A D p with
  | zero =>
    obtain rfl : l = n := hl
    have hsrc : p.src.Holds fun i j => if i = j then 1 else 0 :=
      h.src.congr fun i j hi hj => hreduced.cleared i j hi hj
    rw [columnLoop, finalStatus_eq hn hsrc, ok_bind]
    exact .pure ⟨fun _ => ⟨rfl, hsrc, D, h.dst, hreduced.inverse⟩, fun k hlk hkn => by omega⟩
  | succ loopCnt ih =>
    have hlt : l < n := by omega
    obtain ⟨⟨gaveUp, p'⟩, hrun, hpass⟩ := columnPass_ensures (.exact f) hlt h
    rw [columnLoop, hrun, ok_bind]
    by_cases hzero : A l l = 0
    · rw [if_pos hzero] at hpass
      obtain rfl : gaveUp = true := hpass
      exact .pure ⟨fun hall => absurd (hreduced.det_leading_eq_zero hlt hzero)
        (hall (l + 1) (Nat.lt_succ_self l) hlt), fun _ _ _ _ => rfl⟩
    · rw [if_neg hzero] at hpass
      obtain ⟨hgoes, hcolumns⟩ := hpass
      obtain rfl : gaveUp = false := hgoes
      have hnext := hreduced.step hlt hzero
      have hsrc : Columns (clearColumn A A l) (clearColumn A D l) (l + 1) p' :=
        ⟨hcolumns.src.congr fun i j _ _ => ite_eq_left_iff.mpr fun hj =>
          (hreduced.clearColumn_of_lt hlt (not_le.mp hj)).symm,
          hcolumns.dst, hcolumns.pIn, hcolumns.flag⟩
      refine (ih (by omega) hnext hsrc).mono fun r hr =>
        ⟨fun hall => hr.success fun k hk => hall k (by omega), fun k hk hkn hdet => ?_⟩
      -- The block of order `l + 1` is regular, since its columns have been cleared.
      rcases (Nat.succ_le_of_lt hk).eq_or_lt with rfl | hlk
      · exact absurd hdet (hnext.det_leading_ne_zero hlt)
      · exact hr.singular k hlk hkn hdet

/-- In exact arithmetic, for every square matrix of order `n ≥ 1` whose elements have been
assigned, `arm_mat_inverse_f32` returns without a fault. It reports success exactly if no
leading principal minor is zero, so it rejects invertible matrices too; after success the
destination holds the inverse and the source has become the identity. -/
theorem armMatInverseF32_success_iff (hn : 0 < n) (pSrc pDst : MatrixInstance (n * n))
    (hrows : pSrc.numRows.toNat = n) (hcols : pSrc.numCols.toNat = n) (ha : pSrc.pData.Assigned) :
    ∃ status src dst, armMatInverseF32 (.exact f) pSrc pDst = .ok (status, src, dst) ∧
      (status = .success ↔
        ∀ k ≤ n, (leading (fun i j => pSrc.pData.value (i * n + j)) k).det ≠ 0) ∧
      (status = .success →
        dst.pData.toMatrix n n * pSrc.pData.toMatrix n n = 1 ∧ src.pData.toMatrix n n = 1) := by
  obtain ⟨pOut, hidentity, hpOut⟩ := makeIdentity_ensures pDst.pData
  obtain ⟨⟨status, p⟩, hloop, houtcome⟩ := columnLoop_ensures (f := f) hn n (Nat.zero_add n)
    (reduced_zero _ n) (⟨ha.holds, hpOut, rfl, rfl⟩ : Columns _ _ 0 ⟨pSrc.pData, pOut, 0, 0, 0⟩)
  have hrun : armMatInverseF32 (.exact f) pSrc pDst =
      .ok (status, { pSrc with pData := p.src }, { pDst with pData := p.dst }) := by
    rw [armMatInverseF32, hrows, hcols, hidentity, ok_bind, hloop]
    rfl
  refine ⟨_, _, _, hrun, ⟨fun hstatus k hk hdet => ?_, fun hall => ?_⟩, fun hstatus => ?_⟩
  · rcases Nat.eq_zero_or_pos k with rfl | hpos
    · rw [Matrix.det_fin_zero] at hdet
      exact one_ne_zero hdet
    · exact nomatch hstatus.symm.trans (houtcome.singular k hpos hk hdet)
  · exact (houtcome.success fun k _ hk => hall k hk).1
  · have hall : ∀ k, 0 < k → k ≤ n →
        (leading (fun i j => pSrc.pData.value (i * n + j)) k).det ≠ 0 :=
      fun k hpos hk hdet => nomatch hstatus.symm.trans (houtcome.singular k hpos hk hdet)
    obtain ⟨-, hsrc, E, hdst, hinverse⟩ := houtcome.success hall
    refine ⟨?_, ?_⟩
    · rw [← hinverse]
      congr 1
      ext i j
      exact hdst.value_eq i.isLt j.isLt
    · ext i j
      rw [Matrix.one_apply]
      simpa [Buffer.toMatrix, Fin.ext_iff] using hsrc.value_eq i.isLt j.isLt

/-- The matrix that exchanges two rows is its own inverse, but its first pivot is zero. -/
theorem armMatInverseF32_success_iff_exchange :
    ∃ src dst, armMatInverseF32 (.exact binary32)
        (armMatInitF32 2 2 (⟨fun p => .set (if p = 1 ∨ p = 2 then 1 else 0)⟩ : Buffer _ (2 * 2)))
        (armMatInitF32 2 2 (.fill _ 7)) = .ok (.singular, src, dst) ∧
      (⟨fun p => .set (if p = 1 ∨ p = 2 then 1 else 0)⟩ : Buffer ℚ (2 * 2)).toMatrix 2 2 *
        (⟨fun p => .set (if p = 1 ∨ p = 2 then 1 else 0)⟩ : Buffer ℚ (2 * 2)).toMatrix 2 2 = 1 := by
  obtain ⟨status, src, dst, hrun, hiff, -⟩ := armMatInverseF32_success_iff (f := binary32) (by decide)
    (armMatInitF32 2 2 (⟨fun p => .set (if p = 1 ∨ p = 2 then 1 else 0)⟩ : Buffer _ (2 * 2)))
    (armMatInitF32 2 2 (.fill _ 7)) rfl rfl fun p _ => ⟨_, rfl⟩
  refine ⟨src, dst, ?_, by decide +kernel⟩
  cases status with
  | singular => exact hrun
  | success => exact absurd (Matrix.det_fin_one _) (hiff.mp rfl 1 (by decide))

end HadamardIMS.MatrixFunctions
