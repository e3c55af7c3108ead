import HadamardIMS.MatrixRoutines

/-!
# The signal routines of `main.c`

One sampled frame becomes a row of the overlap matrix, one row of the sequence
matrix becomes the bits to send, and the recovered matrix is shifted row by row
and averaged over the frames that are not discarded. Offsets that the C code
computes with a subtraction are signed here.
-/
namespace HadamardIMS.Signals

open Loops Buffers Hadamard Finset

/-- The order of the build and the globals that steer the averaging, with what
`main` relies on: a nonempty sequence, a divisor, and a long enough list. -/
structure Globals where
  hadamardOrder : ℕ
  discardFrameNumber : List ℤ
  totalFrame : ℕ
  averageNumber : ℤ
  errFrameNumber : ℕ
  two_le_hadamardOrder : 2 ≤ hadamardOrder
  averageNumber_ne_zero : averageNumber ≠ 0
  errFrameNumber_le : errFrameNumber ≤ discardFrameNumber.length

namespace Globals

/-- `sequenceLength = HADAMARDORDER - 1`. -/
def sequenceLength (g : Globals) : ℕ := g.hadamardOrder - 1

/-- `sampleSize = sequenceLength + 1`, the length of one transfer. -/
def sampleSize (g : Globals) : ℕ := g.sequenceLength + 1

theorem one_le_sequenceLength (g : Globals) : 1 ≤ g.sequenceLength := by
  have := g.two_le_hadamardOrder
  unfold sequenceLength
  omega

/-- The values `main.c` is built with. -/
def shipped : Globals where
  hadamardOrder := 256
  discardFrameNumber := [0, 1, 2, 3, 4, 5, 6, 11, 12, 13, 14, 16, 24, 28, 29, 30, 40, 42, 58, 59,
    60, 61, 62, 63] ++ List.replicate 76 0
  totalFrame := 70
  averageNumber := 46
  errFrameNumber := 24
  two_le_hadamardOrder := by decide
  averageNumber_ne_zero := by decide
  errFrameNumber_le := by decide

end Globals

/-- `getOverlopSignal`: the sample at time zero is dropped. -/
def getOverlopSignal {samples size : ℕ} (convertedValue : Buffer UInt16 samples)
    (pOverlapSignal : Buffer MatrixElementType size) (hadamardOrder framecount : ℕ) :
    Except Fault (Buffer MatrixElementType size) :=
  let start : ℤ := hadamardOrder * ((framecount : ℤ) - 2)
  forRange 0 hadamardOrder (fun i pOverlapSignal => do
    let v ← convertedValue.read (i + 1)
    pOverlapSignal.writeAt (i + start) (v.toNat : MatrixElementType)) pOverlapSignal

/-- The frame becomes row `framecount - 2`, and no other row changes. -/
theorem getOverlopSignal_ensures {L framecount : ℕ} (hlow : 2 ≤ framecount)
    (hhigh : framecount ≤ L + 1) {convertedValue : Buffer UInt16 (L + 2)}
    (hvalue : convertedValue.Assigned) (b : Buffer MatrixElementType (L * L)) :
    Ensures (getOverlopSignal convertedValue b L framecount) fun b' => ∀ p, b'.cell p =
      if (framecount - 2) * L ≤ p ∧ p < (framecount - 2) * L + L then
        .set ((convertedValue.value (p - (framecount - 2) * L + 1)).toNat : ℚ) else b.cell p := by
  obtain ⟨r, rfl⟩ : ∃ r, framecount = r + 2 := ⟨framecount - 2, by omega⟩
  have hr : r < L := by omega
  rw [Nat.add_sub_cancel]
  refine (forRange_zero_ensures (fun m (b' : Buffer MatrixElementType (L * L)) =>
    ∀ p, b'.cell p = if r * L ≤ p ∧ p < r * L + m then
      .set ((convertedValue.value (p - r * L + 1)).toNat : ℚ) else b.cell p)
    (fun p => by rw [if_neg (by omega)]) ?_).mono fun b' h => h
  intro i b' hi hb
  have hlt : r * L + i < L * L := rowMajor_lt hr hi
  have hindex : (i : ℤ) + L * (((r + 2 : ℕ) : ℤ) - 2) = ((r * L + i : ℕ) : ℤ) := by
    push_cast
    ring
  simp only [hvalue.stores.read (show i + 1 < L + 2 by omega), bind, Except.bind, hindex,
    Buffer.writeAt_natCast, Buffer.write_of_lt _ _ hlt]
  refine .ok fun p => ?_
  rw [Buffer.cell_put]
  by_cases hp : p = r * L + i
  · rw [if_pos hp, if_pos (by omega), show p - r * L = i by omega]
  · rw [if_neg hp, hb p]
    exact if_congr (by omega) rfl rfl

/-- `productSendSequence`. -/
def productSendSequence {size length : ℕ} (pPrbs : Buffer MatrixElementType size)
    (sendSequence : Buffer UInt8 length) (frameCount sequenceLength : ℕ) :
    Except Fault (Buffer UInt8 length) :=
  let start : ℤ := ((frameCount : ℤ) - 1) * sequenceLength
  forRange 0 sequenceLength (fun i sendSequence => do
    let x ← pPrbs.readAt (i + start)
    if 1 / 2 < x then sendSequence.write i 1 else sendSequence.write i 0) sendSequence

/-- The bit that is sent for an element of the sequence matrix. -/
def sendBit (x : MatrixElementType) : UInt8 := if 1 / 2 < x then 1 else 0

/-- The bits of row `frameCount - 1` are loaded. -/
theorem productSendSequence_ensures {L frameCount : ℕ} (hlow : 1 ≤ frameCount)
    (hhigh : frameCount ≤ L) {pPrbs : Buffer MatrixElementType (L * L)} (hprbs : pPrbs.Assigned)
    (b : Buffer UInt8 L) :
    Ensures (productSendSequence pPrbs b frameCount L) fun b' =>
      b'.Stores fun i => sendBit (pPrbs.value ((frameCount - 1) * L + i)) := by
  obtain ⟨r, rfl⟩ : ∃ r, frameCount = r + 1 := ⟨frameCount - 1, by omega⟩
  have hr : r < L := by omega
  rw [Nat.add_sub_cancel]
  refine (forRange_zero_ensures (fun m (b' : Buffer UInt8 L) =>
    b'.FilledTo m fun i => sendBit (pPrbs.value (r * L + i)))
    (Buffer.filledTo_zero _ _) ?_).mono fun b' h => h
  intro i b' hi hb
  have hindex : (i : ℤ) + (((r + 1 : ℕ) : ℤ) - 1) * L = ((r * L + i : ℕ) : ℤ) := by
    push_cast
    ring
  have hnext := hb.put
  simp only [hindex, Buffer.readAt_natCast, hprbs.stores.read (rowMajor_lt hr hi), bind,
    Except.bind, Buffer.write_of_lt _ _ hi]
  by_cases h : 1 / 2 < pPrbs.value (r * L + i)
  · have hbit : sendBit (pPrbs.value (r * L + i)) = 1 := if_pos h
    rw [if_pos h, ← hbit]
    exact .ok hnext
  · have hbit : sendBit (pPrbs.value (r * L + i)) = 0 := if_neg h
    rw [if_neg h, ← hbit]
    exact .ok hnext

/-- `arraycircShift` on the elements from `array` on. Each pass reads one element
past the row before it is overwritten by zero. -/
def arraycircShift {size : ℕ} (array length shiftNumber : ℕ)
    (b : Buffer MatrixElementType size) : Except Fault (Buffer MatrixElementType size) :=
  forRange 0 shiftNumber (fun _ b => do
    let _t ← b.read array
    let b ← forRange 0 length (fun j b => do
      let x ← b.read (array + (j + 1))
      b.write (array + j) x) b
    b.writeAt ((array : ℤ) + length - 1) 0) b

/-- One pass moves the row to the left by one and fills in a zero. -/
theorem shiftPass_ensures {size array length s : ℕ} (hlength : 1 ≤ length)
    (hsize : array + length < size) {old b : Buffer MatrixElementType size} (hold : old.Assigned)
    (hb : ∀ p, b.cell p = if array ≤ p ∧ p < array + length then
      (if p + s < array + length then old.cell (p + s) else .set 0) else old.cell p) :
    Ensures (do
      let _t ← b.read array
      let b ← forRange 0 length (fun j b => do
        let x ← b.read (array + (j + 1))
        b.write (array + j) x) b
      b.writeAt ((array : ℤ) + length - 1) 0) fun b' =>
      ∀ p, b'.cell p = if array ≤ p ∧ p < array + length then
        (if p + (s + 1) < array + length then old.cell (p + (s + 1)) else .set 0)
        else old.cell p := by
  have hassigned : b.Assigned := by
    intro p hp
    rw [hb p]
    split_ifs
    · exact hold _ (by omega)
    · exact ⟨0, rfl⟩
    · exact hold p hp
  rw [hassigned.stores.read (show array < size by omega)]
  -- The first `j` elements have been replaced by their right neighbours.
  refine (forRange_zero_ensures (fun j (c : Buffer MatrixElementType size) =>
    ∀ p, c.cell p = if array ≤ p ∧ p < array + j then b.cell (p + 1) else b.cell p)
    (fun p => by rw [if_neg (by omega)]) ?_).bind ?_
  · intro j c hj hc
    have hread : c.read (array + (j + 1)) = .ok (b.value (array + (j + 1))) :=
      Buffer.read_of_set (by omega) (by rw [hc, if_neg (by omega), hassigned.stores _ (by omega)])
    simp only [hread, bind, Except.bind, Buffer.write_of_lt _ _ (show array + j < size by omega)]
    refine .ok fun p => ?_
    rw [Buffer.cell_put, hc p]
    by_cases hp : p = array + j
    · rw [if_pos hp, if_pos (by omega), hp, hassigned.stores _ (show array + j + 1 < size by omega)]
      rfl
    · rw [if_neg hp]
      exact if_congr (by omega) rfl rfl
  · intro c hc
    have hlast : (array : ℤ) + length - 1 = ((array + (length - 1) : ℕ) : ℤ) := by
      push_cast [hlength]
      ring
    rw [hlast, Buffer.writeAt_natCast, Buffer.write_of_lt _ _ (by omega)]
    refine .ok fun p => ?_
    rw [Buffer.cell_put, hc p]
    by_cases hp : p = array + (length - 1)
    · rw [if_pos hp, if_pos (by omega), if_neg (by omega)]
    · rw [if_neg hp]
      by_cases hin : array ≤ p ∧ p < array + length
      · rw [if_pos hin, if_pos hin, hb (p + 1), if_pos (by omega), Nat.add_assoc, Nat.add_comm 1 s]
      · rw [if_neg hin, if_neg hin, hb p, if_neg hin]

/-- Shifting a row that is followed by another element of the array: the element
after the row is read but has no influence, and only the row changes. -/
theorem arraycircShift_ensures {size array length : ℕ} (shiftNumber : ℕ) (hlength : 1 ≤ length)
    (hsize : array + length < size) {old : Buffer MatrixElementType size} (hold : old.Assigned) :
    Ensures (arraycircShift array length shiftNumber old) fun b =>
      ∀ p, b.cell p = if array ≤ p ∧ p < array + length then
        (if p + shiftNumber < array + length then old.cell (p + shiftNumber) else .set 0)
        else old.cell p := by
  refine forRange_zero_ensures (fun s (b : Buffer MatrixElementType size) =>
    ∀ p, b.cell p = if array ≤ p ∧ p < array + length then
      (if p + s < array + length then old.cell (p + s) else .set 0) else old.cell p)
    (fun p => ?_) fun s b _ hb => shiftPass_ensures hlength hsize hold hb
  by_cases hp : array ≤ p ∧ p < array + length
  · simp [hp]
  · rw [if_neg hp]

/-- An element of a global `int` array. -/
def readInt (a : List ℤ) (k : ℕ) : Except Fault ℤ :=
  match a[k]? with
  | some d => .ok d
  | none => .error .outOfBounds

/-- The loop over `k` that sets `errFrameFlag`. -/
def errFrameFlag (discardFrameNumber : List ℤ) (errFrameNumber i : ℕ) : Except Fault Bool :=
  Option.isSome <$> breakLoop (fun k => do
    let d ← readInt discardFrameNumber k
    pure ((i : ℤ) == d)) 0 errFrameNumber

/-- The frame is among the first `errFrameNumber` entries of the list. -/
def Discarded (discardFrameNumber : List ℤ) (errFrameNumber i : ℕ) : Prop :=
  (i : ℤ) ∈ discardFrameNumber.take errFrameNumber

instance (discardFrameNumber : List ℤ) (errFrameNumber i : ℕ) :
    Decidable (Discarded discardFrameNumber errFrameNumber i) :=
  inferInstanceAs (Decidable ((i : ℤ) ∈ discardFrameNumber.take errFrameNumber))

theorem errFrameFlag_eq {a : List ℤ} {e : ℕ} (he : e ≤ a.length) (i : ℕ) :
    errFrameFlag a e i = .ok (decide (Discarded a e i)) := by
  have hfind : breakLoop (fun k => do
      let d ← readInt a k
      pure ((i : ℤ) == d)) 0 e =
      .ok ((List.range' 0 e).find? fun k => a[k]? == some (i : ℤ)) := by
    refine breakLoop_eq_find e 0 fun k _ hk => ?_
    have hget : a[k]? = some a[k] := List.getElem?_eq_getElem (by omega)
    simp only [readInt, hget, bind, Except.bind, pure, Except.pure]
    congr 1
    simp [Bool.beq_comm]
  rw [errFrameFlag, hfind]
  change Except.ok _ = _
  congr 1
  rw [Bool.eq_iff_iff, List.find?_isSome, decide_eq_true_eq, Discarded, List.mem_take_iff_getElem]
  constructor
  · rintro ⟨k, hk, hd⟩
    have hke : k < e := by simpa using hk
    refine ⟨k, by omega, ?_⟩
    rw [beq_iff_eq, List.getElem?_eq_getElem (by omega)] at hd
    exact Option.some.inj hd
  · rintro ⟨k, hk, hd⟩
    refine ⟨k, by simp; omega, ?_⟩
    rw [beq_iff_eq, List.getElem?_eq_getElem (by omega), hd]

/-- `getAverageSignal`: what it leaves in `pRecoverySignal` and in
`pAverageResult`, without the rounding. The code adds and divides in single precision, as
`getAverageSignalRounded` does, which is this for a rounding that changes nothing. -/
def getAverageSignal {L : ℕ} (discardFrameNumber : List ℤ) (errFrameNumber : ℕ)
    (pRecoverySignal : Buffer MatrixElementType (L * L))
    (pAverageResult : Buffer MatrixElementType L) (averageNumber : ℤ) (totalFrame : ℕ) :
    Except Fault (Buffer MatrixElementType (L * L) × Buffer MatrixElementType L) := do
  let pRecoverySignal ← forRange 0 totalFrame (fun i b => arraycircShift (L * i) L i b)
    pRecoverySignal
  let pAverageResult ← forRange 0 totalFrame (fun i pAverageResult => do
    if ← errFrameFlag discardFrameNumber errFrameNumber i then pure pAverageResult
    else forRange 0 L (fun j pAverageResult => do
      let x ← pAverageResult.read j
      let y ← pRecoverySignal.read (i * L + j)
      pAverageResult.write j (x + y)) pAverageResult) pAverageResult
  let pAverageResult ← forRange 0 L (fun i pAverageResult => do
    let x ← pAverageResult.read i
    pAverageResult.write i (x / averageNumber)) pAverageResult
  pure (pRecoverySignal, pAverageResult)

/-- Element `j` of the sum over the kept frames, each shifted by its number. -/
def keptSum (discardFrameNumber : List ℤ) (errFrameNumber totalFrame L : ℕ) (R : ℕ → ℚ) (j : ℕ) :
    ℚ :=
  ∑ i ∈ range totalFrame, if Discarded discardFrameNumber errFrameNumber i then 0
    else if i + j < L then R (i * L + i + j) else 0

/-- The first loop shifts row `i` by `i` and leaves the later rows alone. -/
theorem shiftRows_ensures {L totalFrame : ℕ} (htotal : totalFrame < L)
    {R : Buffer MatrixElementType (L * L)} (hR : R.Assigned) :
    Ensures (forRange 0 totalFrame (fun i b => arraycircShift (L * i) L i b) R) fun R' =>
      R'.Assigned ∧ ∀ i j, i < L → j < L → R'.cell (i * L + j) =
        if i < totalFrame then
          (if j + i < L then R.cell (i * L + (j + i)) else .set 0)
        else R.cell (i * L + j) := by
  refine (forRange_zero_ensures (fun m (R' : Buffer MatrixElementType (L * L)) =>
    R'.Assigned ∧ ∀ i j, i < L → j < L → R'.cell (i * L + j) = if i < m then
      (if j + i < L then R.cell (i * L + (j + i)) else .set 0) else R.cell (i * L + j))
    ⟨hR, fun i j _ _ => by simp⟩ ?_).mono fun R' h => h
  rintro m R' hm ⟨hassigned, hcells⟩
  have hroom : L * m + L < L * L := by
    calc L * m + L = L * (m + 1) := by ring
      _ < L * L := Nat.mul_lt_mul_of_pos_left (by omega) (by omega)
  refine (arraycircShift_ensures m (by omega) hroom hassigned).mono fun b hb => ⟨fun p hp => ?_, ?_⟩
  · rw [hb p]
    split_ifs
    · exact hassigned _ (by omega)
    · exact ⟨0, rfl⟩
    · exact hassigned p hp
  · intro i j hi hj
    -- Row `i` is the one being shifted exactly when its cells lie in the window.
    have hwindow : L * m ≤ i * L + j ∧ i * L + j < L * m + L ↔ i = m := by
      rw [Nat.mul_comm L m]
      constructor
      · rintro ⟨hlo, hhi⟩
        have h : i * L + j = m * L + (i * L + j - m * L) ↔ i = m ∧ j = i * L + j - m * L :=
          rowMajor_inj hj (by omega)
        exact (h.mp (by omega)).1
      · rintro rfl
        omega
    rw [hb, if_congr hwindow rfl rfl]
    by_cases him : i = m
    · subst him
      rw [if_pos rfl, if_pos (Nat.lt_add_one i), Nat.mul_comm L i, Nat.add_assoc]
      have hfit : i * L + (j + i) < i * L + L ↔ j + i < L := by omega
      rw [if_congr hfit rfl rfl]
      by_cases hji : j + i < L
      · rw [if_pos hji, if_pos hji, hcells i (j + i) hi hji, if_neg (by omega)]
      · rw [if_neg hji, if_neg hji]
    · rw [if_neg him, hcells i j hi hj]
      exact if_congr (by omega) rfl rfl

end HadamardIMS.Signals
