import HadamardIMS.HadamardMatrix
import Mathlib.Algebra.BigOperators.Intervals

/-!
# The matrix routines of `hadamard.c`

`prbs` strips the first row and column off a Hadamard matrix and maps signs to
bits, `calculate` multiplies two matrices, `transposingMatrix` swaps in place
across the diagonal and `createInverseMatrix` overwrites a matrix of bits. Each
routine is followed by the one lemma that says what it leaves in memory.
-/
namespace HadamardIMS.Hadamard

open Loops Buffers Finset

/-- `prbs`; `old` is what the allocated block held. Entries that are neither
above `0.5` nor below `-0.5` would stay unassigned. -/
def prbs (old : ℕ → MatrixElementType) {n : ℕ} (pHadamard : Buffer MatrixElementType (n * n)) :
    Except Fault (Buffer MatrixElementType ((n - 1) * (n - 1))) :=
  forRange 1 n (fun i pPrbs =>
    forRange 1 n (fun j pPrbs => do
      let x ← pHadamard.read (i * n + j)
      if 1 / 2 < x then pPrbs.write ((i - 1) * (n - 1) + (j - 1)) 0
      else if x < -1 / 2 then pPrbs.write ((i - 1) * (n - 1) + (j - 1)) 1
      else pure pPrbs) pPrbs) (Buffer.malloc ((n - 1) * (n - 1)) old)

/-- On a matrix of signs every entry of the result is assigned. -/
theorem prbs_ensures {n : ℕ} (old : ℕ → MatrixElementType)
    {pHadamard : Buffer MatrixElementType (n * n)} {H : ℕ → ℕ → ℚ}
    (hcell : ∀ i j, i < n → j < n → pHadamard.cell (i * n + j) = .set (H i j))
    (hsign : ∀ i j, H i j = 1 ∨ H i j = -1) :
    Ensures (prbs old pHadamard) fun pPrbs =>
      pPrbs.Stores fun p => (1 - H (p / (n - 1) + 1) (p % (n - 1) + 1)) / 2 := by
  rcases Nat.eq_zero_or_pos n with rfl | hn
  · exact .ok fun p hp => by simp at hp
  refine (forRange_ensures
    (fun i (b : Buffer MatrixElementType ((n - 1) * (n - 1))) => b.FilledTo ((i - 1) * (n - 1))
      fun p => (1 - H (p / (n - 1) + 1) (p % (n - 1) + 1)) / 2)
    hn (by simpa using Buffer.filledTo_zero _ _) ?_).mono fun b hb => hb
  intro i b hi hin hrows
  refine (forRange_ensures
    (fun j (b : Buffer MatrixElementType ((n - 1) * (n - 1))) =>
      b.FilledTo ((i - 1) * (n - 1) + (j - 1))
        fun p => (1 - H (p / (n - 1) + 1) (p % (n - 1) + 1)) / 2)
    hn (by simpa using hrows) ?_).mono ?_
  · intro j b hj hjn hb
    have hlt := rowMajor_lt (show i - 1 < n - 1 by omega) (show j - 1 < n - 1 by omega)
    have hnext := hb.put
    rw [rowMajor_div (show j - 1 < n - 1 by omega), rowMajor_mod (show j - 1 < n - 1 by omega),
      Nat.sub_add_cancel hi, Nat.sub_add_cancel hj] at hnext
    have hsucc : (i - 1) * (n - 1) + (j - 1) + 1 = (i - 1) * (n - 1) + (j + 1 - 1) := by omega
    rw [hsucc] at hnext
    simp only [Buffer.read_of_set (rowMajor_lt hin hjn) (hcell i j hin hjn), bind, Except.bind]
    rcases hsign i j with h | h
    · rw [h] at hnext ⊢
      rw [if_pos (by norm_num), Buffer.write_of_lt _ _ hlt]
      exact .ok (by simpa using hnext)
    · rw [h] at hnext ⊢
      rw [if_neg (by norm_num), if_pos (by norm_num), Buffer.write_of_lt _ _ hlt]
      exact .ok (by norm_num at hnext; exact hnext)
  · intro b hb
    have hrow : (i - 1) * (n - 1) + (n - 1) = (i + 1 - 1) * (n - 1) := by
      rw [← Nat.succ_mul]
      congr 1
      omega
    rwa [hrow] at hb

/-- `calculate`, given what its `malloc` returned. When that is `NULL` the
function prints a message and goes on. The parameter `b_row` is not used. -/
def calculate {aRow bCol sizeA sizeB : ℕ} (res : Pointer MatrixElementType (aRow * bCol))
    (aCol : ℕ) (a : Buffer MatrixElementType sizeA) (b : Buffer MatrixElementType sizeB) :
    Except Fault (Pointer MatrixElementType (aRow * bCol)) :=
  forRange 0 aRow (fun row => forRange 0 bCol (fun col res => do
    let res ← res.store (row * bCol + col) 0
    forRange 0 aCol (fun k res => do
      let sum ← res.load (row * bCol + col)
      let x ← a.read (row * aCol + k)
      let y ← b.read (k * bCol + col)
      res.store (row * bCol + col) (sum + x * y)) res)) res

/-- With memory for the result, `calculate` is the matrix product. -/
theorem calculate_ensures {aRow aCol bCol : ℕ} (r : Buffer MatrixElementType (aRow * bCol))
    {a : Buffer MatrixElementType (aRow * aCol)} {b : Buffer MatrixElementType (aCol * bCol)}
    (ha : a.Assigned) (hb : b.Assigned) :
    Ensures (calculate (some r) aCol a b) fun res => ∃ r' : Buffer MatrixElementType (aRow * bCol),
      res = some r' ∧ r'.Stores fun p =>
        ∑ k ∈ range aCol, a.value (p / bCol * aCol + k) * b.value (k * bCol + p % bCol) := by
  set F : ℕ → ℚ := fun p =>
    ∑ k ∈ range aCol, a.value (p / bCol * aCol + k) * b.value (k * bCol + p % bCol) with hF
  refine (forRange_rowMajor_ensures
    (fun m (res : Pointer MatrixElementType (aRow * bCol)) => ∃ r', res = some r' ∧ r'.FilledTo m F)
    ⟨r, rfl, Buffer.filledTo_zero _ _⟩ ?_).mono fun res h => h
  rintro row col res hrow hcol ⟨r', rfl, hfilled⟩
  have hlt := rowMajor_lt hrow hcol
  rw [Pointer.store_some_of_lt _ _ hlt]
  -- The cell holds the sum over the first `k` terms, and the ones before it stay filled.
  refine (forRange_zero_ensures (fun k (res : Pointer MatrixElementType (aRow * bCol)) =>
    ∃ r', res = some r' ∧ r'.FilledTo (row * bCol + col) F ∧ r'.cell (row * bCol + col) =
      .set (∑ c ∈ range k, a.value (row * aCol + c) * b.value (c * bCol + col)))
    ⟨_, rfl, hfilled.put_of_le le_rfl 0, by simp⟩ ?_).mono ?_
  · rintro k res hk ⟨r', rfl, hfilled, hsum⟩
    have hload : Pointer.load (some r') (row * bCol + col) =
        .ok (∑ c ∈ range k, a.value (row * aCol + c) * b.value (c * bCol + col)) :=
      Buffer.read_of_set hlt hsum
    simp only [hload, ha.stores.read (rowMajor_lt hrow hk), hb.stores.read (rowMajor_lt hk hcol),
      bind, Except.bind, Pointer.store_some_of_lt _ _ hlt]
    exact .ok ⟨_, rfl, hfilled.put_of_le le_rfl _, by simp [sum_range_succ]⟩
  · rintro res ⟨r', rfl, hfilled, hsum⟩
    refine ⟨r', rfl, fun p hp => ?_⟩
    by_cases hpe : p = row * bCol + col
    · simp only [hpe, hsum, hF, rowMajor_div hcol, rowMajor_mod hcol]
    · exact hfilled p (by omega)

/-- Without it, the first assignment goes through the null pointer. -/
theorem calculate_null {aRow aCol bCol sizeA sizeB : ℕ} (hrow : 0 < aRow) (hcol : 0 < bCol)
    (a : Buffer MatrixElementType sizeA) (b : Buffer MatrixElementType sizeB) :
    calculate (none : Pointer MatrixElementType (aRow * bCol)) aCol a b = .error .nullPointer :=
  forRange_first_error hrow (forRange_first_error hcol rfl)

/-- `SWAP` of two elements of one array. -/
def SWAP {size : ℕ} (a : Buffer MatrixElementType size) (p q : ℕ) :
    Except Fault (Buffer MatrixElementType size) := do
  let temp ← a.read p
  let y ← a.read q
  let a ← a.write p y
  a.write q temp

/-- `transposingMatrix`: the strict lower triangle of the leading square is
swapped with the upper one. -/
def transposingMatrix {size : ℕ} (m n : ℕ) (a : Buffer MatrixElementType size) :
    Except Fault (Buffer MatrixElementType size) :=
  forRange 0 m (fun i => forRange 0 i (fun j a => SWAP a (i * n + j) (j * n + i))) a

/-- Where the cells of the leading square come from once rows below `i` are
done, and row `i` up to column `j`. -/
structure PartlyTransposed {size : ℕ} (old a : Buffer MatrixElementType size) (m n i j : ℕ) :
    Prop where
  square : ∀ x y, x < m → y < m → a.cell (x * n + y) =
    if (x < i ∧ y < i) ∨ (x = i ∧ y < j) ∨ (y = i ∧ x < j) then old.cell (y * n + x)
    else old.cell (x * n + y)
  rest : ∀ p, (∀ x y, x < m → y < m → p ≠ x * n + y) → a.cell p = old.cell p

/-- One swap settles the entries `(i, j)` and `(j, i)`. -/
theorem PartlyTransposed.swap {size m n i j : ℕ} {old a : Buffer MatrixElementType size}
    (h : PartlyTransposed old a m n i j) (hmn : m ≤ n) (hi : i < m) (hj : j < i) {x y : ℚ}
    (hx : old.cell (i * n + j) = .set x) (hy : old.cell (j * n + i) = .set y) :
    PartlyTransposed old ((a.put (i * n + j) y).put (j * n + i) x) m n i (j + 1) := by
  constructor
  · intro u v hu hv
    have hp : u * n + v = i * n + j ↔ u = i ∧ v = j := rowMajor_inj (by omega) (by omega)
    have hq : u * n + v = j * n + i ↔ u = j ∧ v = i := rowMajor_inj (by omega) (by omega)
    simp only [Buffer.cell_put, hp, hq, h.square u v hu hv]
    by_cases hq' : u = j ∧ v = i
    · rw [if_pos hq', if_pos (by omega), hq'.1, hq'.2, hx]
    · rw [if_neg hq']
      by_cases hp' : u = i ∧ v = j
      · rw [if_pos hp', if_pos (by omega), hp'.1, hp'.2, hy]
      · rw [if_neg hp']
        exact if_congr (by omega) rfl rfl
  · intro p hp
    simp [hp i j hi (by omega), hp j i (by omega) hi, h.rest p hp]

/-- In-place transposition of the leading `m` by `m` square of an array with
rows of length `n`; no other element changes. -/
theorem transposingMatrix_ensures {size m n : ℕ} (hmn : m ≤ n) (hsize : m * n ≤ size)
    {a : Buffer MatrixElementType size}
    (ha : ∀ i j, i < m → j < m → ∃ x, a.cell (i * n + j) = .set x) :
    Ensures (transposingMatrix m n a) fun a' =>
      (∀ i j, i < m → j < m → a'.cell (i * n + j) = a.cell (j * n + i)) ∧
      ∀ p, (∀ i j, i < m → j < m → p ≠ i * n + j) → a'.cell p = a.cell p := by
  refine (forRange_zero_ensures (fun i a' => PartlyTransposed a a' m n i 0)
    ⟨fun x y _ _ => by rw [if_neg (by omega)], fun _ _ => rfl⟩ ?_).mono ?_
  · intro i a' hi hrows
    refine (forRange_zero_ensures (fun j a' => PartlyTransposed a a' m n i j) hrows ?_).mono ?_
    · intro j a' hj h
      obtain ⟨x, hx⟩ := ha i j hi (by omega)
      obtain ⟨y, hy⟩ := ha j i (by omega) hi
      have hp : i * n + j < size := (rowMajor_lt hi (by omega)).trans_le hsize
      have hq : j * n + i < size := (rowMajor_lt (by omega : j < m) (by omega)).trans_le hsize
      have hpx : a'.cell (i * n + j) = .set x := by
        rw [h.square i j hi (by omega), if_neg (by omega), hx]
      have hqy : a'.cell (j * n + i) = .set y := by
        rw [h.square j i (by omega) hi, if_neg (by omega), hy]
      simp only [SWAP, Buffer.read_of_set hp hpx, Buffer.read_of_set hq hqy, bind, Except.bind,
        Buffer.write_of_lt _ _ hp, Buffer.write_of_lt _ _ hq]
      exact .ok (h.swap hmn hi hj hx hy)
    · -- The diagonal entry of row `i` stays where it is.
      refine fun a' h => ⟨fun x y hx hy => ?_, h.rest⟩
      rw [h.square x y hx hy]
      by_cases hd : x = i ∧ y = i
      · simp [hd.1, hd.2]
      · exact if_congr (by omega) rfl rfl
  · intro a' h
    refine ⟨fun i j hi hj => ?_, h.rest⟩
    rw [h.square i j hi hj, if_pos (by omega)]

/-- For a square matrix that fills its block, this is the transpose. -/
theorem transposingMatrix_square {n : ℕ} {a : Buffer MatrixElementType (n * n)}
    (ha : a.Assigned) :
    Ensures (transposingMatrix n n a) fun a' => a'.Assigned ∧
      ∀ i j, i < n → j < n → a'.cell (i * n + j) = a.cell (j * n + i) := by
  refine (transposingMatrix_ensures le_rfl le_rfl
    fun i j hi hj => ha _ (rowMajor_lt hi hj)).mono fun a' h =>
    ⟨forall_of_rowMajor fun i j hi hj => ?_, h.1⟩
  rw [h.1 i j hi hj]
  exact ha _ (rowMajor_lt hj hi)

/-- For every array of at least `m * n` elements with `m ≤ n`, `transposingMatrix` puts
each entry of the leading square in the place of its mirror image and changes no other
element; with `m = n` this is the transpose of the matrix. A second call restores the
array. -/
theorem transposingMatrix_mirrors {size m n : ℕ} (hmn : m ≤ n) (hsize : m * n ≤ size)
    {a : Buffer MatrixElementType size}
    (ha : ∀ i j, i < m → j < m → ∃ x, a.cell (i * n + j) = .set x) :
    ∃ a', transposingMatrix m n a = .ok a' ∧
      (∀ i j, i < m → j < m → a'.cell (i * n + j) = a.cell (j * n + i)) ∧
      (∀ p, (∀ i j, i < m → j < m → p ≠ i * n + j) → a'.cell p = a.cell p) ∧
      (m = n → (Matrix.of fun i j : Fin n => a'.value (i * n + j)) =
        (Matrix.of fun i j : Fin n => a.value (i * n + j)).transpose) ∧
      transposingMatrix m n a' = .ok a := by
  obtain ⟨a', hrun, hsquare, hrest⟩ := transposingMatrix_ensures hmn hsize ha
  have ha' : ∀ i j, i < m → j < m → ∃ x, a'.cell (i * n + j) = .set x := by
    intro i j hi hj
    rw [hsquare i j hi hj]
    exact ha j i hj hi
  obtain ⟨b, hagain, hsquare', hrest'⟩ := transposingMatrix_ensures hmn hsize ha'
  refine ⟨a', hrun, hsquare, hrest, ?_, ?_⟩
  · rintro rfl
    ext i j
    exact congrArg Cell.value (hsquare i j i.isLt j.isLt)
  · have hsame : b.cell = a.cell := by
      funext p
      by_cases hp : ∃ i j, i < m ∧ j < m ∧ p = i * n + j
      · obtain ⟨i, j, hi, hj, rfl⟩ := hp
        rw [hsquare' i j hi hj, hsquare j i hj hi]
      · have hout : ∀ i j, i < m → j < m → p ≠ i * n + j :=
          fun i j hi hj h => hp ⟨i, j, hi, hj, h⟩
        rw [hrest' p hout, hrest p hout]
    rw [hagain, show b = a from congrArg Buffer.mk hsame]

/-- The leading square of a matrix with two rows of length three. -/
theorem transposingMatrix_mirrors_two_rows :
    ∃ a', transposingMatrix 2 3 (⟨fun p => .set p⟩ : Buffer MatrixElementType 7) = .ok a' ∧
      a'.cell 1 = .set 3 ∧ a'.cell 3 = .set 1 ∧ a'.cell 2 = .set 2 ∧
      transposingMatrix 2 3 a' = .ok ⟨fun p => .set p⟩ := by
  obtain ⟨a', hrun, hsquare, hrest, -, hagain⟩ := transposingMatrix_mirrors (m := 2) (n := 3)
    (a := (⟨fun p => .set p⟩ : Buffer MatrixElementType 7)) (by decide) (by decide)
    fun i j _ _ => ⟨_, rfl⟩
  exact ⟨a', hrun, hsquare 0 1 (by decide) (by decide), hsquare 1 0 (by decide) (by decide),
    hrest 2 (by omega), hagain⟩

/-- `createInverseMatrix`: bits become plus or minus `0.0078125`, and the matrix
is transposed. -/
def createInverseMatrix {length : ℕ} (prbs : Buffer MatrixElementType (length * length)) :
    Except Fault (Buffer MatrixElementType (length * length)) := do
  let division : MatrixElementType := 1 / 128
  let prbs ← forRange 0 length (fun i => forRange 0 length (fun j prbs => do
    let x ← prbs.read (j + i * length)
    if x = 0 then prbs.write (j + i * length) (-division)
    else prbs.write (j + i * length) division)) prbs
  transposingMatrix length length prbs

theorem createInverseMatrix_ensures {length : ℕ}
    {prbs : Buffer MatrixElementType (length * length)} (hprbs : prbs.Assigned) :
    Ensures (createInverseMatrix prbs) fun inverse => inverse.Assigned ∧
      ∀ i j, i < length → j < length → inverse.cell (i * length + j) =
        .set (if prbs.value (j * length + i) = 0 then -(1 / 128) else 1 / 128) := by
  set F : ℕ → ℚ := fun p => if prbs.value p = 0 then -(1 / 128) else 1 / 128 with hF
  refine (forRange_rowMajor_ensures
    (fun m (b : Buffer MatrixElementType (length * length)) => b.FilledTo m F ∧
      ∀ p, m ≤ p → b.cell p = prbs.cell p)
    ⟨Buffer.filledTo_zero _ _, fun _ _ => rfl⟩ ?_).bind ?_
  · rintro i j b hi hj ⟨hfilled, hrest⟩
    have hlt := rowMajor_lt hi hj
    rw [Nat.add_comm j]
    have hread : b.read (i * length + j) = .ok (prbs.value (i * length + j)) :=
      Buffer.read_of_set hlt (by rw [hrest _ le_rfl, hprbs.stores _ hlt])
    have hnext : Ensures (.ok (b.put (i * length + j) (F (i * length + j))) : Except Fault _)
        fun b => b.FilledTo (i * length + j + 1) F ∧
          ∀ p, i * length + j + 1 ≤ p → b.cell p = prbs.cell p :=
      .ok ⟨hfilled.put, fun p hp => by
        simp [show p ≠ i * length + j by omega, hrest p (by omega)]⟩
    simp only [hread, bind, Except.bind, Buffer.write_of_lt _ _ hlt]
    split_ifs with h
    · simpa [hF, h] using hnext
    · simpa [hF, h] using hnext
  · rintro b ⟨hfilled, -⟩
    have hstores : b.Stores F := hfilled
    refine (transposingMatrix_square hstores.assigned).mono fun b' h => ⟨h.1, ?_⟩
    intro i j hi hj
    rw [h.2 i j hi hj, hstores _ (rowMajor_lt hj hi)]

end HadamardIMS.Hadamard
