import HadamardIMS.Bookkeeping
import HadamardIMS.Significands

/-!
# The decoding product in single precision

The model computes with rational numbers. Here `calculate` is taken again with each
product and each sum rounded. The samples are 16-bit numbers and the inverse consists
of plus and minus 1/128, so up to a length of 256 every value that occurs is a multiple
of 1/128 with few enough bits: nothing is rounded, in whatever order the terms are
added.
-/
namespace HadamardIMS.Precision

open Loops Buffers Hadamard Signals Significands Finset

variable {f : Format} (r : Rounding f) {aRow bCol : ℕ}

section Rounded

variable {sizeA sizeB : ℕ} (aCol : ℕ) (a : Buffer MatrixElementType sizeA)
  (b : Buffer MatrixElementType sizeB)

/-- The statement in the innermost loop of `calculate`. -/
def accumulate (row col k : ℕ) (res : Pointer MatrixElementType (aRow * bCol)) :
    Except Fault (Pointer MatrixElementType (aRow * bCol)) := do
  let sum ← res.load (row * bCol + col)
  let x ← a.read (row * aCol + k)
  let y ← b.read (k * bCol + col)
  res.store (row * bCol + col) (r.add sum (r.mul x y))

/-- An entry of the result, up to its first `k` terms. -/
def accumulateTo (k row col : ℕ) (res : Pointer MatrixElementType (aRow * bCol)) :
    Except Fault (Pointer MatrixElementType (aRow * bCol)) := do
  let res ← res.store (row * bCol + col) 0
  forRange 0 k (accumulate r aCol a b row col) res

/-- `calculate` with each product and each sum rounded. -/
def calculateRounded (res : Pointer MatrixElementType (aRow * bCol)) :
    Except Fault (Pointer MatrixElementType (aRow * bCol)) :=
  forRange 0 aRow (fun row => forRange 0 bCol (accumulateTo r aCol a b aCol row)) res

/-- `calculateRounded` until `k` terms have been added to entry `(row, col)`. -/
def calculateUntil (row col k : ℕ) (res : Pointer MatrixElementType (aRow * bCol)) :
    Except Fault (Pointer MatrixElementType (aRow * bCol)) := do
  let res ← forRange 0 row (fun row => forRange 0 bCol (accumulateTo r aCol a b aCol row)) res
  let res ← forRange 0 col (accumulateTo r aCol a b aCol row) res
  accumulateTo r aCol a b k row col res

/-- `calculateRounded` from there on. -/
def calculateFrom (row col k : ℕ) (res : Pointer MatrixElementType (aRow * bCol)) :
    Except Fault (Pointer MatrixElementType (aRow * bCol)) := do
  let res ← forRange k aCol (accumulate r aCol a b row col) res
  let res ← forRange (col + 1) bCol (accumulateTo r aCol a b aCol row) res
  forRange (row + 1) aRow (fun row => forRange 0 bCol (accumulateTo r aCol a b aCol row)) res

/-- With a rounding that changes nothing this is `calculate`. -/
theorem calculateRounded_unrounded (res : Pointer MatrixElementType (aRow * bCol)) :
    calculateRounded (⟨id, fun _ _ => rfl⟩ : Rounding f) aCol a b res = calculate res aCol a b := rfl

/-- Every entry passes through all its partial sums. -/
theorem calculateRounded_eq {row col k : ℕ} (hrow : row < aRow) (hcol : col < bCol) (hk : k ≤ aCol)
    (res : Pointer MatrixElementType (aRow * bCol)) :
    calculateRounded r aCol a b res =
      calculateUntil r aCol a b row col k res >>= calculateFrom r aCol a b row col k := by
  have hentry : ∀ res : Pointer MatrixElementType (aRow * bCol),
      accumulateTo r aCol a b aCol row col res =
        accumulateTo r aCol a b k row col res >>= forRange k aCol (accumulate r aCol a b row col) := by
    intro res
    simp only [accumulateTo, bind_assoc]
    exact bind_congr fun res => forRange_split (Nat.zero_le k) hk _ res
  have hline : ∀ res : Pointer MatrixElementType (aRow * bCol),
      forRange 0 bCol (accumulateTo r aCol a b aCol row) res =
        forRange 0 col (accumulateTo r aCol a b aCol row) res >>= fun res =>
          accumulateTo r aCol a b aCol row col res >>=
            forRange (col + 1) bCol (accumulateTo r aCol a b aCol row) := by
    intro res
    rw [forRange_split (Nat.zero_le col) hcol.le]
    exact bind_congr fun res => forRange_head hcol _ res
  rw [calculateRounded, forRange_split (Nat.zero_le row) hrow.le]
  simp only [calculateUntil, bind_assoc]
  refine bind_congr fun res => ?_
  rw [forRange_head hrow, hline]
  simp only [hentry, bind_assoc]
  rfl

end Rounded

/-- The term of entry `(row, col)` that `k` contributes. -/
def term {sizeA sizeB : ℕ} (aCol bCol : ℕ) (a : Buffer MatrixElementType sizeA)
    (b : Buffer MatrixElementType sizeB) (row col k : ℕ) : ℚ :=
  a.value (row * aCol + k) * b.value (k * bCol + col)

section Exact

variable {aCol : ℕ} {a : Buffer MatrixElementType (aRow * aCol)}
  {b : Buffer MatrixElementType (aCol * bCol)}

/-- No operation on the way to entry `(row, col)` is rounded. -/
def Unrounded (a : Buffer MatrixElementType (aRow * aCol))
    (b : Buffer MatrixElementType (aCol * bCol)) (row col : ℕ) : Prop :=
  ∀ k < aCol, r.add (∑ c ∈ range k, term aCol bCol a b row col c)
    (r.mul (a.value (row * aCol + k)) (b.value (k * bCol + col))) =
      ∑ c ∈ range (k + 1), term aCol bCol a b row col c

/-- The entry then holds the sum of the first `k` terms, and no other entry changes. -/
theorem accumulateTo_ensures (ha : a.Assigned) (hb : b.Assigned) {row col k : ℕ}
    (hrow : row < aRow) (hcol : col < bCol) (hk : k ≤ aCol) (hexact : Unrounded r a b row col)
    (c : Buffer MatrixElementType (aRow * bCol)) :
    Ensures (accumulateTo r aCol a b k row col (some c)) fun res =>
      ∃ c', res = some c' ∧
        c'.cell (row * bCol + col) = .set (∑ i ∈ range k, term aCol bCol a b row col i) ∧
        ∀ p ≠ row * bCol + col, c'.cell p = c.cell p := by
  have hlt := rowMajor_lt hrow hcol
  rw [accumulateTo, Pointer.store_some_of_lt _ _ hlt]
  refine forRange_zero_ensures (fun k (res : Pointer MatrixElementType (aRow * bCol)) =>
    ∃ c', res = some c' ∧
      c'.cell (row * bCol + col) = .set (∑ i ∈ range k, term aCol bCol a b row col i) ∧
      ∀ p ≠ row * bCol + col, c'.cell p = c.cell p)
    ⟨_, rfl, by simp, fun p hp => by simp [hp]⟩ ?_
  rintro i res hi ⟨c', rfl, hsum, hrest⟩
  have hload : Pointer.load (some c') (row * bCol + col) =
      .ok (∑ i ∈ range i, term aCol bCol a b row col i) := Buffer.read_of_set hlt hsum
  simp only [accumulate, hload, ha.stores.read (rowMajor_lt hrow (by omega : i < aCol)),
    hb.stores.read (rowMajor_lt (by omega : i < aCol) hcol), bind, Except.bind,
    Pointer.store_some_of_lt _ _ hlt, hexact i (by omega)]
  exact .ok ⟨_, rfl, by simp, fun p hp => by simp [hp, hrest p hp]⟩

/-- The value of every entry, by its place in the block. -/
def dotProduct (a : Buffer MatrixElementType (aRow * aCol))
    (b : Buffer MatrixElementType (aCol * bCol)) (p : ℕ) : ℚ :=
  ∑ k ∈ range aCol, term aCol bCol a b (p / bCol) (p % bCol) k

/-- A finished entry extends the finished part of the result. -/
theorem accumulateTo_filled (ha : a.Assigned) (hb : b.Assigned) {row col : ℕ}
    (hrow : row < aRow) (hcol : col < bCol) (hexact : Unrounded r a b row col)
    {res : Pointer MatrixElementType (aRow * bCol)}
    (hfilled : ∃ c, res = some c ∧ c.FilledTo (row * bCol + col) (dotProduct a b)) :
    Ensures (accumulateTo r aCol a b aCol row col res) fun res =>
      ∃ c, res = some c ∧ c.FilledTo (row * bCol + col + 1) (dotProduct a b) := by
  obtain ⟨c, rfl, hfilled⟩ := hfilled
  refine (accumulateTo_ensures r ha hb hrow hcol le_rfl hexact c).mono ?_
  rintro res ⟨c', rfl, hcell, hrest⟩
  refine ⟨c', rfl, fun p hp => ?_⟩
  by_cases hpe : p = row * bCol + col
  · rw [hpe, hcell, dotProduct, rowMajor_div hcol, rowMajor_mod hcol]
  · rw [hrest p hpe]
    exact hfilled p (by omega)

/-- Without rounding, the result is the product of the matrices. -/
theorem calculateRounded_ensures (ha : a.Assigned) (hb : b.Assigned)
    (hexact : ∀ row col, row < aRow → col < bCol → Unrounded r a b row col)
    (c : Buffer MatrixElementType (aRow * bCol)) :
    Ensures (calculateRounded r aCol a b (some c)) fun res =>
      ∃ c', res = some c' ∧ c'.Stores (dotProduct a b) := by
  refine forRange_rowMajor_ensures (fun m (res : Pointer MatrixElementType (aRow * bCol)) =>
    ∃ c', res = some c' ∧ c'.FilledTo m (dotProduct a b)) ⟨c, rfl, Buffer.filledTo_zero _ _⟩ ?_
  intro row col res hrow hcol hfilled
  exact accumulateTo_filled r ha hb hrow hcol (hexact row col hrow hcol) hfilled

/-- And every partial sum is the exact one. -/
theorem calculateUntil_ensures (ha : a.Assigned) (hb : b.Assigned)
    (hexact : ∀ row col, row < aRow → col < bCol → Unrounded r a b row col) {row col k : ℕ}
    (hrow : row < aRow) (hcol : col < bCol) (hk : k ≤ aCol)
    (c : Buffer MatrixElementType (aRow * bCol)) :
    Ensures (calculateUntil r aCol a b row col k (some c)) fun res =>
      ∃ c', res = some c' ∧
        c'.cell (row * bCol + col) = .set (∑ i ∈ range k, term aCol bCol a b row col i) := by
  refine (forRange_rowMajor_ensures (fun m (res : Pointer MatrixElementType (aRow * bCol)) =>
    ∃ c', res = some c' ∧ c'.FilledTo m (dotProduct a b)) ⟨c, rfl, Buffer.filledTo_zero _ _⟩
    fun i j res hi hj hfilled => accumulateTo_filled r ha hb (by omega) hj
      (hexact i j (by omega) hj) hfilled).bind fun res hres => ?_
  refine (forRange_zero_ensures (fun j (res : Pointer MatrixElementType (aRow * bCol)) =>
    ∃ c', res = some c' ∧ c'.FilledTo (row * bCol + j) (dotProduct a b)) hres
    fun j res hj hfilled => accumulateTo_filled r ha hb hrow (by omega)
      (hexact row j hrow (by omega)) hfilled).bind ?_
  rintro res ⟨c', rfl, -⟩
  refine (accumulateTo_ensures r ha hb hrow hcol hk (hexact row col hrow hcol) c').mono ?_
  rintro res ⟨c'', hres, hcell, -⟩
  exact ⟨c'', hres, hcell⟩

end Exact

/-! ## Samples against signs -/

/-- Every element is a converted 16-bit sample. -/
def HoldsSamples {size : ℕ} (a : Buffer MatrixElementType size) : Prop :=
  ∀ p < size, ∃ v : UInt16, a.cell p = .set (v.toNat : ℚ)

/-- Every element is plus or minus 1/128. -/
def HoldsSigns {size : ℕ} (b : Buffer MatrixElementType size) : Prop :=
  ∀ p < size, b.cell p = .set (1 / 128) ∨ b.cell p = .set (-(1 / 128))

theorem HoldsSamples.assigned {size : ℕ} {a : Buffer MatrixElementType size}
    (ha : HoldsSamples a) : a.Assigned := by
  intro p hp
  obtain ⟨v, hv⟩ := ha p hp
  exact ⟨_, hv⟩

theorem HoldsSigns.assigned {size : ℕ} {b : Buffer MatrixElementType size} (hb : HoldsSigns b) :
    b.Assigned := by
  intro p hp
  rcases hb p hp with h | h
  · exact ⟨_, h⟩
  · exact ⟨_, h⟩

/-- In every run of `main`, the matrix that `calculate` gets consists of samples that
`getOverlopSignal` stored. -/
theorem holdsSamples_of_bookkept {g : Globals}
    {h : List (Acquisition.State g.sequenceLength × Acquisition.Event)}
    {s : Acquisition.State g.sequenceLength} (hI : Acquisition.Bookkept h s)
    (hpc : s.pc = .calculate) : HoldsSamples s.pOverlapSignal := by
  refine forall_of_rowMajor fun i c hi hc => ?_
  obtain ⟨t, ht, -⟩ := hI.exists_store (r := c) (by rw [hpc]; exact hc)
  have hcell := hI.contents c t ht i hi
  rw [Acquisition.overlapCell, if_pos hpc] at hcell
  exact ⟨_, hcell⟩

theorem holdsSigns_of_createInverseMatrix {length : ℕ}
    {prbs inverse : Buffer MatrixElementType (length * length)} (hprbs : prbs.Assigned)
    (hrun : createInverseMatrix prbs = .ok inverse) : HoldsSigns inverse := by
  refine forall_of_rowMajor fun i j hi hj => ?_
  rw [((createInverseMatrix_ensures hprbs).of_eq_ok hrun).2 i j hi hj]
  split_ifs
  · exact .inr rfl
  · exact .inl rfl

section Bounds

variable {L : ℕ} {a b : Buffer MatrixElementType (L * L)}

/-- Each term is a small multiple of 1/128. -/
theorem exists_numerator (ha : HoldsSamples a) (hb : HoldsSigns b) {row col k : ℕ} (hrow : row < L)
    (hcol : col < L) (hk : k < L) :
    ∃ n : ℤ, |n| ≤ 65535 ∧ term L L a b row col k = n * 2 ^ (-7 : ℤ) := by
  obtain ⟨v, hv⟩ := ha _ (rowMajor_lt hrow hk)
  have hsmall : v.toNat < 65536 := v.toNat_lt
  have habs : |(v.toNat : ℤ)| ≤ 65535 := by
    rw [abs_of_nonneg (Int.natCast_nonneg _)]
    omega
  rw [term, Buffer.value, hv, Buffer.value]
  rcases hb _ (rowMajor_lt hk hcol) with h | h
  · refine ⟨v.toNat, habs, ?_⟩
    rw [h, Cell.value_set, Cell.value_set, Int.cast_natCast]
    norm_num
  · refine ⟨-v.toNat, by rwa [abs_neg], ?_⟩
    rw [h, Cell.value_set, Cell.value_set, Int.cast_neg, Int.cast_natCast]
    norm_num

/-- The numerators of one entry. -/
structure Numerators (a b : Buffer MatrixElementType (L * L)) (row col : ℕ) (n : ℕ → ℤ) : Prop where
  small : ∀ k < L, |n k| ≤ 65535
  term_eq : ∀ k < L, term L L a b row col k = n k * 2 ^ (-7 : ℤ)

theorem exists_numerators (ha : HoldsSamples a) (hb : HoldsSigns b) {row col : ℕ} (hrow : row < L)
    (hcol : col < L) : ∃ n, Numerators a b row col n := by
  have hterm : ∀ k, ∃ n : ℤ, k < L → |n| ≤ 65535 ∧ term L L a b row col k = n * 2 ^ (-7 : ℤ) := by
    intro k
    by_cases hk : k < L
    · obtain ⟨n, hn⟩ := exists_numerator ha hb hrow hcol hk
      exact ⟨n, fun _ => hn⟩
    · exact ⟨0, fun h => absurd h hk⟩
  choose n hn using hterm
  exact ⟨n, fun k hk => (hn k hk).1, fun k hk => (hn k hk).2⟩

namespace Numerators

variable {row col : ℕ} {n : ℕ → ℤ}

theorem sum_abs_le (h : Numerators a b row col n) {s : Finset ℕ} (hs : s ⊆ range L) :
    ∑ k ∈ s, |n k| ≤ 65535 * L := by
  calc ∑ k ∈ s, |n k| ≤ ∑ k ∈ range L, |n k| :=
        sum_le_sum_of_subset_of_nonneg hs fun _ _ _ => abs_nonneg _
    _ ≤ ∑ _k ∈ range L, 65535 := sum_le_sum fun k hk => h.small k (mem_range.mp hk)
    _ = 65535 * L := by rw [sum_const, card_range, nsmul_eq_mul, mul_comm]

theorem abs_sum_le (h : Numerators a b row col n) {s : Finset ℕ} (hs : s ⊆ range L) :
    |∑ k ∈ s, n k| ≤ 65535 * L := (abs_sum_le_sum_abs n s).trans (h.sum_abs_le hs)

theorem sum_term (h : Numerators a b row col n) {s : Finset ℕ} (hs : s ⊆ range L) :
    ∑ k ∈ s, term L L a b row col k = (∑ k ∈ s, n k : ℤ) * 2 ^ (-7 : ℤ) := by
  rw [Int.cast_sum, sum_mul]
  exact sum_congr rfl fun k hk => h.term_eq k (mem_range.mp (hs hk))

/-- Every partial sum has a significand of 24 bits. -/
theorem representable_sum (h : Numerators a b row col n) (hL : L ≤ 256) {s : Finset ℕ}
    (hs : s ⊆ range L) : binary32.Representable (∑ k ∈ s, term L L a b row col k) := by
  rw [h.sum_term hs]
  refine representable_mul_zpow ((h.abs_sum_le hs).trans_lt ?_) (by decide) (by decide)
  rw [show binary32.precision = 24 from rfl]
  omega

theorem representable_term (h : Numerators a b row col n) (hL : L ≤ 256) {k : ℕ} (hk : k < L) :
    binary32.Representable (term L L a b row col k) := by
  have hone := h.representable_sum hL (singleton_subset_iff.mpr (mem_range.mpr hk))
  rwa [sum_singleton] at hone

theorem unrounded (h : Numerators a b row col n) (hL : L ≤ 256) (r : Rounding binary32) :
    Unrounded r a b row col := by
  intro k hk
  have hsum := h.representable_sum hL (range_subset_range.mpr (show k + 1 ≤ L from hk))
  rw [r.mul_eq (h.representable_term hL hk), sum_range_succ]
  rw [sum_range_succ] at hsum
  exact r.add_eq hsum

/-- Any order of summation gives the exact sum of the terms. -/
theorem eval_eq (h : Numerators a b row col n) (hL : L ≤ 256) (r : Rounding binary32)
    {t : SumOrder} (ht : t.terms.Perm (List.range L)) :
    (t.eval r fun k => r.mul (a.value (row * L + k)) (b.value (k * L + col))) =
      ∑ k ∈ range L, term L L a b row col k := by
  have hmem : ∀ k ∈ t.terms, k < L := fun k hk => List.mem_range.mp (ht.mem_iff.mp hk)
  have hsum : ∀ z : ℕ → ℤ, (t.terms.map z).sum = ∑ k ∈ range L, z k :=
    fun z => (ht.map z).sum_eq
  have hx : ∀ k ∈ t.terms,
      r.mul (a.value (row * L + k)) (b.value (k * L + col)) = n k * 2 ^ (-7 : ℤ) := fun k hk =>
    (r.mul_eq (h.representable_term hL (hmem k hk))).trans (h.term_eq k (hmem k hk))
  rw [eval_eq_sum r (by decide) (by decide) t hx, hsum, h.sum_term (Subset.refl _)]
  rw [hsum, show binary32.precision = 24 from rfl]
  have := h.sum_abs_le (Subset.refl _)
  omega

end Numerators

/-- On the way to no entry is anything rounded. -/
theorem unrounded_of_samples (r : Rounding binary32) (hL : L ≤ 256) (ha : HoldsSamples a)
    (hb : HoldsSigns b) : ∀ row col, row < L → col < L → Unrounded r a b row col := by
  intro row col hrow hcol
  obtain ⟨n, hn⟩ := exists_numerators ha hb hrow hcol
  exact hn.unrounded hL r

end Bounds

/-- Up to a length of 256, `calculate` on samples and signs over 128 never rounds: with
any rounding of single precision each accumulator goes through multiples of 1/128 of at
most `65535 * L`, which fits in 24 bits, and ends at the exact product; each product and
each sum of some of them is representable, so any order of summation gives the same. -/
theorem calculate_never_rounds (r : Rounding binary32) {L : ℕ} (hL : L ≤ 256)
    {a b : Buffer MatrixElementType (L * L)} (ha : HoldsSamples a) (hb : HoldsSigns b)
    (res : Buffer MatrixElementType (L * L)) :
    65535 * L < 2 ^ 24 ∧
    (∀ row col k, row < L → col < L → k ≤ L → ∃ (res' : Buffer MatrixElementType (L * L)) (m : ℤ),
      calculateUntil r L a b row col k (some res) = .ok (some res') ∧
      calculateRounded r L a b (some res) = calculateFrom r L a b row col k (some res') ∧
      res'.cell (row * L + col) = .set (m / 128) ∧ |m| ≤ 65535 * L ∧
      (m / 128 : ℚ) = ∑ i ∈ range k, term L L a b row col i) ∧
    (∃ res' : Buffer MatrixElementType (L * L),
      calculateRounded r L a b (some res) = .ok (some res') ∧
      ∀ row col, row < L → col < L →
        res'.cell (row * L + col) = .set (∑ k ∈ range L, term L L a b row col k)) ∧
    ∀ row col, row < L → col < L →
      (∀ k < L, binary32.Representable (term L L a b row col k)) ∧
      (∀ s ⊆ range L, binary32.Representable (∑ k ∈ s, term L L a b row col k)) ∧
      ∀ t : SumOrder, t.terms.Perm (List.range L) →
        (t.eval r fun k => r.mul (a.value (row * L + k)) (b.value (k * L + col))) =
          ∑ k ∈ range L, term L L a b row col k := by
  have hexact := unrounded_of_samples r hL ha hb
  refine ⟨by omega, fun row col k hrow hcol hk => ?_, ?_, fun row col hrow hcol => ?_⟩
  · obtain ⟨n, hn⟩ := exists_numerators ha hb hrow hcol
    have hrange : range k ⊆ range L := range_subset_range.mpr hk
    obtain ⟨_, huntil, res', rfl, hcell⟩ :=
      calculateUntil_ensures r ha.assigned hb.assigned hexact hrow hcol hk res
    have hvalue : ((∑ i ∈ range k, n i : ℤ) / 128 : ℚ) = ∑ i ∈ range k, term L L a b row col i := by
      rw [hn.sum_term hrange]
      norm_num [div_eq_mul_inv]
    refine ⟨res', ∑ i ∈ range k, n i, huntil, ?_, ?_, hn.abs_sum_le hrange, hvalue⟩
    · rw [calculateRounded_eq r L a b hrow hcol hk, huntil]
      rfl
    · rw [hcell, hvalue]
  · obtain ⟨_, hrun, res', rfl, hstores⟩ :=
      calculateRounded_ensures r ha.assigned hb.assigned hexact res
    refine ⟨res', hrun, fun row col hrow hcol => ?_⟩
    rw [hstores _ (rowMajor_lt hrow hcol), dotProduct, rowMajor_div hcol, rowMajor_mod hcol]
  · obtain ⟨n, hn⟩ := exists_numerators ha hb hrow hcol
    exact ⟨fun k => hn.representable_term hL, fun s => hn.representable_sum hL,
      fun t => hn.eval_eq hL r⟩

/-- The first product of a run of order four, rounded to the nearest, with the inverse
that the code makes of the sequence matrix. -/
theorem calculate_never_rounds_first_round :
    ∃ h s inverse res, Runs.Run (Acquisition.step Acquisition.setupFour)
        (Acquisition.State.initial Acquisition.setupFour) h s ∧
      createInverseMatrix Acquisition.setupFour.pPrbs = .ok inverse ∧
      calculateRounded (toNearestEven binary32) 3 s.pOverlapSignal inverse
        (some (.fill (3 * 3) 0)) = .ok (some res) ∧
      res.cell 0 = .set (∑ k ∈ range 3, term 3 3 s.pOverlapSignal inverse 0 0 k) := by
  obtain ⟨h, s, hrun, hpc⟩ := Runs.exists_run_of_exec (Acquisition.step Acquisition.setupFour)
    (Acquisition.State.initial Acquisition.setupFour) Acquisition.firstRoundFour
    (fun _ s => s.pc = .calculate) (by decide +kernel)
  obtain ⟨inverse, hinverse, -⟩ := createInverseMatrix_ensures Acquisition.setupFour.pPrbs_assigned
  obtain ⟨-, -, ⟨res, hresult, hcell⟩, -⟩ := calculate_never_rounds (toNearestEven binary32)
    (L := 3) (by decide) (holdsSamples_of_bookkept (.of_run hrun) hpc)
    (holdsSigns_of_createInverseMatrix Acquisition.setupFour.pPrbs_assigned hinverse)
    (.fill (3 * 3) 0)
  exact ⟨h, s, inverse, res, hrun, hinverse, hresult, hcell 0 0 (by decide) (by decide)⟩

/-- So the step of `main` that calls `calculate`, which the machine takes with rational
arithmetic, leaves in every run what single precision leaves. -/
theorem calculate_eq_rounded_of_run {g : Globals} (m : Acquisition.Setup g)
    (hL : g.sequenceLength ≤ 256) (hsigns : HoldsSigns m.pPrbsTemp)
    {h : List (Acquisition.State g.sequenceLength × Acquisition.Event)}
    {s : Acquisition.State g.sequenceLength}
    (hrun : Runs.Run (Acquisition.step m) (Acquisition.State.initial m) h s)
    (hpc : s.pc = .calculate) (r : Rounding binary32)
    (res : Buffer MatrixElementType (g.sequenceLength * g.sequenceLength)) :
    ∃ c c', calculate (some res) g.sequenceLength s.pOverlapSignal m.pPrbsTemp = .ok (some c) ∧
      calculateRounded r g.sequenceLength s.pOverlapSignal m.pPrbsTemp (some res) =
        .ok (some c') ∧
      ∀ p < g.sequenceLength * g.sequenceLength, c'.cell p = c.cell p := by
  have hsamples := holdsSamples_of_bookkept (.of_run hrun) hpc
  have hexact := unrounded_of_samples r hL hsamples hsigns
  obtain ⟨_, hcalculate, c, rfl, hc⟩ := calculate_ensures res hsamples.assigned hsigns.assigned
  obtain ⟨_, hrounded, c', rfl, hc'⟩ :=
    calculateRounded_ensures r hsamples.assigned hsigns.assigned hexact res
  exact ⟨c, c', hcalculate, hrounded, fun p hp => (hc' p hp).trans (hc p hp).symm⟩

end HadamardIMS.Precision
