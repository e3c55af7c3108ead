import HadamardIMS.Buffers
import HadamardIMS.Sylvester
import Mathlib.LinearAlgebra.Matrix.Symmetric
import Mathlib.Tactic.IntervalCases

/-!
# `hadamard`: the doubling construction

The rows are separate blocks behind a block of row pointers; each pass of the
outer loop fills three quadrants from the leading one. Numbers are exact
rationals. `malloc` succeeds here and returns blocks of arbitrary old content:
what an exhausted heap does is the subject of the allocation model. Freeing the
rows at the end does not change the returned block and is part of that model too.
-/
namespace HadamardIMS.Hadamard

open Loops Buffers Sylvester

/-- `typedef float32_t MatrixElementType`, computed without rounding. -/
abbrev MatrixElementType := ℚ

/-- `MatrixElementType **pointer`, with all rows of one length. -/
abbrev Rows (n : ℕ) := Buffer (Buffer MatrixElementType n) n

namespace Rows

variable {n : ℕ}

/-- `pointer[j][k]` as a value. -/
def readEntry (p : Rows n) (j k : ℕ) : Except Fault MatrixElementType := do
  let row ← p.read j
  row.read k

/-- `pointer[j][k] = x`. -/
def writeEntry (p : Rows n) (j k : ℕ) (x : MatrixElementType) : Except Fault (Rows n) := do
  let row ← p.read j
  let row ← row.write k x
  p.write j row

def entry (p : Rows n) (j k : ℕ) : Cell MatrixElementType := (p.value j).cell k

def putEntry (p : Rows n) (j k : ℕ) (x : MatrixElementType) : Rows n :=
  p.put j ((p.value j).put k x)

theorem readEntry_of_set {p : Rows n} (hp : p.Assigned) {j k : ℕ} {x : MatrixElementType}
    (hj : j < n) (hk : k < n) (hx : p.entry j k = .set x) : p.readEntry j k = .ok x := by
  have hrow := hp.stores.read hj
  simp only [readEntry, hrow, bind, Except.bind]
  exact Buffer.read_of_set hk hx

theorem writeEntry_of_lt {p : Rows n} (hp : p.Assigned) {j k : ℕ} (x : MatrixElementType)
    (hj : j < n) (hk : k < n) : p.writeEntry j k x = .ok (p.putEntry j k x) := by
  have hrow := hp.stores.read hj
  simp only [writeEntry, hrow, bind, Except.bind, Buffer.write_of_lt _ _ hk]
  exact Buffer.write_of_lt _ _ hj

@[simp] theorem entry_putEntry (p : Rows n) (j k j' k' : ℕ) (x : MatrixElementType) :
    (p.putEntry j k x).entry j' k' = if j' = j ∧ k' = k then .set x else p.entry j' k' := by
  by_cases hj : j' = j
  · subst hj
    by_cases hk : k' = k <;> simp [entry, putEntry, Buffer.value, hk]
  · simp [entry, putEntry, Buffer.value, hj]

/-- All rows are allocated, and the entries in `D` have been assigned the
values of `F`. -/
structure Known (p : Rows n) (D : ℕ → ℕ → Prop) (F : ℕ → ℕ → MatrixElementType) : Prop where
  assigned : p.Assigned
  entries : ∀ j k, D j k → p.entry j k = .set (F j k)

theorem Known.mono {p : Rows n} {D D' : ℕ → ℕ → Prop} {F F' : ℕ → ℕ → MatrixElementType}
    (h : p.Known D F) (hD : ∀ j k, D' j k → D j k) (hF : ∀ j k, D' j k → F j k = F' j k) :
    p.Known D' F' :=
  ⟨h.assigned, fun j k hjk => by rw [h.entries j k (hD j k hjk), hF j k hjk]⟩

/-- Assigning one more entry its value keeps everything known before, whether
or not the entry was among it. -/
theorem Known.put {p : Rows n} {D : ℕ → ℕ → Prop} {F : ℕ → ℕ → MatrixElementType}
    (h : p.Known D F) (j k : ℕ) :
    (p.putEntry j k (F j k)).Known (fun j' k' => D j' k' ∨ (j' = j ∧ k' = k)) F := by
  refine ⟨h.assigned.put _ _, fun j' k' hjk => ?_⟩
  rw [entry_putEntry]
  split_ifs with he
  · rw [he.1, he.2]
  · exact h.entries j' k' (hjk.resolve_right he)

end Rows

/-- One of the three inner loop nests of `hadamard`: every entry of a rectangle
is assigned from the entry `down` rows above and `right` columns to the left. -/
def fillQuadrant {n : ℕ} (jLo jHi kLo kHi down right : ℕ)
    (f : MatrixElementType → MatrixElementType) (pointer : Rows n) : Except Fault (Rows n) :=
  forRange jLo jHi (fun j pointer =>
    forRange kLo kHi (fun k pointer => do
      let x ← pointer.readEntry (j - down) (k - right)
      pointer.writeEntry j k (f x)) pointer) pointer

/-- The body of the `iteration` loop. -/
def doublingStep {n : ℕ} (i : ℕ) (pointer : Rows n) : Except Fault (Rows n) := do
  let bound := 2 ^ (i + 2)
  let pointer ← fillQuadrant 0 (bound / 2) (bound / 2) bound 0 (bound / 2) id pointer
  let pointer ← fillQuadrant (bound / 2) bound 0 (bound / 2) (bound / 2) 0 id pointer
  fillQuadrant (bound / 2) bound (bound / 2) bound (bound / 2) (bound / 2) (fun x => -x) pointer

/-- The allocation of the row pointers and of the rows. -/
def allocateRows (n : ℕ) (stale : ℕ → Buffer MatrixElementType n)
    (junk : ℕ → ℕ → MatrixElementType) : Except Fault (Rows n) :=
  forRange 0 n (fun i pointer => pointer.write i (Buffer.malloc n (junk i)))
    (Buffer.malloc n stale)

/-- `hadamard` from the point where `iteration` is known. `stale`, `junk` and
`old` are what the blocks of row pointers, the rows and the result held. -/
def hadamardWith (iteration n : ℕ) (stale : ℕ → Buffer MatrixElementType n)
    (junk : ℕ → ℕ → MatrixElementType) (old : ℕ → MatrixElementType) :
    Except Fault (Buffer MatrixElementType (n * n)) := do
  let pointer ← allocateRows n stale junk
  let pointer ← pointer.writeEntry 0 0 1
  let pointer ← pointer.writeEntry 0 1 1
  let pointer ← pointer.writeEntry 1 0 1
  let pointer ← pointer.writeEntry 1 1 (-1)
  let pointer ← forRange 0 (iteration - 1) doublingStep pointer
  forRange 0 (n * n) (fun i p => do
    let x ← pointer.readEntry (i / n) (i % n)
    p.write i x) (Buffer.malloc (n * n) old)

/-- The exponent search `if (pow(2, i) == n) { iteration = i; break; }`, with an
exact `pow`. -/
def iterationOf (n : ℕ) : Except Fault (Option ℕ) := breakLoop (fun i => .ok (2 ^ i == n)) 0 10

/-- `hadamard`. Where the search finds no exponent, `iteration` is read without
ever having been assigned. -/
def hadamard (n : ℕ) (stale : ℕ → Buffer MatrixElementType n)
    (junk : ℕ → ℕ → MatrixElementType) (old : ℕ → MatrixElementType) :
    Except Fault (Buffer MatrixElementType (n * n)) := do
  match ← iterationOf n with
  | some iteration => hadamardWith iteration n stale junk old
  | none => .error .unassigned

/-- The search supplies the exponent of each order up to `2 ^ 9`. -/
theorem hadamard_two_pow {k : ℕ} (hk : k ≤ 9) (stale : ℕ → Buffer MatrixElementType (2 ^ k))
    (junk : ℕ → ℕ → MatrixElementType) (old : ℕ → MatrixElementType) :
    hadamard (2 ^ k) stale junk old = hadamardWith k (2 ^ k) stale junk old := by
  have hfind : iterationOf (2 ^ k) = .ok (some k) := by
    interval_cases k <;> rfl
  simp [hadamard, hfind, bind, Except.bind]

/-- A quadrant is filled when its source has been, and the values agree. -/
theorem fillQuadrant_ensures {n jLo jHi kLo kHi down right : ℕ}
    {f : MatrixElementType → MatrixElementType} {p : Rows n} {D : ℕ → ℕ → Prop}
    {F : ℕ → ℕ → MatrixElementType} (hp : p.Known D F) (hjle : jLo ≤ jHi) (hkle : kLo ≤ kHi)
    (hj : jHi ≤ n) (hk : kHi ≤ n)
    (hsource : ∀ j k, jLo ≤ j → j < jHi → kLo ≤ k → k < kHi → D (j - down) (k - right))
    (hvalue : ∀ j k, jLo ≤ j → j < jHi → kLo ≤ k → k < kHi →
      f (F (j - down) (k - right)) = F j k) :
    Ensures (fillQuadrant jLo jHi kLo kHi down right f p) fun p =>
      p.Known (fun j k => D j k ∨ (jLo ≤ j ∧ j < jHi ∧ kLo ≤ k ∧ k < kHi)) F := by
  -- Outer invariant: the rectangle is filled above row `i`.
  refine (forRange_ensures
    (fun i (p : Rows n) => p.Known (fun j k => D j k ∨ (jLo ≤ j ∧ j < i ∧ kLo ≤ k ∧ k < kHi)) F)
    hjle (hp.mono (fun j k h => by grind) fun _ _ _ => rfl) ?_)
  intro i p hi hin hrows
  refine (forRange_ensures
    (fun c (p : Rows n) => p.Known (fun j k => D j k ∨ (jLo ≤ j ∧ j < i ∧ kLo ≤ k ∧ k < kHi) ∨
      (j = i ∧ kLo ≤ k ∧ k < c)) F)
    hkle (hrows.mono (fun j k h => by grind) fun _ _ _ => rfl) ?_).mono ?_
  · intro c p hc hcn hcols
    have hread := Rows.readEntry_of_set hcols.assigned (show i - down < n by omega)
      (show c - right < n by omega)
      (hcols.entries _ _ (.inl (hsource i c hi hin hc hcn)))
    simp only [hread, bind, Except.bind,
      Rows.writeEntry_of_lt hcols.assigned _ (show i < n by omega) (show c < n by omega),
      hvalue i c hi hin hc hcn]
    exact .ok ((hcols.put i c).mono (fun j k h => by grind) fun _ _ _ => rfl)
  · exact fun p h => h.mono (fun j k h => by grind) fun _ _ _ => rfl

/-- One pass of the doubling loop turns the leading block of order `2 ^ (i + 1)`
into one of twice the order. -/
theorem doublingStep_ensures {n i : ℕ} {p : Rows n} (hin : 2 ^ (i + 2) ≤ n)
    (hp : p.Known (fun j k => j < 2 ^ (i + 1) ∧ k < 2 ^ (i + 1)) (sylvester ℚ (i + 1))) :
    Ensures (doublingStep i p) fun p =>
      p.Known (fun j k => j < 2 ^ (i + 2) ∧ k < 2 ^ (i + 2)) (sylvester ℚ (i + 2)) := by
  have hhalf : 2 ^ (i + 2) / 2 = 2 ^ (i + 1) := by rw [pow_succ]; simp
  have hdouble : 2 ^ (i + 2) = 2 ^ (i + 1) + 2 ^ (i + 1) := by rw [pow_succ]; omega
  have hpos := Nat.two_pow_pos (i + 1)
  -- The value of an entry of the doubled matrix in terms of its leading block.
  have hblock : ∀ a b j k, a < 2 → b < 2 → j < 2 ^ (i + 1) → k < 2 ^ (i + 1) →
      sylvester ℚ (i + 2) (2 ^ (i + 1) * a + j) (2 ^ (i + 1) * b + k) =
        (-1) ^ (a * b) * sylvester ℚ (i + 1) j k :=
    fun a b j k ha hb hj hk => sylvester_block hj hk ha hb
  have hlead : ∀ j k, j < 2 ^ (i + 1) ∧ k < 2 ^ (i + 1) →
      sylvester ℚ (i + 1) j k = sylvester ℚ (i + 2) j k := by
    intro j k h
    simpa using (hblock 0 0 j k (by omega) (by omega) h.1 h.2).symm
  have hshift : ∀ j, 2 ^ (i + 1) ≤ j → j < 2 ^ (i + 2) →
      j - 2 ^ (i + 1) < 2 ^ (i + 1) ∧ j = 2 ^ (i + 1) * 1 + (j - 2 ^ (i + 1)) := by
    intro j h h'
    omega
  unfold doublingStep
  simp only [hhalf]
  refine (fillQuadrant_ensures (hp.mono (fun _ _ h => h) hlead) (Nat.zero_le _) (by omega)
    (by omega) hin ?_ ?_).bind fun p hp => ?_
  · intro j k _ hj hk hk'
    have := hshift k hk hk'
    omega
  · intro j k _ hj hk hk'
    obtain ⟨hlt, heq⟩ := hshift k hk hk'
    have h := hblock 0 1 j (k - 2 ^ (i + 1)) (by omega) (by omega) hj hlt
    rw [← heq] at h
    simpa [hlead _ _ ⟨hj, hlt⟩] using h.symm
  refine (fillQuadrant_ensures hp (by omega) (Nat.zero_le _) hin (by omega) ?_ ?_).bind
    fun p hp => ?_
  · intro j k hj hj' _ hk
    have := hshift j hj hj'
    omega
  · intro j k hj hj' _ hk
    obtain ⟨hlt, heq⟩ := hshift j hj hj'
    have h := hblock 1 0 (j - 2 ^ (i + 1)) k (by omega) (by omega) hlt hk
    rw [← heq] at h
    simpa [hlead _ _ ⟨hlt, hk⟩] using h.symm
  refine (fillQuadrant_ensures hp (by omega) (by omega) hin hin ?_ ?_).mono fun p hp =>
    hp.mono (fun j k h => ?_) fun _ _ _ => rfl
  · intro j k hj hj' hk hk'
    have := hshift j hj hj'
    have := hshift k hk hk'
    omega
  · intro j k hj hj' hk hk'
    obtain ⟨hlt, heq⟩ := hshift j hj hj'
    obtain ⟨hlt', heq'⟩ := hshift k hk hk'
    have h := hblock 1 1 (j - 2 ^ (i + 1)) (k - 2 ^ (i + 1)) (by omega) (by omega) hlt hlt'
    rw [← heq, ← heq'] at h
    simpa [hlead _ _ ⟨hlt, hlt'⟩] using h.symm
  · omega

/-- After the allocation loop every row pointer has been assigned. -/
theorem allocateRows_ensures (n : ℕ) (stale : ℕ → Buffer MatrixElementType n)
    (junk : ℕ → ℕ → MatrixElementType) :
    Ensures (allocateRows n stale junk) Buffer.Assigned := by
  have h : Ensures (allocateRows n stale junk) fun p =>
      p.FilledTo n fun i => Buffer.malloc n (junk i) := by
    refine forRange_zero_ensures (fun m (p : Rows n) =>
      p.FilledTo m fun i => Buffer.malloc n (junk i))
      (Buffer.filledTo_zero _ _) fun i p hi hp => ?_
    rw [Buffer.write_of_lt _ _ hi]
    exact .ok hp.put
  exact h.mono fun p hp => Buffer.Stores.assigned hp

/-- The four assignments before the loop are the matrix of order two. -/
theorem seed_ensures {n : ℕ} (hn : 2 ≤ n) {p : Rows n} (hp : p.Assigned) :
    Ensures (do
      let p ← p.writeEntry 0 0 1
      let p ← p.writeEntry 0 1 1
      let p ← p.writeEntry 1 0 1
      p.writeEntry 1 1 (-1)) fun p =>
      p.Known (fun j k => j < 2 ∧ k < 2) (sylvester ℚ 1) := by
  have hvalues : sylvester ℚ 1 0 0 = 1 ∧ sylvester ℚ 1 0 1 = 1 ∧ sylvester ℚ 1 1 0 = 1 ∧
      sylvester ℚ 1 1 1 = -1 := by
    have h : commonOnes 1 1 0 = 0 ∧ commonOnes 1 1 1 = 1 := by decide
    simp [sylvester, h.1, h.2]
  obtain ⟨h00, h01, h10, h11⟩ := hvalues
  have hseed : p.Known (fun _ _ => False) (sylvester ℚ 1) := ⟨hp, fun _ _ h => h.elim⟩
  have hwrite : ∀ (q : Rows n) (D : ℕ → ℕ → Prop) (j k : ℕ) (x : ℚ),
      q.Known D (sylvester ℚ 1) → sylvester ℚ 1 j k = x → j < 2 → k < 2 →
      Ensures (q.writeEntry j k x) fun q =>
        q.Known (fun j' k' => D j' k' ∨ (j' = j ∧ k' = k)) (sylvester ℚ 1) := by
    intro q D j k x hq hx hj hk
    rw [Rows.writeEntry_of_lt hq.assigned _ (by omega) (by omega), ← hx]
    exact .ok (hq.put j k)
  refine (hwrite _ _ 0 0 1 hseed h00 (by omega) (by omega)).bind fun q hq => ?_
  refine (hwrite _ _ 0 1 1 hq h01 (by omega) (by omega)).bind fun q hq => ?_
  refine (hwrite _ _ 1 0 1 hq h10 (by omega) (by omega)).bind fun q hq => ?_
  exact (hwrite _ _ 1 1 (-1) hq h11 (by omega) (by omega)).mono fun q hq =>
    hq.mono (fun j k h => by omega) fun _ _ _ => rfl

/-- `hadamard` builds the Sylvester matrix, reading only entries it has assigned. -/
theorem hadamardWith_ensures {k : ℕ} (hk : 1 ≤ k) (stale : ℕ → Buffer MatrixElementType (2 ^ k))
    (junk : ℕ → ℕ → MatrixElementType) (old : ℕ → MatrixElementType) :
    Ensures (hadamardWith k (2 ^ k) stale junk old) fun p =>
      p.Stores fun i => sylvester ℚ k (i / 2 ^ k) (i % 2 ^ k) := by
  have hn : 2 ≤ 2 ^ k := by
    calc 2 = 2 ^ 1 := rfl
      _ ≤ 2 ^ k := Nat.pow_le_pow_right (by omega) hk
  have hassoc : hadamardWith k (2 ^ k) stale junk old =
      allocateRows (2 ^ k) stale junk >>= fun p => (do
        let p ← p.writeEntry 0 0 1
        let p ← p.writeEntry 0 1 1
        let p ← p.writeEntry 1 0 1
        p.writeEntry 1 1 (-1)) >>= fun pointer =>
        forRange 0 (k - 1) doublingStep pointer >>= fun pointer =>
        forRange 0 (2 ^ k * 2 ^ k) (fun i p => do
          let x ← pointer.readEntry (i / 2 ^ k) (i % 2 ^ k)
          p.write i x) (Buffer.malloc (2 ^ k * 2 ^ k) old) := by
    simp only [hadamardWith, bind_assoc]
  rw [hassoc]
  refine (allocateRows_ensures _ _ _).bind fun p hp => (seed_ensures hn hp).bind fun p hp => ?_
  -- After `i` passes the leading block of order `2 ^ (i + 1)` is in place.
  refine (forRange_zero_ensures (fun i (p : Rows (2 ^ k)) => p.Known
    (fun j c => j < 2 ^ (i + 1) ∧ c < 2 ^ (i + 1)) (sylvester ℚ (i + 1))) (by simpa using hp)
    fun i p hi hp => doublingStep_ensures (Nat.pow_le_pow_right (by omega) (by omega)) hp).bind
    fun pointer hpointer => ?_
  rw [Nat.sub_add_cancel hk] at hpointer
  refine forRange_zero_ensures (fun m (p : Buffer MatrixElementType (2 ^ k * 2 ^ k)) =>
    p.FilledTo m fun i => sylvester ℚ k (i / 2 ^ k) (i % 2 ^ k)) (Buffer.filledTo_zero _ _)
    fun i p hi hp => ?_
  have hrow : i / 2 ^ k < 2 ^ k := Nat.div_lt_of_lt_mul hi
  have hcol : i % 2 ^ k < 2 ^ k := Nat.mod_lt _ (by omega)
  rw [Rows.readEntry_of_set hpointer.assigned hrow hcol (hpointer.entries _ _ ⟨hrow, hcol⟩)]
  simp only [bind, Except.bind, Buffer.write_of_lt _ _ hi]
  exact .ok hp.put

/-- Row-major form of the same fact. -/
theorem hadamardWith_entries {k : ℕ} (hk : 1 ≤ k)
    (stale : ℕ → Buffer MatrixElementType (2 ^ k)) (junk : ℕ → ℕ → MatrixElementType)
    (old : ℕ → MatrixElementType) :
    Ensures (hadamardWith k (2 ^ k) stale junk old) fun p =>
      ∀ i j, i < 2 ^ k → j < 2 ^ k → p.cell (i * 2 ^ k + j) = .set (sylvester ℚ k i j) := by
  refine (hadamardWith_ensures hk stale junk old).mono fun p hp i j hi hj => ?_
  simp only [hp _ (rowMajor_lt hi hj), rowMajor_div hj, rowMajor_mod hj]

/-- `hadamard` returns the Sylvester matrix of its order in closed form, whatever
the allocated memory held: symmetric, with leading ones, and with orthogonal
rows. No unassigned entry is read on the way. The search supplies `iteration`
for the orders up to `2 ^ 9`. -/
theorem hadamard_sylvester (k : ℕ) (hk : 1 ≤ k) (stale : ℕ → Buffer MatrixElementType (2 ^ k))
    (junk : ℕ → ℕ → MatrixElementType) (old : ℕ → MatrixElementType) :
    ∃ p, hadamardWith k (2 ^ k) stale junk old = .ok p ∧
      (k ≤ 9 → hadamard (2 ^ k) stale junk old = .ok p) ∧
      (∀ i j, i < 2 ^ k → j < 2 ^ k →
        p.cell (i * 2 ^ k + j) = .set ((-1) ^ commonOnes k i j)) ∧
      (p.toMatrix (2 ^ k) (2 ^ k)).IsSymm ∧
      (∀ j < 2 ^ k, p.cell j = .set 1 ∧ p.cell (j * 2 ^ k) = .set 1) ∧
      p.toMatrix (2 ^ k) (2 ^ k) * (p.toMatrix (2 ^ k) (2 ^ k)).transpose =
        (2 ^ k : ℚ) • (1 : Matrix (Fin (2 ^ k)) (Fin (2 ^ k)) ℚ) := by
  obtain ⟨p, hrun, hp⟩ := hadamardWith_entries hk stale junk old
  have hentry : ∀ i j : Fin (2 ^ k), p.toMatrix (2 ^ k) (2 ^ k) i j = sylvester ℚ k i j := by
    intro i j
    simp [Buffer.toMatrix, Buffer.value, hp i j i.isLt j.isLt]
  refine ⟨p, hrun, fun h => by rw [hadamard_two_pow h, hrun], hp, ?_, fun j hj => ⟨?_, ?_⟩, ?_⟩
  · ext i j
    rw [Matrix.transpose_apply, hentry, hentry, sylvester_comm]
  · simpa using hp 0 j (Nat.two_pow_pos k) hj
  · simpa using hp j 0 hj (Nat.two_pow_pos k)
  · ext i j
    simp only [Matrix.mul_apply, Matrix.transpose_apply, hentry, Matrix.smul_apply,
      Matrix.one_apply, Fin.ext_iff, smul_eq_mul, mul_ite, mul_one, mul_zero]
    rw [← sum_sylvester_mul k i.isLt j.isLt,
      Fin.sum_univ_eq_sum_range fun c => sylvester ℚ k i c * sylvester ℚ k j c]

theorem hadamard_sylvester_order_four :
    ∃ p, hadamardWith 2 4 (fun _ => .fill 4 7) (fun _ _ => 7) (fun _ => 7) = .ok p ∧
      hadamard 4 (fun _ => .fill 4 7) (fun _ _ => 7) (fun _ => 7) = .ok p ∧
      p.cell (3 * 4 + 1) = .set (-1) := by
  obtain ⟨p, hrun, hsearch, hp, -⟩ := hadamard_sylvester 2 (by decide)
    (fun _ => .fill 4 7) (fun _ _ => 7) (fun _ => 7)
  have hbits : commonOnes 2 3 1 = 1 := by decide
  have hlast := hp 3 1 (by decide) (by decide)
  rw [hbits, pow_one] at hlast
  exact ⟨p, hrun, hsearch (by decide), hlast⟩

end HadamardIMS.Hadamard
