import Mathlib.Algebra.BigOperators.Intervals
import Mathlib.Algebra.BigOperators.Ring.Finset
import Mathlib.Algebra.BigOperators.Field
import Mathlib.Tactic.Ring

/-!
# Sylvester matrices and their simplex cores

The Sylvester matrix of order `2 ^ k` in its closed form: entry `(i, j)` is a
sign, negative when `i` and `j` have an odd number of one bits in common. The
block structure of the doubling construction and the orthogonality of the rows
follow by splitting off the leading bit. The simplex core drops the first row
and column and maps the signs to zero and one; its sign matrix is, up to a
factor, its inverse.
-/
namespace HadamardIMS.Sylvester

open Finset

/-- The number of one bits that `i` and `j` share among their lowest `k`. -/
def commonOnes (k i j : ℕ) : ℕ := #{b ∈ range k | i.testBit b ∧ j.testBit b}

theorem commonOnes_comm (k i j : ℕ) : commonOnes k i j = commonOnes k j i := by
  simp only [commonOnes, and_comm]

@[simp] theorem commonOnes_zero_left (k j : ℕ) : commonOnes k 0 j = 0 := by
  simp [commonOnes]

/-- Bit `k` of a number below `2 ^ (k + 1)` is its leading digit `a`. -/
theorem commonOnes_block {k i j a b : ℕ} (hi : i < 2 ^ k) (hj : j < 2 ^ k) (ha : a < 2)
    (hb : b < 2) :
    commonOnes (k + 1) (2 ^ k * a + i) (2 ^ k * b + j) = commonOnes k i j + a * b := by
  have hlow : ({c ∈ range k | (2 ^ k * a + i).testBit c ∧ (2 ^ k * b + j).testBit c} : Finset ℕ) =
      {c ∈ range k | i.testBit c ∧ j.testBit c} := by
    refine filter_congr fun c hc => ?_
    have hck : c < k := mem_range.mp hc
    simp [Nat.testBit_two_pow_mul_add _ hi, Nat.testBit_two_pow_mul_add _ hj, hck]
  have hbit : ((2 ^ k * a + i).testBit k ∧ (2 ^ k * b + j).testBit k) ↔ a = 1 ∧ b = 1 := by
    simp only [Nat.testBit_two_pow_mul_add _ hi, Nat.testBit_two_pow_mul_add _ hj,
      lt_irrefl, if_false, Nat.sub_self, Nat.testBit_zero, decide_eq_true_eq]
    omega
  rw [commonOnes, range_add_one, filter_insert, hlow]
  by_cases h : a = 1 ∧ b = 1
  · rw [if_pos (hbit.mpr h), card_insert_of_notMem (by simp), h.1, h.2]
    rfl
  · rw [if_neg (fun hh => h (hbit.mp hh))]
    have h0 : a * b = 0 := by
      rcases Nat.lt_or_ge a 1 with h1 | h1
      · simp [show a = 0 by omega]
      · simp [show b = 0 by omega]
    rw [h0]
    rfl

section Ring

variable {R : Type*} [CommRing R]

/-- Entry `(i, j)` of the Sylvester matrix of order `2 ^ k`. -/
def sylvester (R : Type*) [CommRing R] (k i j : ℕ) : R := (-1) ^ commonOnes k i j

theorem sylvester_comm (k i j : ℕ) : sylvester R k i j = sylvester R k j i := by
  simp only [sylvester, commonOnes_comm k i j]

@[simp] theorem sylvester_zero_left (k j : ℕ) : sylvester R k 0 j = 1 := by
  simp [sylvester]

@[simp] theorem sylvester_zero_right (k i : ℕ) : sylvester R k i 0 = 1 := by
  rw [sylvester_comm, sylvester_zero_left]

theorem sylvester_eq_or (k i j : ℕ) : sylvester R k i j = 1 ∨ sylvester R k i j = -1 :=
  neg_one_pow_eq_or R _

/-- The doubling construction: three copies of the matrix of half the order, and
its negative where both leading bits are one. -/
theorem sylvester_block {k i j a b : ℕ} (hi : i < 2 ^ k) (hj : j < 2 ^ k) (ha : a < 2)
    (hb : b < 2) :
    sylvester R (k + 1) (2 ^ k * a + i) (2 ^ k * b + j) = (-1) ^ (a * b) * sylvester R k i j := by
  rw [sylvester, commonOnes_block hi hj ha hb, pow_add, mul_comm, sylvester]

/-- A sum over a row of the doubled matrix, half by half. -/
theorem sum_range_two_pow_succ (k : ℕ) (f : ℕ → R) :
    ∑ j ∈ range (2 ^ (k + 1)), f j =
      ∑ j ∈ range (2 ^ k), f (2 ^ k * 0 + j) + ∑ j ∈ range (2 ^ k), f (2 ^ k * 1 + j) := by
  rw [pow_succ, mul_two, sum_range_add]
  simp

/-- Distinct rows are orthogonal, and each row has squared length `2 ^ k`. -/
theorem sum_sylvester_mul (k : ℕ) {i i' : ℕ} (hi : i < 2 ^ k) (hi' : i' < 2 ^ k) :
    ∑ j ∈ range (2 ^ k), sylvester R k i j * sylvester R k i' j =
      if i = i' then 2 ^ k else 0 := by
  induction k generalizing i i' with
  | zero =>
    have h : i = 0 ∧ i' = 0 := by simp only [pow_zero] at hi hi'; omega
    simp [h.1, h.2]
  | succ k ih =>
    have hpos : 0 < 2 ^ k := Nat.two_pow_pos k
    have ha : i / 2 ^ k < 2 := Nat.div_lt_of_lt_mul (by rwa [pow_succ] at hi)
    have ha' : i' / 2 ^ k < 2 := Nat.div_lt_of_lt_mul (by rwa [pow_succ] at hi')
    have hm : i % 2 ^ k < 2 ^ k := Nat.mod_lt _ hpos
    have hm' : i' % 2 ^ k < 2 ^ k := Nat.mod_lt _ hpos
    obtain ⟨a, r, hra, har, rfl⟩ : ∃ a r, r < 2 ^ k ∧ a < 2 ∧ i = 2 ^ k * a + r :=
      ⟨_, _, hm, ha, (Nat.div_add_mod i _).symm⟩
    obtain ⟨a', r', hra', har', rfl⟩ : ∃ a r, r < 2 ^ k ∧ a < 2 ∧ i' = 2 ^ k * a + r :=
      ⟨_, _, hm', ha', (Nat.div_add_mod i' _).symm⟩
    have hhalf : ∀ b, b < 2 → ∑ j ∈ range (2 ^ k), sylvester R (k + 1) (2 ^ k * a + r)
          (2 ^ k * b + j) * sylvester R (k + 1) (2 ^ k * a' + r') (2 ^ k * b + j) =
        (-1) ^ (a * b) * (-1) ^ (a' * b) * if r = r' then 2 ^ k else 0 := by
      intro b hb
      rw [← ih hra hra', mul_sum]
      refine sum_congr rfl fun j hj => ?_
      rw [sylvester_block hra (mem_range.mp hj) har hb,
        sylvester_block hra' (mem_range.mp hj) har' hb]
      ring
    rw [sum_range_two_pow_succ, hhalf 0 (by omega), hhalf 1 (by omega)]
    -- The halves cancel unless the leading bits agree.
    have hsplit : 2 ^ k * a + r = 2 ^ k * a' + r' ↔ a = a' ∧ r = r' := by
      constructor
      · intro h
        have hq : a = a' := by
          have hdiv := congrArg (· / 2 ^ k) h
          simpa [Nat.mul_add_div hpos, Nat.div_eq_of_lt hra, Nat.div_eq_of_lt hra'] using hdiv
        subst hq
        exact ⟨rfl, by omega⟩
      · rintro ⟨rfl, rfl⟩
        rfl
    simp only [hsplit]
    by_cases hr : r = r'
    · have hcase : (a = 0 ∨ a = 1) ∧ (a' = 0 ∨ a' = 1) := by omega
      obtain ⟨rfl | rfl, rfl | rfl⟩ := hcase <;> simp [hr] <;> ring
    · simp [hr]

end Ring

section Field

variable {R : Type*} [Field R]

/-- Entry `(i, j)` of the simplex core of order `2 ^ k - 1`: one where the sign
is negative, zero where it is positive. -/
def simplex (R : Type*) [Field R] (k i j : ℕ) : R := (1 - sylvester R k (i + 1) (j + 1)) / 2

theorem simplex_comm (k i j : ℕ) : simplex R k i j = simplex R k j i := by
  rw [simplex, sylvester_comm, simplex]

/-- The core is a matrix of bits. -/
theorem simplex_eq_or [NeZero (2 : R)] (k i j : ℕ) : simplex R k i j = 0 ∨ simplex R k i j = 1 := by
  rcases sylvester_eq_or (R := R) k (i + 1) (j + 1) with h | h
  · left
    rw [simplex, h, sub_self, zero_div]
  · right
    rw [simplex, h, sub_neg_eq_add, one_add_one_eq_two, div_self two_ne_zero]

/-- Against the signs of another row, a row of the core sums to zero; against
its own signs it sums to half the order. -/
theorem sum_simplex_mul_sign {k i c : ℕ} (hi : i < 2 ^ k - 1) (hc : c < 2 ^ k - 1) :
    ∑ j ∈ range (2 ^ k - 1), simplex R k i j * -sylvester R k (c + 1) (j + 1) =
      if i = c then 2 ^ k / 2 else 0 := by
  have hn : 2 ^ k - 1 + 1 = 2 ^ k := Nat.sub_add_cancel (Nat.one_le_two_pow)
  -- Sums over the core are sums over the whole row less the first column.
  have hrow : ∑ j ∈ range (2 ^ k - 1), sylvester R k (c + 1) (j + 1) = -1 := by
    have h := sum_sylvester_mul (R := R) k (show 0 < 2 ^ k by omega) (show c + 1 < 2 ^ k by omega)
    rw [← hn, sum_range_succ', if_neg (Nat.succ_ne_zero c).symm] at h
    simp only [sylvester_zero_left, one_mul, sylvester_zero_right] at h
    exact eq_neg_of_add_eq_zero_left h
  have hdot : ∑ j ∈ range (2 ^ k - 1), sylvester R k (i + 1) (j + 1) *
      sylvester R k (c + 1) (j + 1) = (if i = c then 2 ^ k else 0) - 1 := by
    have h := sum_sylvester_mul (R := R) k (show i + 1 < 2 ^ k by omega)
      (show c + 1 < 2 ^ k by omega)
    rw [← hn, sum_range_succ'] at h
    simp only [sylvester_zero_right, mul_one, Nat.add_right_cancel_iff] at h
    exact eq_sub_of_add_eq h
  have hterm : ∀ j, simplex R k i j * -sylvester R k (c + 1) (j + 1) =
      (sylvester R k (i + 1) (j + 1) * sylvester R k (c + 1) (j + 1) -
        sylvester R k (c + 1) (j + 1)) / 2 := by
    intro j
    rw [simplex]
    ring
  rw [sum_congr rfl fun j _ => hterm j, ← sum_div, sum_sub_distrib, hrow, hdot]
  split_ifs <;> ring

end Field

/-! ## A factorisation into unit triangles -/

theorem commonOnes_le (k i j : ℕ) : commonOnes k i j ≤ commonOnes k j j :=
  card_le_card fun b hb => by
    simp only [mem_filter] at hb ⊢
    exact ⟨hb.1, hb.2.2, hb.2.2⟩

/-- A number has the ones of a smaller or equal number only. -/
theorem le_of_commonOnes_eq {k i t : ℕ} (ht : t < 2 ^ k)
    (h : commonOnes k i t = commonOnes k t t) : t ≤ i := by
  refine Nat.le_of_testBit fun b hb => ?_
  have hbk : b < k := by
    by_contra hkb
    rw [Nat.testBit_lt_two_pow (ht.trans_le (Nat.pow_le_pow_right (by omega) (not_lt.mp hkb)))] at hb
    exact Bool.false_ne_true hb
  have hsub : ({c ∈ range k | i.testBit c ∧ t.testBit c} : Finset ℕ) ⊆
      {c ∈ range k | t.testBit c ∧ t.testBit c} :=
    monotone_filter_right _ fun c _ hc => ⟨hc.2, hc.2⟩
  have hmem : b ∈ ({c ∈ range k | t.testBit c ∧ t.testBit c} : Finset ℕ) :=
    mem_filter.mpr ⟨mem_range.mpr hbk, hb, hb⟩
  rw [← eq_of_subset_of_card_le hsub h.ge] at hmem
  exact (mem_filter.mp hmem).2.1

/-- The leading digit of a number below `2 ^ (k + 1)` and the rest. -/
theorem exists_leading_digit {k i : ℕ} (hi : i < 2 ^ (k + 1)) :
    ∃ a r, a < 2 ∧ r < 2 ^ k ∧ i = 2 ^ k * a + r :=
  ⟨i / 2 ^ k, i % 2 ^ k, Nat.div_lt_of_lt_mul (by rwa [pow_succ] at hi),
    Nat.mod_lt _ (Nat.two_pow_pos k), (Nat.div_add_mod i _).symm⟩

section Ring

variable {R : Type*} [CommRing R]

/-- One where the ones of `t` are ones of `i`. -/
def within (R : Type*) [CommRing R] (k i t : ℕ) : R :=
  if commonOnes k i t = commonOnes k t t then 1 else 0

theorem within_self (k t : ℕ) : within R k t t = 1 := if_pos rfl

@[simp] theorem within_zero_right (k i : ℕ) : within R k i 0 = 1 := by
  simp [within, commonOnes_comm k i 0]

theorem within_of_lt {k i t : ℕ} (ht : t < 2 ^ k) (hit : i < t) : within R k i t = 0 :=
  if_neg fun h => absurd (le_of_commonOnes_eq ht h) (not_le.mpr hit)

/-- The leading bit of `t` has to be one of `i`. -/
theorem within_block {k i t a s : ℕ} (hi : i < 2 ^ k) (ht : t < 2 ^ k) (ha : a < 2) (hs : s < 2) :
    within R (k + 1) (2 ^ k * a + i) (2 ^ k * s + t) = if s ≤ a then within R k i t else 0 := by
  have hle := commonOnes_le k i t
  rw [within, commonOnes_block hi ht ha hs, commonOnes_block ht ht hs hs, within]
  have hcases : (a = 0 ∨ a = 1) ∧ (s = 0 ∨ s = 1) := by omega
  obtain ⟨rfl | rfl, rfl | rfl⟩ := hcases
  · simp
  · rw [if_neg (by omega), if_neg (by omega)]
  · simp
  · simp

/-- A sign is a sum over the common ones of its row and column. -/
theorem sum_within_mul (k : ℕ) {i j : ℕ} (hi : i < 2 ^ k) (hj : j < 2 ^ k) :
    ∑ t ∈ range (2 ^ k), within R k i t * (-2) ^ commonOnes k t t * within R k j t =
      sylvester R k i j := by
  induction k generalizing i j with
  | zero =>
    have h : i = 0 ∧ j = 0 := by simp only [pow_zero] at hi hj; omega
    simp [h.1, h.2, within]
  | succ k ih =>
    obtain ⟨a, r, ha, hr, rfl⟩ := exists_leading_digit hi
    obtain ⟨b, q, hb, hq, rfl⟩ := exists_leading_digit hj
    -- The sum over the numbers without the leading bit, and the one over those with it.
    have hhalf : ∀ s, s < 2 → ∑ t ∈ range (2 ^ k), within R (k + 1) (2 ^ k * a + r) (2 ^ k * s + t) *
        (-2) ^ commonOnes (k + 1) (2 ^ k * s + t) (2 ^ k * s + t) *
        within R (k + 1) (2 ^ k * b + q) (2 ^ k * s + t) =
        (if s ≤ a ∧ s ≤ b then (-2) ^ s else 0) * sylvester R k r q := by
      intro s hs
      rw [← ih hr hq, mul_sum]
      refine sum_congr rfl fun t ht => ?_
      have htk := mem_range.mp ht
      have hsq : s * s = s := by
        obtain rfl | rfl : s = 0 ∨ s = 1 := by omega
        · rfl
        · rfl
      rw [within_block hr htk ha hs, within_block hq htk hb hs, commonOnes_block htk htk hs hs,
        hsq, pow_add]
      by_cases hsa : s ≤ a
      · by_cases hsb : s ≤ b
        · simp only [hsa, hsb, and_self, if_true]
          ring
        · simp [hsb]
      · simp [hsa]
    rw [sum_range_two_pow_succ, hhalf 0 (by omega), hhalf 1 (by omega), sylvester_block hr hq ha hb]
    have hcases : (a = 0 ∨ a = 1) ∧ (b = 0 ∨ b = 1) := by omega
    obtain ⟨rfl | rfl, rfl | rfl⟩ := hcases
    · simp
    · simp
    · simp
    · simp only [le_refl, and_self, if_true, zero_le, pow_zero, one_mul, pow_one, mul_one]
      ring

/-- The inverse of the triangle of `within`. -/
def mobius (R : Type*) [CommRing R] (k i t : ℕ) : R :=
  (-1) ^ (commonOnes k i i + commonOnes k t t) * within R k i t

theorem mobius_of_lt {k i t : ℕ} (ht : t < 2 ^ k) (hit : i < t) : mobius R k i t = 0 := by
  rw [mobius, within_of_lt ht hit, mul_zero]

theorem mobius_block {k i t a s : ℕ} (hi : i < 2 ^ k) (ht : t < 2 ^ k) (ha : a < 2) (hs : s < 2) :
    mobius R (k + 1) (2 ^ k * a + i) (2 ^ k * s + t) =
      if s ≤ a then (-1) ^ (a + s) * mobius R k i t else 0 := by
  have hsq : ∀ c, c < 2 → c * c = c := by
    intro c hc
    obtain rfl | rfl : c = 0 ∨ c = 1 := by omega
    · rfl
    · rfl
  rw [mobius, within_block hi ht ha hs, commonOnes_block hi hi ha ha, commonOnes_block ht ht hs hs,
    hsq a ha, hsq s hs]
  by_cases hsa : s ≤ a
  · rw [if_pos hsa, if_pos hsa, mobius]
    ring
  · rw [if_neg hsa, if_neg hsa, mul_zero]

theorem sum_within_mul_mobius (k : ℕ) {i j : ℕ} (hi : i < 2 ^ k) (hj : j < 2 ^ k) :
    ∑ t ∈ range (2 ^ k), within R k i t * mobius R k t j = if i = j then 1 else 0 := by
  induction k generalizing i j with
  | zero =>
    have h : i = 0 ∧ j = 0 := by simp only [pow_zero] at hi hj; omega
    simp [h.1, h.2, within, mobius]
  | succ k ih =>
    have hpos : 0 < 2 ^ k := Nat.two_pow_pos k
    obtain ⟨a, r, ha, hr, rfl⟩ := exists_leading_digit hi
    obtain ⟨b, q, hb, hq, rfl⟩ := exists_leading_digit hj
    have hhalf : ∀ s, s < 2 → ∑ t ∈ range (2 ^ k), within R (k + 1) (2 ^ k * a + r) (2 ^ k * s + t) *
        mobius R (k + 1) (2 ^ k * s + t) (2 ^ k * b + q) =
        (if s ≤ a ∧ b ≤ s then (-1) ^ (s + b) else 0) * if r = q then 1 else 0 := by
      intro s hs
      rw [← ih hr hq, mul_sum]
      refine sum_congr rfl fun t ht => ?_
      have htk := mem_range.mp ht
      rw [within_block hr htk ha hs, mobius_block htk hq hs hb]
      by_cases hsa : s ≤ a
      · by_cases hbs : b ≤ s
        · simp only [hsa, hbs, and_self, if_true]
          ring
        · simp [hbs]
      · simp [hsa]
    rw [sum_range_two_pow_succ, hhalf 0 (by omega), hhalf 1 (by omega)]
    have hcases : (a = 0 ∨ a = 1) ∧ (b = 0 ∨ b = 1) := by omega
    obtain ⟨rfl | rfl, rfl | rfl⟩ := hcases
    · simp
    · rw [if_neg (show 2 ^ k * 0 + r ≠ 2 ^ k * 1 + q by omega)]
      simp
    · rw [if_neg (show 2 ^ k * 1 + r ≠ 2 ^ k * 0 + q by omega)]
      simp only [zero_le, and_self, if_true, le_refl, Nat.add_zero, pow_zero, pow_one]
      ring
    · simp

end Ring

section Field

variable {R : Type*} [Field R]

/-- The core in the same form, without the term of zero. -/
theorem simplex_eq_sum_within {k i j : ℕ} (hi : i < 2 ^ k - 1) (hj : j < 2 ^ k - 1) :
    simplex R k i j = ∑ t ∈ range (2 ^ k - 1), within R k (i + 1) (t + 1) *
      (-(-2) ^ commonOnes k (t + 1) (t + 1) / 2) * within R k (j + 1) (t + 1) := by
  have hn : 2 ^ k - 1 + 1 = 2 ^ k := Nat.sub_add_cancel Nat.one_le_two_pow
  have hsum := sum_within_mul (R := R) k (show i + 1 < 2 ^ k by omega) (show j + 1 < 2 ^ k by omega)
  rw [← hn, sum_range_succ', within_zero_right, within_zero_right, commonOnes_zero_left] at hsum
  have hterm : ∀ t, within R k (i + 1) (t + 1) *
      (-(-2) ^ commonOnes k (t + 1) (t + 1) / 2) * within R k (j + 1) (t + 1) =
      -(within R k (i + 1) (t + 1) * (-2) ^ commonOnes k (t + 1) (t + 1) *
        within R k (j + 1) (t + 1)) / 2 := fun t => by ring
  rw [simplex, ← hsum, sum_congr rfl fun t _ => hterm t, ← sum_div, sum_neg_distrib]
  ring

end Field
end HadamardIMS.Sylvester
