import HadamardIMS.Significands
import Mathlib.Tactic.FieldSimp
import Mathlib.Tactic.Positivity

/-!
# What rounded sums can be off by

A rounding to the nearest is off by a fixed part of the magnitude, and by the same part of
the smallest normal number where the result is subnormal. Along a sum the error is best
counted together with a bound on the sums: each further addition then multiplies it by one
factor.
-/
namespace HadamardIMS.Significands

variable {f : Format}

/-- For results up to `range` the rounding is off by at most the part `u` of the magnitude and
of the number `least`. -/
structure Rounding.Accurate (r : Rounding f) (u least range : ℚ) : Prop where
  unit_nonneg : 0 ≤ u
  least_nonneg : 0 ≤ least
  abs_sub_le : ∀ x, |x| ≤ range → |r.round x - x| ≤ u * (|x| + least)

/-! ## To the nearest -/

theorem abs_nearestEven_sub_le (x : ℚ) : |(nearestEven x : ℚ) - x| ≤ 1 / 2 := by
  have hfloor := Int.self_sub_floor x
  have hlow := Int.fract_nonneg x
  have hhigh := (Int.fract_lt_one x).le
  rw [nearestEven, abs_le]
  split_ifs with hbelow habove heven
  · constructor <;> linarith
  · push_cast
    constructor <;> linarith
  · constructor <;> linarith
  · push_cast
    constructor <;> linarith

/-- Half a unit of the last place is at most this part of the magnitude. -/
theorem Format.half_lastPlace_le (f : Format) {x : ℚ} (hx : x ≠ 0) :
    (2 : ℚ) ^ f.lastPlace x * (1 / 2) ≤
      2 ^ (-(f.precision : ℤ)) * (|x| + 2 ^ (f.minExponent + f.precision - 1)) := by
  have hpos : 0 < |x| := abs_pos.mpr hx
  have hunit := two_zpow_pos (-(f.precision : ℤ))
  have hhalf : (1 / 2 : ℚ) = 2 ^ (-1 : ℤ) := by norm_num
  rw [hhalf, ← zpow_add₀ two_ne_zero, Format.lastPlace]
  rcases le_total f.minExponent (Int.log 2 |x| + 1 - f.precision) with hle | hle
  · rw [max_eq_right hle, show Int.log 2 |x| + 1 - (f.precision : ℤ) + -1 =
      -(f.precision : ℤ) + Int.log 2 |x| by omega, zpow_add₀ two_ne_zero]
    have hlog : (2 : ℚ) ^ Int.log 2 |x| ≤ |x| := by
      exact_mod_cast Int.zpow_log_le_self (b := 2) (by norm_num) hpos
    have hleast := two_zpow_pos (f.minExponent + f.precision - 1)
    exact mul_le_mul_of_nonneg_left (by linarith) hunit.le
  · rw [max_eq_left hle, show f.minExponent + -1 =
      -(f.precision : ℤ) + (f.minExponent + f.precision - 1) by omega, zpow_add₀ two_ne_zero]
    exact mul_le_mul_of_nonneg_left (by linarith) hunit.le

/-- Rounding to the nearest is accurate to half a unit of the last place. -/
theorem toNearestEven_accurate (f : Format) (range : ℚ) : (toNearestEven f).Accurate
    (2 ^ (-(f.precision : ℤ))) (2 ^ (f.minExponent + f.precision - 1)) range where
  unit_nonneg := (two_zpow_pos _).le
  least_nonneg := (two_zpow_pos _).le
  abs_sub_le := fun x _ => by
    by_cases hx : x = 0
    · have hzero := nearestEven_intCast 0
      rw [Int.cast_zero] at hzero
      have hround : (toNearestEven f).round 0 = 0 := by simp [toNearestEven, hzero]
      rw [hx, hround, sub_zero, abs_zero]
      have hunit := two_zpow_pos (-(f.precision : ℤ))
      have hleast := two_zpow_pos (f.minExponent + f.precision - 1)
      positivity
    · have hplace := two_zpow_pos (f.lastPlace x)
      have hscale : (toNearestEven f).round x - x =
          (nearestEven (x / 2 ^ f.lastPlace x) - x / 2 ^ f.lastPlace x) * 2 ^ f.lastPlace x := by
        rw [sub_mul, div_mul_cancel₀ _ hplace.ne']
        rfl
      rw [hscale, abs_mul, abs_of_pos hplace, mul_comm]
      exact (mul_le_mul_of_nonneg_left (abs_nearestEven_sub_le _) hplace.le).trans
        (f.half_lastPlace_le hx)

/-! ## Sums and quotients -/

theorem abs_sum_le_sum_map_abs (l : List ℚ) : |l.sum| ≤ (l.map abs).sum := by
  have hsum := Multiset.abs_sum_le_sum_abs (s := (l : Multiset ℚ))
  rwa [Multiset.sum_coe, Multiset.map_coe, Multiset.sum_coe] at hsum

namespace Rounding.Accurate

variable {r : Rounding f} {u least range : ℚ} {s S B c : ℚ}

/-- One more term. -/
theorem add (h : r.Accurate u least range) (hs : |s - S| + (B + least) ≤ c) {x : ℚ}
    (hB : |S + x| ≤ B) (hrange : c ≤ range) :
    |r.add s x - (S + x)| + (B + least) ≤ (1 + u) * c := by
  have hleast := h.least_nonneg
  have hsum : |s + x| ≤ |s - S| + |S + x| := by
    rw [show s + x = (s - S) + (S + x) by ring]
    exact abs_add_le _ _
  have hround := h.abs_sub_le (s + x) (by linarith)
  have hscaled : u * (|s + x| + least) ≤ u * c :=
    mul_le_mul_of_nonneg_left (by linarith) h.unit_nonneg
  have herror : |r.add s x - (S + x)| ≤ |r.add s x - (s + x)| + |s - S| := by
    rw [show r.add s x - (S + x) = (r.add s x - (s + x)) + (s - S) by ring]
    exact abs_add_le _ _
  rw [Rounding.add] at herror ⊢
  linarith

/-- The terms of a list, from left to right. -/
theorem foldl (h : r.Accurate u least range) (l : List ℚ) (hs : |s - S| + (B + least) ≤ c)
    (hB : |S| + (l.map abs).sum ≤ B) (hrange : (1 + u) ^ l.length * c ≤ range) :
    |l.foldl r.add s - (S + l.sum)| + (B + least) ≤ (1 + u) ^ l.length * c := by
  induction l generalizing s S c with
  | nil => simpa using hs
  | cons x l ih =>
    have hunit := h.unit_nonneg
    have hnonneg : 0 ≤ (l.map abs).sum := List.sum_nonneg fun y hy => by
      obtain ⟨z, -, rfl⟩ := List.mem_map.mp hy
      exact abs_nonneg z
    rw [List.map_cons, List.sum_cons] at hB
    have hsum := abs_add_le S x
    have hc : 0 ≤ c := by
      have := abs_nonneg (s - S)
      have := abs_nonneg S
      have := abs_nonneg x
      have := h.least_nonneg
      linarith
    have hpow : (1 + u) ^ (x :: l).length * c = (1 + u) ^ l.length * ((1 + u) * c) := by
      rw [List.length_cons, pow_succ]
      ring
    have hgrow : c ≤ (1 + u) ^ (x :: l).length * c :=
      le_mul_of_one_le_left hc (one_le_pow₀ (by linarith))
    rw [hpow] at hrange
    rw [hpow, List.foldl_cons, List.sum_cons, ← add_assoc S x]
    exact ih (h.add hs (by linarith) (by linarith)) (by linarith) hrange

/-- A quotient by a number of magnitude at least one. -/
theorem div (h : r.Accurate u least range) (hs : |s - S| + (B + least) ≤ c) (hB : |S| ≤ B) {d : ℚ}
    (hd : 1 ≤ |d|) (hrange : c ≤ range) :
    |d| * (|r.div s d - S / d| - u * least) + (B + least) ≤ (1 + u) * c := by
  have hpos : 0 < |d| := by linarith
  have hleast := h.least_nonneg
  have hnumerator : |s| ≤ |s - S| + |S| := by
    rw [show s = (s - S) + S by ring]
    simpa using abs_add_le (s - S) S
  have hquotient : |s / d| * |d| = |s| := by rw [abs_div, div_mul_cancel₀ _ hpos.ne']
  have hsmall : |s / d| ≤ |s| := by
    rw [abs_div]
    exact div_le_self (abs_nonneg s) hd
  have hround := h.abs_sub_le (s / d) (by linarith)
  have hcarried : |s / d - S / d| * |d| = |s - S| := by
    rw [← sub_div, abs_div, div_mul_cancel₀ _ hpos.ne']
  have herror : |r.div s d - S / d| ≤ u * (|s / d| + least) + |s / d - S / d| := by
    rw [show r.div s d - S / d = (r.div s d - s / d) + (s / d - S / d) by ring]
    exact (abs_add_le _ _).trans (by rw [Rounding.div]; linarith)
  have hscaled : |d| * (|r.div s d - S / d| - u * least) ≤ u * |s| + |s - S| := by
    calc |d| * (|r.div s d - S / d| - u * least)
        ≤ |d| * (u * |s / d| + |s / d - S / d|) :=
          mul_le_mul_of_nonneg_left (by linarith) hpos.le
      _ = u * (|s / d| * |d|) + |s / d - S / d| * |d| := by ring
      _ = u * |s| + |s - S| := by rw [hquotient, hcarried]
  have hpart : u * |s| ≤ u * c := mul_le_mul_of_nonneg_left (by linarith) h.unit_nonneg
  linarith

end Rounding.Accurate

end HadamardIMS.Significands
