import Mathlib.Algebra.BigOperators.Intervals
import Mathlib.Algebra.Order.BigOperators.Group.Finset
import Mathlib.Algebra.Order.BigOperators.Group.List
import Mathlib.Algebra.Order.Round
import Mathlib.Data.Int.Log
import Mathlib.Data.Rat.Floor
import Mathlib.Tactic.Linarith

/-!
# Binary floating-point formats and exact sums

A format holds the numbers with a significand of a fixed number of bits and an
exponent in a fixed range. All that is asked of a rounding is that it leaves those
numbers alone, as every rounding direction does. Multiples of one unit whose
magnitudes add up to less than the significand allows can then be summed in any
order without an error.
-/
namespace HadamardIMS.Significands

/-- Exponents are those of the last place of the significand. -/
structure Format where
  precision : ℕ
  minExponent : ℤ
  maxExponent : ℤ

/-- Single precision. -/
def binary32 : Format := ⟨24, -149, 104⟩

/-- The finite numbers of a format. -/
def Format.Representable (f : Format) (x : ℚ) : Prop :=
  ∃ m e : ℤ, |m| < 2 ^ f.precision ∧ f.minExponent ≤ e ∧ e ≤ f.maxExponent ∧ x = m * 2 ^ e

/-- How a format delivers an exact result. What becomes of a result that the format
does not hold, overflow included, is left open. -/
structure Rounding (f : Format) where
  round : ℚ → ℚ
  round_eq : ∀ x, f.Representable x → round x = x

variable {f : Format}

namespace Rounding

variable (r : Rounding f)

def add (x y : ℚ) : ℚ := r.round (x + y)

def mul (x y : ℚ) : ℚ := r.round (x * y)

def sub (x y : ℚ) : ℚ := r.round (x - y)

def div (x y : ℚ) : ℚ := r.round (x / y)

/-- Exact arithmetic. -/
def exact (f : Format) : Rounding f := ⟨id, fun _ _ => rfl⟩

theorem add_eq {x y : ℚ} (h : f.Representable (x + y)) : r.add x y = x + y := r.round_eq _ h

theorem mul_eq {x y : ℚ} (h : f.Representable (x * y)) : r.mul x y = x * y := r.round_eq _ h

theorem sub_eq {x y : ℚ} (h : f.Representable (x - y)) : r.sub x y = x - y := r.round_eq _ h

theorem div_eq {x y : ℚ} (h : f.Representable (x / y)) : r.div x y = x / y := r.round_eq _ h

end Rounding

/-! ## To the nearest, ties to even -/

/-- The nearest integer, and of two the even one. -/
def nearestEven (x : ℚ) : ℤ :=
  if Int.fract x < 1 / 2 then ⌊x⌋
  else if 1 / 2 < Int.fract x then ⌊x⌋ + 1
  else if Even ⌊x⌋ then ⌊x⌋ else ⌊x⌋ + 1

theorem nearestEven_intCast (n : ℤ) : nearestEven n = n := by
  rw [nearestEven, Int.fract_intCast, Int.floor_intCast, if_pos (by norm_num)]

/-- The exponent of the last place of `x` in the format. -/
def Format.lastPlace (f : Format) (x : ℚ) : ℤ :=
  max f.minExponent (Int.log 2 |x| + 1 - f.precision)

theorem two_zpow_pos (e : ℤ) : (0 : ℚ) < 2 ^ e := zpow_pos two_pos e

/-- The last place of a number that the format holds is not above its exponent. -/
theorem Format.lastPlace_le {m e : ℤ} (hm : |m| < 2 ^ f.precision) (hne : m ≠ 0)
    (he : f.minExponent ≤ e) : f.lastPlace ((m : ℚ) * 2 ^ e) ≤ e := by
  have hpos : 0 < |(m : ℚ) * 2 ^ e| := 
    abs_pos.mpr (mul_ne_zero (by exact_mod_cast hne) (two_zpow_pos e).ne')
  have hlt : |(m : ℚ) * 2 ^ e| < ((2 : ℕ) : ℚ) ^ (f.precision + e) := by
    have hcast : |(m : ℚ)| < 2 ^ f.precision := by exact_mod_cast hm
    rw [abs_mul, abs_of_pos (two_zpow_pos e), Nat.cast_ofNat,
      zpow_add₀ two_ne_zero, zpow_natCast]
    exact mul_lt_mul_of_pos_right hcast (two_zpow_pos e)
  have hlog := (Int.lt_zpow_iff_log_lt (by norm_num) hpos).mp hlt
  exact max_le he (by omega)

/-- The default rounding, for results below the largest number of the format. -/
def toNearestEven (f : Format) : Rounding f where
  round x := nearestEven (x / 2 ^ f.lastPlace x) * 2 ^ f.lastPlace x
  round_eq := by
    rintro _ ⟨m, e, hm, hmin, -, rfl⟩
    by_cases hzero : m = 0
    · have hfloor := nearestEven_intCast 0
      rw [Int.cast_zero] at hfloor
      rw [hzero, Int.cast_zero, zero_mul, zero_div, hfloor, Int.cast_zero, zero_mul]
    · -- At its last place the number is an integer.
      obtain ⟨n, hn⟩ := Int.eq_ofNat_of_zero_le (sub_nonneg.mpr (f.lastPlace_le hm hzero hmin))
      set p := f.lastPlace ((m : ℚ) * 2 ^ e)
      have hscaled : (m : ℚ) * 2 ^ e / 2 ^ p = ((m * 2 ^ n : ℤ) : ℚ) := by
        have hpow : (2 : ℚ) ^ e = 2 ^ n * 2 ^ p := by
          rw [← zpow_natCast, ← zpow_add₀ two_ne_zero]
          congr 1
          omega
        rw [hpow, Int.cast_mul, Int.cast_pow, Int.cast_ofNat, ← mul_assoc,
          mul_div_cancel_right₀ _ (two_zpow_pos p).ne']
      rw [hscaled, nearestEven_intCast, ← hscaled, div_mul_cancel₀ _ (two_zpow_pos p).ne']

/-! ## Sums of multiples of one unit -/

/-- An order of summation: which partial results are added to which. -/
inductive SumOrder where
  | zero
  | term (k : ℕ)
  | add (s t : SumOrder)

namespace SumOrder

/-- The terms, from left to right. -/
def terms : SumOrder → List ℕ
  | zero => []
  | term k => [k]
  | add s t => s.terms ++ t.terms

/-- The result, each addition rounded. -/
def eval (r : Rounding f) (x : ℕ → ℚ) : SumOrder → ℚ
  | zero => 0
  | term k => x k
  | add s t => r.add (s.eval r x) (t.eval r x)

end SumOrder

/-- Small multiples of a unit that the format has are representable. -/
theorem representable_mul_zpow {m e : ℤ} (hm : |m| < 2 ^ f.precision) (hmin : f.minExponent ≤ e)
    (hmax : e ≤ f.maxExponent) : f.Representable (m * 2 ^ e) := ⟨m, e, hm, hmin, hmax, rfl⟩

theorem abs_sum_map_le (a : ℕ → ℤ) (l : List ℕ) :
    |(l.map a).sum| ≤ (l.map fun k => |a k|).sum := by
  induction l with
  | nil => simp
  | cons k l ih =>
    rw [List.map_cons, List.map_cons, List.sum_cons, List.sum_cons]
    exact (abs_add_le _ _).trans (by omega)

/-- Any order of summation is exact if the magnitudes add up to less than the
significand allows. -/
theorem eval_eq_sum (r : Rounding f) {a : ℕ → ℤ} {x : ℕ → ℚ} {e : ℤ} (hmin : f.minExponent ≤ e)
    (hmax : e ≤ f.maxExponent) (t : SumOrder) (hx : ∀ k ∈ t.terms, x k = a k * 2 ^ e)
    (hsmall : (t.terms.map fun k => |a k|).sum < 2 ^ f.precision) :
    t.eval r x = (t.terms.map a).sum * 2 ^ e := by
  induction t with
  | zero => simp [SumOrder.eval, SumOrder.terms]
  | term k => simpa [SumOrder.eval, SumOrder.terms] using hx k (by simp [SumOrder.terms])
  | add s t ihs iht =>
    rw [SumOrder.terms] at hx hsmall
    rw [List.map_append, List.sum_append] at hsmall
    have hnonneg : ∀ l : List ℕ, 0 ≤ (l.map fun k => |a k|).sum := fun l =>
      List.sum_nonneg fun y hy => by
        obtain ⟨k, -, rfl⟩ := List.mem_map.mp hy
        exact abs_nonneg _
    have hs := hnonneg s.terms
    have ht := hnonneg t.terms
    have hsum : ((s.terms.map a).sum : ℚ) * 2 ^ e + (t.terms.map a).sum * 2 ^ e =
        ((s.terms ++ t.terms).map a).sum * 2 ^ e := by
      rw [List.map_append, List.sum_append, Int.cast_add, add_mul]
    rw [SumOrder.eval, ihs (fun k hk => hx k (List.mem_append_left _ hk)) (by omega),
      iht (fun k hk => hx k (List.mem_append_right _ hk)) (by omega), Rounding.add, hsum]
    refine r.round_eq _ (representable_mul_zpow ?_ hmin hmax)
    refine (abs_sum_map_le a _).trans_lt ?_
    rwa [List.map_append, List.sum_append]

/-- The sum of the first terms from left to right, each addition rounded. -/
def Rounding.sum (r : Rounding f) (x : ℕ → ℚ) : ℕ → ℚ
  | 0 => 0
  | k + 1 => r.add (r.sum x k) (x k)

theorem Rounding.sum_congr (r : Rounding f) {x y : ℕ → ℚ} {k : ℕ} (h : ∀ c < k, x c = y c) :
    r.sum x k = r.sum y k := by
  induction k with
  | zero => rfl
  | succ k ih => rw [sum, sum, ih fun c hc => h c (by omega), h k (Nat.lt_succ_self k)]

theorem Rounding.exact_foldl_add (f : Format) (l : List ℚ) (s : ℚ) :
    l.foldl (exact f).add s = s + l.sum := by
  induction l generalizing s with
  | nil => simp
  | cons x l ih =>
    rw [List.foldl_cons, ih, List.sum_cons, ← add_assoc]
    rfl

/-- From left to right nothing is rounded if the format holds every partial sum. -/
theorem Rounding.foldl_add_eq (r : Rounding f) {l : List ℚ} {s : ℚ}
    (h : ∀ t, t <+: l → f.Representable (s + t.sum)) : l.foldl r.add s = s + l.sum := by
  induction l generalizing s with
  | nil => simp
  | cons x l ih =>
    have hfirst : r.add s x = s + x := r.add_eq (by simpa using h [x] (by simp))
    rw [List.foldl_cons, hfirst, List.sum_cons, ← add_assoc]
    refine ih fun t ht => ?_
    have hlonger := h (x :: t) (List.cons_prefix_cons.mpr ⟨rfl, ht⟩)
    rwa [List.sum_cons, ← add_assoc] at hlonger

theorem representable_intCast {n : ℤ} (hn : |n| < 2 ^ 24) : binary32.Representable n := by
  have hrep := representable_mul_zpow (f := binary32) hn (by decide : (-149 : ℤ) ≤ 0) (by decide)
  rwa [zpow_zero, mul_one] at hrep

theorem representable_natCast {n : ℕ} (hn : n < 2 ^ 24) : binary32.Representable n := by
  have hrep := representable_intCast (n := n) (by rw [abs_of_nonneg (by omega)]; omega)
  rwa [Int.cast_natCast] at hrep

/-- Natural numbers whose sum is small enough. -/
theorem Rounding.foldl_add_natCast (r : Rounding binary32) {l : List ℕ} {s : ℕ}
    (hsum : s + l.sum < 2 ^ 24) :
    (l.map (Nat.cast : ℕ → ℚ)).foldl r.add s = ((s + l.sum : ℕ) : ℚ) := by
  induction l generalizing s with
  | nil => simp
  | cons x l ih =>
    rw [List.sum_cons, ← Nat.add_assoc] at hsum
    have hfirst : r.add s x = ((s + x : ℕ) : ℚ) := by
      rw [Nat.cast_add]
      exact r.add_eq (by exact_mod_cast representable_natCast (by omega : s + x < 2 ^ 24))
    rw [List.map_cons, List.foldl_cons, hfirst, ih hsum, List.sum_cons, ← Nat.add_assoc]

/-! ## Bounded multiples of a power of two -/

/-- A multiple of `2 ^ e`, with a bound on the factor. -/
def Multiple (e : ℤ) (bound : ℕ) (x : ℚ) : Prop := ∃ m : ℤ, |m| ≤ bound ∧ x = m * 2 ^ e

namespace Multiple

variable {e : ℤ} {b c : ℕ} {x y : ℚ}

theorem zero : Multiple e 0 0 := ⟨0, by simp, by simp⟩

theorem mono (h : Multiple e b x) (hbc : b ≤ c) : Multiple e c x := by
  obtain ⟨m, hm, rfl⟩ := h
  exact ⟨m, hm.trans (by exact_mod_cast hbc), rfl⟩

theorem neg (h : Multiple e b x) : Multiple e b (-x) := by
  obtain ⟨m, hm, rfl⟩ := h
  exact ⟨-m, by rwa [abs_neg], by push_cast; ring⟩

theorem add (hx : Multiple e b x) (hy : Multiple e c y) : Multiple e (b + c) (x + y) := by
  obtain ⟨m, hm, rfl⟩ := hx
  obtain ⟨n, hn, rfl⟩ := hy
  refine ⟨m + n, (abs_add_le m n).trans (by push_cast; omega), by push_cast; ring⟩

theorem sum {ι : Type*} {s : Finset ι} {x : ι → ℚ} (h : ∀ t ∈ s, Multiple e b (x t)) :
    Multiple e (s.card * b) (∑ t ∈ s, x t) := by
  classical
  induction s using Finset.induction_on with
  | empty => simpa using zero
  | insert t s ht ih =>
    rw [Finset.sum_insert ht, Finset.card_insert_of_notMem ht, Nat.succ_mul, Nat.add_comm]
    exact (h t (Finset.mem_insert_self t s)).add
      (ih fun c hc => h c (Finset.mem_insert_of_mem hc))

theorem representable (h : Multiple e b x) (hb : b < 2 ^ f.precision) (hmin : f.minExponent ≤ e)
    (hmax : e ≤ f.maxExponent) : f.Representable x := by
  obtain ⟨m, hm, rfl⟩ := h
  exact representable_mul_zpow (hm.trans_lt (by exact_mod_cast hb)) hmin hmax

end Multiple

end HadamardIMS.Significands
