import Mathlib.Data.Finset.Fold

/-!
# Feedback shift registers

A file of registers, the first of which takes a feedback value at each step while
every other one takes over its left neighbour. What leaves the last of `m` registers
shows, reversed, the file before each step, so the output obeys the recurrence that
the feedback computes. With a linear feedback whose last tap is on, a file that is
not zero never becomes zero.
-/
namespace HadamardIMS.ShiftRegisters

universe u v

variable {α : Type u} {β : Type v}

/-- One shift: `x` comes in at the front. -/
def shift (x : α) (r : ℕ → α) : ℕ → α
  | 0 => x
  | j + 1 => r j

@[simp] theorem shift_zero (x : α) (r : ℕ → α) : shift x r 0 = x := rfl

@[simp] theorem shift_succ (x : α) (r : ℕ → α) (j : ℕ) : shift x r (j + 1) = r j := rfl

/-- The registers after a number of steps. -/
def run (feedback : (ℕ → α) → α) (r : ℕ → α) : ℕ → ℕ → α
  | 0 => r
  | i + 1 => shift (feedback (run feedback r i)) (run feedback r i)

/-- What leaves the last of `m` registers at step `i`. -/
def output (feedback : (ℕ → α) → α) (r : ℕ → α) (m i : ℕ) : α := run feedback r i (m - 1)

section Windows

variable (feedback : (ℕ → α) → α) (r : ℕ → α)

/-- The first step taken apart. -/
theorem run_succ_start (i : ℕ) :
    run feedback r (i + 1) = run feedback (shift (feedback r) r) i := by
  induction i with
  | zero => rfl
  | succ i ih => rw [run, ih, run]

/-- A value moves one register further with each step. -/
theorem run_add (i j k : ℕ) : run feedback r (i + k) (j + k) = run feedback r i j := by
  induction k with
  | zero => rfl
  | succ k ih => exact ih

/-- The registers before step `i` are the next `m` outputs, the latest first. -/
theorem output_window {m j : ℕ} (hj : j < m) (i : ℕ) :
    output feedback r m (i + (m - 1 - j)) = run feedback r i j := by
  have hlast : m - 1 = j + (m - 1 - j) := by omega
  rw [output, ← run_add feedback r i j (m - 1 - j), ← hlast]

/-- The output is the feedback of the registers `m` steps before. -/
theorem output_add {m : ℕ} (hm : 0 < m) (i : ℕ) :
    output feedback r m (i + m) = feedback (run feedback r i) := by
  have hstart : run feedback r (i + 1 + (m - 1)) (0 + (m - 1)) = run feedback r (i + 1) 0 :=
    run_add feedback r (i + 1) 0 (m - 1)
  rw [show i + 1 + (m - 1) = i + m by omega, Nat.zero_add] at hstart
  exact hstart

end Windows

/-- Two files whose registers are related stay so when the feedback respects the
relation; the registers from `m` on do not matter. -/
theorem run_related {ρ : α → β → Prop} {φ : (ℕ → α) → α} {ψ : (ℕ → β) → β} {m : ℕ}
    (hfeedback : ∀ r q, (∀ j < m, ρ (r j) (q j)) → ρ (φ r) (ψ q)) {r : ℕ → α} {q : ℕ → β}
    (hstart : ∀ j < m, ρ (r j) (q j)) (i : ℕ) : ∀ j < m, ρ (run φ r i j) (run ψ q i j) := by
  induction i with
  | zero => exact hstart
  | succ i ih =>
    intro j hj
    cases j with
    | zero => exact hfeedback _ _ ih
    | succ j => exact ih j (by omega)

/-! ## Linear feedback -/

section Linear

variable (op : α → α → α) [hc : Std.Commutative op] [ha : Std.Associative op] (e : α)
  (taps : Finset ℕ)

/-- The registers at the taps, combined. -/
def linear (r : ℕ → α) : α := taps.fold op e r

/-- The recurrence of the output. -/
theorem output_linear {m : ℕ} (hm : 0 < m) (htaps : ∀ j ∈ taps, j < m) (r : ℕ → α) (i : ℕ) :
    output (linear op e taps) r m (i + m) =
      taps.fold op e fun j => output (linear op e taps) r m (i + m - 1 - j) := by
  rw [output_add _ r hm]
  refine Finset.fold_congr fun j hj => ?_
  have hlt := htaps j hj
  rw [← output_window (linear op e taps) r hlt, show i + (m - 1 - j) = i + m - 1 - j by omega]

variable [hi : Std.LawfulIdentity op e]

/-- Taps at which every register is zero contribute nothing. -/
theorem fold_eq_identity {s : Finset ℕ} {r : ℕ → α} (h : ∀ j ∈ s, r j = e) :
    s.fold op e r = e := by
  induction s using Finset.cons_induction with
  | empty => rfl
  | cons j s hj ih =>
    rw [Finset.fold_cons, ih fun k hk => h k (Finset.mem_cons_of_mem hk),
      h j (Finset.mem_cons_self j s), hi.left_id]

/-- With the last tap on, a step leads to zero registers only from zero registers. -/
theorem eq_of_shift_eq {m : ℕ} (htaps : ∀ j ∈ taps, j < m) (hlast : m - 1 ∈ taps) {r : ℕ → α}
    (h : ∀ j < m, shift (linear op e taps r) r j = e) : ∀ j < m, r j = e := by
  have hm := htaps _ hlast
  have hfront : ∀ j < m - 1, r j = e := fun j hj => h (j + 1) (by omega)
  have hback : r (m - 1) = e := by
    have hrest : (taps.erase (m - 1)).fold op e r = e := by
      refine fold_eq_identity op e fun j hj => hfront j ?_
      have := htaps j (Finset.mem_of_mem_erase hj)
      have := Finset.ne_of_mem_erase hj
      omega
    have hfeedback : linear op e taps r = e := h 0 (by omega)
    rwa [linear, ← Finset.insert_erase hlast, Finset.fold_insert (Finset.notMem_erase _ _), hrest,
      hi.right_id] at hfeedback
  intro j hj
  by_cases hjm : j = m - 1
  · rw [hjm, hback]
  · exact hfront j (by omega)

/-- So registers that are not all zero at the start never are. -/
theorem exists_run_ne {m : ℕ} (htaps : ∀ j ∈ taps, j < m) (hlast : m - 1 ∈ taps) {r : ℕ → α}
    (hr : ∃ j < m, r j ≠ e) (i : ℕ) : ∃ j < m, run (linear op e taps) r i j ≠ e := by
  induction i with
  | zero => exact hr
  | succ i ih =>
    by_contra hzero
    push Not at hzero
    obtain ⟨j, hj, hne⟩ := ih
    exact hne (eq_of_shift_eq op e taps htaps hlast hzero j hj)

/-- And no `m` outputs in a row are all zero. -/
theorem exists_output_ne {m : ℕ} (htaps : ∀ j ∈ taps, j < m) (hlast : m - 1 ∈ taps) {r : ℕ → α}
    (hr : ∃ j < m, r j ≠ e) (i : ℕ) : ∃ k < m, output (linear op e taps) r m (i + k) ≠ e := by
  obtain ⟨j, hj, hne⟩ := exists_run_ne op e taps htaps hlast hr i
  rw [← output_window _ r hj] at hne
  exact ⟨m - 1 - j, by omega, hne⟩

end Linear

end HadamardIMS.ShiftRegisters
