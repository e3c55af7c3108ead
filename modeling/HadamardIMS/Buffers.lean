import Mathlib.Algebra.BigOperators.Fin
import Mathlib.Data.Matrix.Mul
import HadamardIMS.Loops

/-!
# Memory blocks with unassigned cells

A block of `n` cells as `malloc` returns it: each cell holds whatever the memory
held, tagged as junk, until the program assigns it. Every access is checked:
reading or writing past the block and reading junk are faults, so a computation
that returns has done neither. Accesses through a signed index serve the places
where the C code computes an offset that could be negative.
-/
namespace HadamardIMS.Buffers

open Loops

/-- What undefined behaviour a memory access can run into. -/
inductive Fault where
  | outOfBounds
  | unassigned
  | nullPointer
  deriving Repr, DecidableEq

inductive Cell (α : Type) where
  | junk (x : α)
  | set (x : α)
  deriving Repr, DecidableEq

/-- The bits of a cell, whether or not the program put them there. -/
def Cell.value {α : Type} : Cell α → α
  | .junk x => x
  | .set x => x

@[simp] theorem Cell.value_set {α : Type} (x : α) : (Cell.set x).value = x := rfl

/-- A block of `n` cells. What the function says past `n` is never looked at. -/
structure Buffer (α : Type) (n : ℕ) where
  cell : ℕ → Cell α

namespace Buffer

variable {α : Type} {n : ℕ}

/-- A freshly allocated block; `junk` is the old content of the memory. -/
def malloc (n : ℕ) (junk : ℕ → α) : Buffer α n := ⟨fun i => .junk (junk i)⟩

/-- `memset` of a whole block to one value. -/
def fill (n : ℕ) (x : α) : Buffer α n := ⟨fun _ => .set x⟩

def read (b : Buffer α n) (i : ℕ) : Except Fault α :=
  if i < n then
    match b.cell i with
    | .set x => .ok x
    | .junk _ => .error .unassigned
  else .error .outOfBounds

/-- The block after an assignment that was in bounds. -/
def put (b : Buffer α n) (i : ℕ) (x : α) : Buffer α n := ⟨Function.update b.cell i (.set x)⟩

def write (b : Buffer α n) (i : ℕ) (x : α) : Except Fault (Buffer α n) :=
  if i < n then .ok (b.put i x) else .error .outOfBounds

/-- `memset` of the first `count` cells. -/
def memset (b : Buffer α n) (x : α) (count : ℕ) : Except Fault (Buffer α n) :=
  forRange 0 count (fun i b => b.write i x) b

/-- A read of a byte, which may be one that the memory held before: no value of it is
a trap. -/
def peek (b : Buffer α n) (i : ℕ) : Except Fault α :=
  if i < n then .ok (b.cell i).value else .error .outOfBounds

/-- A read through a signed index. -/
def readAt (b : Buffer α n) (i : ℤ) : Except Fault α :=
  if 0 ≤ i then b.read i.toNat else .error .outOfBounds

/-- An assignment through a signed index. -/
def writeAt (b : Buffer α n) (i : ℤ) (x : α) : Except Fault (Buffer α n) :=
  if 0 ≤ i then b.write i.toNat x else .error .outOfBounds

/-- The number in a cell, read without any check. -/
def value (b : Buffer α n) (i : ℕ) : α := (b.cell i).value

@[simp] theorem cell_put (b : Buffer α n) (i j : ℕ) (x : α) :
    (b.put i x).cell j = if j = i then .set x else b.cell j := by
  simp [put, Function.update_apply]

theorem read_of_set {b : Buffer α n} {i : ℕ} {x : α} (hi : i < n) (hx : b.cell i = .set x) :
    b.read i = .ok x := by
  simp [read, hi, hx]

theorem write_of_lt (b : Buffer α n) {i : ℕ} (x : α) (hi : i < n) :
    b.write i x = .ok (b.put i x) := if_pos hi

theorem peek_of_lt (b : Buffer α n) {i : ℕ} (hi : i < n) : b.peek i = .ok (b.value i) := if_pos hi

@[simp] theorem value_put (b : Buffer α n) (i j : ℕ) (x : α) :
    (b.put i x).value j = if j = i then x else b.value j := by
  rw [value, cell_put]
  split_ifs
  · rfl
  · rfl

@[simp] theorem value_malloc (junk : ℕ → α) (i : ℕ) : (malloc n junk).value i = junk i := rfl

theorem memset_one (b : Buffer α n) (x : α) (hn : 0 < n) : b.memset x 1 = .ok (b.put 0 x) := by
  simp [memset, forRange, forLoop, bind, Except.bind, write_of_lt b x hn]

@[simp] theorem readAt_natCast (b : Buffer α n) (i : ℕ) : b.readAt (i : ℤ) = b.read i := by
  simp [readAt]

@[simp] theorem writeAt_natCast (b : Buffer α n) (i : ℕ) (x : α) :
    b.writeAt (i : ℤ) x = b.write i x := by
  simp [writeAt]

/-- A write that returns was in bounds. -/
theorem lt_of_write_eq_ok {b b' : Buffer α n} {i : ℕ} {x : α} (h : b.write i x = .ok b') :
    i < n ∧ b' = b.put i x := by
  unfold write at h
  split_ifs at h with hi
  cases h
  exact ⟨hi, rfl⟩

/-- The first `m` cells have been assigned the values of `f`. -/
def FilledTo (b : Buffer α n) (m : ℕ) (f : ℕ → α) : Prop := ∀ i < m, b.cell i = .set (f i)

/-- Every cell of the block has been assigned the value of `f`. -/
def Stores (b : Buffer α n) (f : ℕ → α) : Prop := b.FilledTo n f

/-- Every cell of the block has been assigned. -/
def Assigned (b : Buffer α n) : Prop := ∀ i < n, ∃ x, b.cell i = .set x

theorem filledTo_zero (b : Buffer α n) (f : ℕ → α) : b.FilledTo 0 f := by
  intro i hi
  omega

/-- Assigning the next cell extends the filled prefix. -/
theorem FilledTo.put {b : Buffer α n} {m : ℕ} {f : ℕ → α} (h : b.FilledTo m f) :
    (b.put m (f m)).FilledTo (m + 1) f := by
  intro i hi
  by_cases him : i = m
  · simp [him]
  · simpa [him] using h i (by omega)

/-- Assignments past the filled prefix leave it alone. -/
theorem FilledTo.put_of_le {b : Buffer α n} {m i : ℕ} {f : ℕ → α} (h : b.FilledTo m f)
    (hi : m ≤ i) (x : α) : (b.put i x).FilledTo m f := by
  intro j hj
  simpa [show j ≠ i by omega] using h j hj

theorem Stores.read {b : Buffer α n} {f : ℕ → α} (h : b.Stores f) {i : ℕ} (hi : i < n) :
    b.read i = .ok (f i) := read_of_set hi (h i hi)

theorem Stores.value {b : Buffer α n} {f : ℕ → α} (h : b.Stores f) {i : ℕ} (hi : i < n) :
    b.value i = f i := by
  simp [Buffer.value, h i hi]

theorem Stores.assigned {b : Buffer α n} {f : ℕ → α} (h : b.Stores f) : b.Assigned :=
  fun i hi => ⟨f i, h i hi⟩

theorem Assigned.stores {b : Buffer α n} (h : b.Assigned) : b.Stores b.value := by
  intro i hi
  obtain ⟨x, hx⟩ := h i hi
  simp [Buffer.value, hx]

theorem assigned_fill (x : α) : (fill n x).Assigned := fun _ _ => ⟨x, rfl⟩

theorem Assigned.put {b : Buffer α n} (h : b.Assigned) (i : ℕ) (x : α) : (b.put i x).Assigned := by
  intro j hj
  by_cases hji : j = i
  · exact ⟨x, by simp [hji]⟩
  · simpa [hji] using h j hj

end Buffer

/-- A pointer to a block; `none` is `NULL`. -/
abbrev Pointer (α : Type) (n : ℕ) := Option (Buffer α n)

namespace Pointer

variable {α : Type} {n : ℕ}

def load : Pointer α n → ℕ → Except Fault α
  | none, _ => .error .nullPointer
  | some b, i => b.read i

def store : Pointer α n → ℕ → α → Except Fault (Pointer α n)
  | none, _, _ => .error .nullPointer
  | some b, i, x => some <$> b.write i x

theorem store_some_of_lt (b : Buffer α n) {i : ℕ} (x : α) (hi : i < n) :
    store (some b) i x = .ok (some (b.put i x)) := by
  simp [store, Buffer.write_of_lt b x hi]

end Pointer

/-! ## Row-major matrices in one block -/

/-- Entry `(i, j)` of a matrix with `n` columns lies inside the first `m` rows. -/
theorem rowMajor_lt {m n i j : ℕ} (hi : i < m) (hj : j < n) : i * n + j < m * n := by
  calc i * n + j < i * n + n := by omega
    _ = (i + 1) * n := by ring
    _ ≤ m * n := Nat.mul_le_mul_right n hi

theorem rowMajor_div {n i j : ℕ} (hj : j < n) : (i * n + j) / n = i := by
  rw [Nat.add_comm, Nat.add_mul_div_right _ _ (by omega), Nat.div_eq_of_lt hj, Nat.zero_add]

theorem rowMajor_mod {n i j : ℕ} (hj : j < n) : (i * n + j) % n = j := Nat.mul_add_mod_of_lt hj

/-- What holds of every entry holds of every cell. -/
theorem forall_of_rowMajor {m n : ℕ} {P : ℕ → Prop} (h : ∀ i j, i < m → j < n → P (i * n + j)) :
    ∀ p < m * n, P p := by
  intro p hp
  have hn : 0 < n := Nat.pos_of_ne_zero fun hn => by simp [hn] at hp
  have hentry := h (p / n) (p % n) (Nat.div_lt_of_lt_mul (by rwa [Nat.mul_comm])) (Nat.mod_lt p hn)
  rwa [Nat.div_add_mod'] at hentry

/-- Different entries lie in different cells. -/
theorem rowMajor_inj {n i j i' j' : ℕ} (hj : j < n) (hj' : j' < n) :
    i * n + j = i' * n + j' ↔ i = i' ∧ j = j' := by
  constructor
  · intro h
    have hi : i = i' := by rw [← rowMajor_div (i := i) hj, h, rowMajor_div hj']
    subst hi
    exact ⟨rfl, by omega⟩
  · rintro ⟨rfl, rfl⟩
    rfl

/-- The block holds the matrix `M`, row by row. -/
def Buffer.Holds {α : Type} {m n : ℕ} (b : Buffer α (m * n)) (M : ℕ → ℕ → α) : Prop :=
  ∀ i j, i < m → j < n → b.cell (i * n + j) = .set (M i j)

namespace Buffer.Holds

variable {α : Type} {m n : ℕ} {b : Buffer α (m * n)} {M N : ℕ → ℕ → α} {i j : ℕ}

theorem read (h : b.Holds M) (hi : i < m) (hj : j < n) : b.read (i * n + j) = .ok (M i j) :=
  read_of_set (rowMajor_lt hi hj) (h i j hi hj)

theorem congr (h : b.Holds M) (hMN : ∀ i j, i < m → j < n → M i j = N i j) : b.Holds N :=
  fun i j hi hj => by rw [h i j hi hj, hMN i j hi hj]

/-- An assignment changes one entry. -/
theorem put (h : b.Holds M) (hj : j < n) (x : α) :
    (b.put (i * n + j) x).Holds fun i' j' => if i' = i ∧ j' = j then x else M i' j' := by
  intro i' j' hi' hj'
  have hcell := @rowMajor_inj n i' j' i j hj' hj
  rw [cell_put, h i' j' hi' hj']
  by_cases hentry : i' = i ∧ j' = j
  · simp [hentry]
  · simp [hcell, hentry]

theorem assigned (h : b.Holds M) : b.Assigned :=
  forall_of_rowMajor fun i j hi hj => ⟨_, h i j hi hj⟩

theorem value_eq (h : b.Holds M) (hi : i < m) (hj : j < n) : b.value (i * n + j) = M i j := by
  rw [value, h i j hi hj, Cell.value_set]

end Buffer.Holds

theorem Buffer.Assigned.holds {α : Type} {m n : ℕ} {b : Buffer α (m * n)} (h : b.Assigned) :
    b.Holds fun i j => b.value (i * n + j) := fun _ _ hi hj => h.stores _ (rowMajor_lt hi hj)

/-- The matrix a block of `m * n` cells holds. -/
def Buffer.toMatrix {α : Type} (m n : ℕ) (b : Buffer α (m * n)) : Matrix (Fin m) (Fin n) α :=
  fun i j => b.value (i * n + j)

/-- The product of two square matrices is a multiple of the identity when the sums
over their blocks say so. -/
theorem Buffer.toMatrix_mul_eq_smul_one {R : Type} [Semiring R] {n : ℕ} {a b : Buffer R (n * n)}
    {x : R} (h : ∀ i c, i < n → c < n →
      ∑ j ∈ Finset.range n, a.value (i * n + j) * b.value (j * n + c) = if i = c then x else 0) :
    a.toMatrix n n * b.toMatrix n n = x • (1 : Matrix (Fin n) (Fin n) R) := by
  ext i c
  simp only [Matrix.mul_apply, Buffer.toMatrix, Matrix.smul_apply, Matrix.one_apply, Fin.ext_iff,
    smul_eq_mul, mul_ite, mul_one, mul_zero]
  rw [← h i c i.isLt c.isLt,
    Fin.sum_univ_eq_sum_range fun j => a.value (i * n + j) * b.value (j * n + c)]

end HadamardIMS.Buffers
