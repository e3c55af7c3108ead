import Mathlib.Data.Nat.Notation
import Mathlib.Tactic.Common

/-!
# Counted loops that may fault

A C loop over a counter is a left fold of its body in the exception monad: the
first fault of a body stops the loop. `Ensures` is total correctness of such a
computation, so one invariant rule yields at once that a loop runs to its end
and what holds there.
-/
namespace HadamardIMS.Loops

universe u v

variable {ε : Type u} {α β : Type v}

/-- The computation returns without a fault, and its result satisfies `Q`. -/
def Ensures (x : Except ε α) (Q : α → Prop) : Prop := ∃ a, x = .ok a ∧ Q a

theorem Ensures.ok {Q : α → Prop} {a : α} (h : Q a) : Ensures (.ok a : Except ε α) Q :=
  ⟨a, rfl, h⟩

theorem Ensures.pure {Q : α → Prop} {a : α} (h : Q a) : Ensures (Pure.pure a : Except ε α) Q :=
  ⟨a, rfl, h⟩

theorem Ensures.mono {x : Except ε α} {P Q : α → Prop} (h : Ensures x P)
    (hPQ : ∀ a, P a → Q a) : Ensures x Q := by
  obtain ⟨a, rfl, ha⟩ := h
  exact ⟨a, rfl, hPQ a ha⟩

theorem Ensures.bind {x : Except ε α} {f : α → Except ε β} {P : α → Prop} {Q : β → Prop}
    (hx : Ensures x P) (hf : ∀ a, P a → Ensures (f a) Q) : Ensures (x >>= f) Q := by
  obtain ⟨a, rfl, ha⟩ := hx
  exact hf a ha

/-- Evaluation is deterministic: whatever a computation returns satisfies each
postcondition it ensures. -/
theorem Ensures.of_eq_ok {x : Except ε α} {Q : α → Prop} {a : α} (h : Ensures x Q)
    (hx : x = .ok a) : Q a := by
  obtain ⟨b, hb, hQ⟩ := h
  rw [hx] at hb
  cases hb
  exact hQ

theorem Ensures.ne_error {x : Except ε α} {Q : α → Prop} {e : ε} (h : Ensures x Q) :
    x ≠ .error e := by
  obtain ⟨a, rfl, _⟩ := h
  exact nofun

theorem ok_bind (a : α) (f : α → Except ε β) : (Except.ok a : Except ε α) >>= f = f a := rfl

/-- What a sequence of two computations returns comes from both. -/
theorem bind_eq_ok {x : Except ε α} {f : α → Except ε β} {b : β} :
    x >>= f = .ok b ↔ ∃ a, x = .ok a ∧ f a = .ok b := by
  cases x with
  | error e => simp [bind, Except.bind]
  | ok a => simp [bind, Except.bind]

theorem toOption_eq_some {x : Except ε α} {a : α} : x.toOption = some a ↔ x = .ok a := by
  cases x with
  | error e => simp [Except.toOption]
  | ok b => simp [Except.toOption]

/-- `n` passes of `body` from counter `lo`. -/
def forLoop (body : ℕ → α → Except ε α) (lo : ℕ) : ℕ → α → Except ε α
  | 0, s => .ok s
  | n + 1, s => forLoop body lo n s >>= body (lo + n)

/-- `for (i = lo; i < hi; i++) body`. -/
def forRange (lo hi : ℕ) (body : ℕ → α → Except ε α) (s : α) : Except ε α :=
  forLoop body lo (hi - lo) s

/-- The invariant rule, for a loop whose bounds are in order. -/
theorem forRange_ensures {body : ℕ → α → Except ε α} {lo hi : ℕ} {s : α}
    (I : ℕ → α → Prop) (hle : lo ≤ hi) (hinit : I lo s)
    (hstep : ∀ i t, lo ≤ i → i < hi → I i t → Ensures (body i t) (I (i + 1))) :
    Ensures (forRange lo hi body s) (I hi) := by
  have key : ∀ n, lo + n ≤ hi → Ensures (forLoop body lo n s) (I (lo + n)) := by
    intro n
    induction n with
    | zero => exact fun _ => .ok hinit
    | succ n ih =>
      intro hn
      exact (ih (by omega)).bind fun t ht => hstep (lo + n) t (by omega) (by omega) ht
  have h := key (hi - lo) (by omega)
  rwa [Nat.add_sub_cancel' hle] at h

/-- The common case of a loop from zero. -/
theorem forRange_zero_ensures {body : ℕ → α → Except ε α} {hi : ℕ} {s : α}
    (I : ℕ → α → Prop) (hinit : I 0 s)
    (hstep : ∀ i t, i < hi → I i t → Ensures (body i t) (I (i + 1))) :
    Ensures (forRange 0 hi body s) (I hi) :=
  forRange_ensures I (Nat.zero_le hi) hinit fun i t _ hi ht => hstep i t hi ht

/-- Two nested loops that visit a matrix row by row: the invariant counts the
entries visited so far. -/
theorem forRange_rowMajor_ensures {body : ℕ → ℕ → α → Except ε α} {m n : ℕ} {s : α}
    (I : ℕ → α → Prop) (hinit : I 0 s)
    (hstep : ∀ i j t, i < m → j < n → I (i * n + j) t →
      Ensures (body i j t) (I (i * n + j + 1))) :
    Ensures (forRange 0 m (fun i => forRange 0 n (body i)) s) (I (m * n)) := by
  refine forRange_zero_ensures (fun i t => I (i * n) t) (by simpa using hinit) fun i t hi ht => ?_
  refine (forRange_zero_ensures (fun j t => I (i * n + j) t) (by simpa using ht)
    fun j t hj ht => hstep i j t hi hj ht).mono fun t ht => ?_
  rwa [← Nat.succ_mul] at ht

/-- Two bodies that do the same wherever the invariant holds. -/
theorem forRange_congr {body body' : ℕ → α → Except ε α} {lo hi : ℕ} {s : α}
    (I : ℕ → α → Prop) (hle : lo ≤ hi) (hinit : I lo s)
    (hstep : ∀ i t, lo ≤ i → i < hi → I i t →
      body i t = body' i t ∧ Ensures (body' i t) (I (i + 1))) :
    forRange lo hi body s = forRange lo hi body' s := by
  have key : ∀ n, lo + n ≤ hi → forLoop body lo n s = forLoop body' lo n s ∧
      Ensures (forLoop body' lo n s) (I (lo + n)) := by
    intro n
    induction n with
    | zero => exact fun _ => ⟨rfl, .ok hinit⟩
    | succ n ih =>
      intro hn
      obtain ⟨hsame, t, ht, hI⟩ := ih (by omega)
      obtain ⟨hbody, hnext⟩ := hstep (lo + n) t (by omega) (by omega) hI
      refine ⟨?_, ?_⟩
      · rw [forLoop, forLoop, hsame, ht]
        exact hbody
      · rw [forLoop, ht]
        exact hnext
  exact (key (hi - lo) (by omega)).1

theorem forLoop_add (body : ℕ → α → Except ε α) (lo n k : ℕ) (s : α) :
    forLoop body lo (n + k) s = forLoop body lo n s >>= forLoop body (lo + n) k := by
  induction k with
  | zero =>
    change forLoop body lo n s = forLoop body lo n s >>= pure
    rw [bind_pure]
  | succ k ih =>
    rw [← Nat.add_assoc, forLoop, ih, bind_assoc, ← Nat.add_assoc]
    rfl

/-- A loop taken apart between two of its passes. -/
theorem forRange_split {lo mid hi : ℕ} (hlo : lo ≤ mid) (hhi : mid ≤ hi)
    (body : ℕ → α → Except ε α) (s : α) :
    forRange lo hi body s = forRange lo mid body s >>= forRange mid hi body := by
  have h := forLoop_add body lo (mid - lo) (hi - mid) s
  rw [Nat.add_sub_cancel' hlo, show mid - lo + (hi - mid) = hi - lo by omega] at h
  exact h

/-- A loop with its first pass taken apart. -/
theorem forRange_head {lo hi : ℕ} (hlt : lo < hi) (body : ℕ → α → Except ε α) (s : α) :
    forRange lo hi body s = body lo s >>= forRange (lo + 1) hi body := by
  have hone : forRange lo (lo + 1) body s = body lo s := by
    rw [forRange, Nat.add_sub_cancel_left]
    rfl
  rw [forRange_split (Nat.le_succ lo) hlt, hone]

/-- `for (j = hi; j > lo; j--) body`. -/
def forDown (hi lo : ℕ) (body : ℕ → α → Except ε α) (s : α) : Except ε α :=
  forRange 0 (hi - lo) (fun t => body (hi - t)) s

/-- The invariant rule for a counter that runs down. -/
theorem forDown_ensures {body : ℕ → α → Except ε α} {hi lo : ℕ} {s : α}
    (I : ℕ → α → Prop) (hle : lo ≤ hi) (hinit : I hi s)
    (hstep : ∀ j t, lo < j → j ≤ hi → I j t → Ensures (body j t) (I (j - 1))) :
    Ensures (forDown hi lo body s) (I lo) := by
  refine (forRange_zero_ensures (fun t => I (hi - t)) hinit fun t x ht hx =>
    hstep (hi - t) x (by omega) (by omega) hx).mono fun x hx => ?_
  rwa [show hi - (hi - lo) = lo by omega] at hx

/-- `do body while (--count > 0)` for a counter of `w` bits: one that starts at zero
wraps around. -/
def doCountdown (w count : ℕ) (body : α → Except ε α) (s : α) : Except ε α :=
  forRange 0 (if count = 0 then Nat.pow 2 w else count) (fun _ => body) s

theorem doCountdown_ensures {body : α → Except ε α} {w count : ℕ} {s : α}
    (I : ℕ → α → Prop) (hcount : 0 < count) (hinit : I 0 s)
    (hstep : ∀ i t, i < count → I i t → Ensures (body t) (I (i + 1))) :
    Ensures (doCountdown w count body s) (I count) := by
  rw [doCountdown, if_neg (Nat.ne_of_gt hcount)]
  exact forRange_zero_ensures I hinit hstep

/-- A loop of `n` passes, unrolled into blocks of `b` passes and the rest one by one. -/
def unrolled (b n : ℕ) (block single : α → Except ε α) (s : α) : Except ε α := do
  let s ← forRange 0 (n / b) (fun _ => block) s
  forRange 0 (n % b) (fun _ => single) s

/-- The invariant of the loop serves when a block does what `b` passes do. -/
theorem unrolled_ensures {b n : ℕ} {block single : α → Except ε α} {s : α} (I : ℕ → α → Prop)
    (hinit : I 0 s) (hblock : ∀ k t, k + b ≤ n → I k t → Ensures (block t) (I (k + b)))
    (hsingle : ∀ k t, k < n → I k t → Ensures (single t) (I (k + 1))) :
    Ensures (unrolled b n block single s) (I n) := by
  have hn : n / b * b + n % b = n := Nat.div_add_mod' n b
  refine Ensures.bind (forRange_zero_ensures (fun i => I (i * b)) (by rwa [Nat.zero_mul])
    fun i t hi ht => ?_) fun t ht => ?_
  · have hle : (i + 1) * b ≤ n / b * b := Nat.mul_le_mul_right b hi
    rw [Nat.succ_mul] at hle ⊢
    exact hblock (i * b) t (by omega) ht
  · refine (forRange_zero_ensures (fun i => I (n / b * b + i)) ht fun i t hi ht =>
      hsingle _ t (show n / b * b + i < n by omega) ht).mono fun t ht => ?_
    rwa [hn] at ht

/-- A loop with at least one pass faults when its first pass does. -/
theorem forRange_first_error {body : ℕ → α → Except ε α} {lo hi : ℕ} {s : α} {e : ε}
    (hlt : lo < hi) (h : body lo s = .error e) : forRange lo hi body s = .error e := by
  have key : ∀ n, forLoop body lo (n + 1) s = .error e := by
    intro n
    induction n with
    | zero => exact h
    | succ n ih => rw [forLoop, ih]; rfl
  have hn : hi - lo = hi - lo - 1 + 1 := by omega
  rw [forRange, hn]
  exact key _

/-- A loop that leaves at the first counter value whose test succeeds, and
reports it: `for (i = lo; i < lo + n; i++) if (test(i)) break;`. -/
def breakLoop (test : ℕ → Except ε Bool) (lo : ℕ) : ℕ → Except ε (Option ℕ)
  | 0 => .ok none
  | n + 1 =>
    match test lo with
    | .error e => .error e
    | .ok true => .ok (some lo)
    | .ok false => breakLoop test (lo + 1) n

/-- When no test faults, the loop finds the first index that satisfies it. -/
theorem breakLoop_eq_find {test : ℕ → Except ε Bool} {p : ℕ → Bool} (n lo : ℕ)
    (h : ∀ i, lo ≤ i → i < lo + n → test i = .ok (p i)) :
    breakLoop test lo n = .ok ((List.range' lo n).find? p) := by
  induction n generalizing lo with
  | zero => rfl
  | succ n ih =>
    have hlo := h lo (Nat.le_refl lo) (by omega)
    have htail := ih (lo + 1) fun i hi hin => h i (by omega) (by omega)
    cases hp : p lo with
    | true => simp [breakLoop, hlo, List.range'_succ, hp]
    | false => simp [breakLoop, hlo, List.range'_succ, hp, htail]

theorem breakLoop_first {test : ℕ → Except ε Bool} {lo n : ℕ} (hn : 0 < n)
    (h : test lo = .ok true) : breakLoop test lo n = .ok (some lo) := by
  obtain ⟨m, rfl⟩ := Nat.exists_eq_succ_of_ne_zero (Nat.ne_of_gt hn)
  rw [breakLoop, h]

end HadamardIMS.Loops
