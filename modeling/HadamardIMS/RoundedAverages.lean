import HadamardIMS.Averages
import HadamardIMS.Roundoff

/-!
# The average in single precision

`getAverageSignal` with its sums and its quotient rounded. One call adds up the kept frames
from left to right and divides. On delayed copies of one response that gives the response
back only where every kept frame still has a sample. How far a call can be off depends on how
far the accumulator was off before; an error that one call does not exceed is never exceeded.
-/
namespace HadamardIMS.Precision

open Loops Buffers Hadamard Signals Significands Finset

variable {f : Format} {L : ℕ}

/-- `getAverageSignal` with each sum and each quotient rounded, and the divisor converted. -/
def getAverageSignalRounded (r : Rounding f) (discardFrameNumber : List ℤ) (errFrameNumber : ℕ)
    (pRecoverySignal : Buffer MatrixElementType (L * L))
    (pAverageResult : Buffer MatrixElementType L) (averageNumber : ℤ) (totalFrame : ℕ) :
    Except Fault (Buffer MatrixElementType (L * L) × Buffer MatrixElementType L) := do
  let pRecoverySignal ← forRange 0 totalFrame (fun i b => arraycircShift (L * i) L i b)
    pRecoverySignal
  let pAverageResult ← forRange 0 totalFrame (fun i pAverageResult => do
    if ← errFrameFlag discardFrameNumber errFrameNumber i then pure pAverageResult
    else forRange 0 L (fun j pAverageResult => do
      let x ← pAverageResult.read j
      let y ← pRecoverySignal.read (i * L + j)
      pAverageResult.write j (r.add x y)) pAverageResult) pAverageResult
  let pAverageResult ← forRange 0 L (fun i pAverageResult => do
    let x ← pAverageResult.read i
    pAverageResult.write i (r.div x (r.round averageNumber))) pAverageResult
  pure (pRecoverySignal, pAverageResult)

/-- With a rounding that changes nothing this is `getAverageSignal`. -/
theorem getAverageSignalRounded_exact (discard : List ℤ) (e : ℕ)
    (R : Buffer MatrixElementType (L * L)) (A : Buffer MatrixElementType L) (averageNumber : ℤ)
    (totalFrame : ℕ) :
    getAverageSignalRounded (.exact f) discard e R A averageNumber totalFrame =
      getAverageSignal discard e R A averageNumber totalFrame := rfl

/-! ## The order of the additions -/

/-- The kept frames below `m`, in the order in which they are added. -/
def keptList (discard : List ℤ) (e m : ℕ) : List ℕ :=
  (List.range m).filter fun i => ¬Discarded discard e i

variable {discard : List ℤ} {e totalFrame : ℕ}

theorem length_keptList (discard : List ℤ) (e m : ℕ) :
    (keptList discard e m).length = #(keptIndices discard e m) := rfl

theorem sum_keptList (discard : List ℤ) (e m : ℕ) (x : ℕ → ℚ) :
    ((keptList discard e m).map x).sum = ∑ i ∈ keptIndices discard e m, x i := rfl

theorem lt_of_mem_keptList {m i : ℕ} (hi : i ∈ keptList discard e m) : i < m :=
  List.mem_range.mp (List.mem_filter.mp hi).1

/-- The terms that one point of the average consists of. -/
def keptTerms (discard : List ℤ) (e totalFrame L : ℕ) (R : ℕ → ℚ) (j : ℕ) : List ℚ :=
  (keptList discard e totalFrame).map fun i => if i + j < L then R (i * L + i + j) else 0

theorem length_keptTerms (discard : List ℤ) (e totalFrame L : ℕ) (R : ℕ → ℚ) (j : ℕ) :
    (keptTerms discard e totalFrame L R j).length = #(keptIndices discard e totalFrame) := by
  rw [keptTerms, List.length_map, length_keptList]

theorem sum_keptTerms (discard : List ℤ) (e totalFrame L : ℕ) (R : ℕ → ℚ) (j : ℕ) :
    (keptTerms discard e totalFrame L R j).sum = keptSum discard e totalFrame L R j := by
  rw [keptTerms, sum_keptList, keptSum_eq]

/-- The magnitudes of the terms add up to at most that of as many peaks. -/
theorem sum_abs_keptTerms_le (htotal : totalFrame < L) {R : ℕ → ℚ} {V : ℚ} (hV : 0 ≤ V)
    (hR : ∀ p < L * L, |R p| ≤ V) (j : ℕ) :
    ((keptTerms discard e totalFrame L R j).map abs).sum ≤
      #(keptIndices discard e totalFrame) * V := by
  have hterm : ∀ y ∈ (keptTerms discard e totalFrame L R j).map abs, y ≤ V := by
    intro y hy
    obtain ⟨x, hx, rfl⟩ := List.mem_map.mp hy
    obtain ⟨i, hi, rfl⟩ := List.mem_map.mp hx
    have hi := lt_of_mem_keptList hi
    split_ifs with hij
    · rw [Nat.add_assoc]
      exact hR _ (rowMajor_lt (by omega) hij)
    · rwa [abs_zero]
  have hsum := List.sum_le_card_nsmul _ V hterm
  rwa [List.length_map, length_keptTerms, nsmul_eq_mul] at hsum

/-- The second loop adds the kept rows, one after the other. -/
theorem addRowsRounded_ensures (r : Rounding f) (he : e ≤ discard.length) (htotal : totalFrame ≤ L)
    {R : Buffer MatrixElementType (L * L)} (hR : R.Assigned) {A : Buffer MatrixElementType L}
    (hA : A.Assigned) :
    Ensures (forRange 0 totalFrame (fun i A => do
        if ← errFrameFlag discard e i then pure A
        else forRange 0 L (fun j A => do
          let x ← A.read j
          let y ← R.read (i * L + j)
          A.write j (r.add x y)) A) A) fun A' => A'.Stores fun j =>
      ((keptList discard e totalFrame).map fun i => R.value (i * L + j)).foldl r.add
        (A.value j) := by
  refine (forRange_zero_ensures (fun m (A' : Buffer MatrixElementType L) => A'.Stores fun j =>
    ((keptList discard e m).map fun i => R.value (i * L + j)).foldl r.add (A.value j))
    (fun j hj => hA.stores j hj) ?_).mono fun A' h => h
  intro i B hi hB
  rw [errFrameFlag_eq he]
  simp only [bind, Except.bind, decide_eq_true_eq]
  by_cases hd : Discarded discard e i
  · rw [if_pos hd]
    refine .pure fun j hj => ?_
    have hlist : keptList discard e (i + 1) = keptList discard e i := by
      simp [keptList, List.range_succ, hd]
    rw [hB j hj, hlist]
  · rw [if_neg hd]
    have hlist : keptList discard e (i + 1) = keptList discard e i ++ [i] := by
      simp [keptList, List.range_succ, hd]
    refine (forRange_zero_ensures (fun m (B' : Buffer MatrixElementType L) => ∀ j < L, B'.cell j =
      .set (if j < m then r.add (B.value j) (R.value (i * L + j)) else B.value j))
      (fun j hj => by simpa using hB.assigned.stores j hj) ?_).mono ?_
    · intro m B' hm hB'
      have hread : B'.read m = .ok (B.value m) :=
        Buffer.read_of_set hm (by simpa using hB' m hm)
      simp only [hread, hR.stores.read (rowMajor_lt (show i < L by omega) hm),
        Buffer.write_of_lt _ _ hm]
      refine .ok fun j hj => ?_
      rw [Buffer.cell_put]
      by_cases hjm : j = m
      · rw [if_pos hjm, if_pos (by omega), hjm]
      · rw [if_neg hjm, hB' j hj]
        congr 1
        exact if_congr (by omega) rfl rfl
    · intro B' hB' j hj
      rw [hB' j hj, if_pos hj, hB.value hj, hlist]
      simp only [List.map_append, List.foldl_append]
      rfl

/-- The third loop divides. -/
theorem divideRounded_ensures (r : Rounding f) (d : ℚ) {A : Buffer MatrixElementType L}
    (hA : A.Assigned) :
    Ensures (forRange 0 L (fun i A => do
        let x ← A.read i
        A.write i (r.div x d)) A) fun A' => A'.Stores fun j => r.div (A.value j) d := by
  refine (forRange_zero_ensures (fun m (C : Buffer MatrixElementType L) => ∀ j < L, C.cell j =
    .set (if j < m then r.div (A.value j) d else A.value j))
    (fun j hj => by simpa using hA.stores j hj) ?_).mono ?_
  · intro m C hm hC
    have hread : C.read m = .ok (A.value m) := Buffer.read_of_set hm (by simpa using hC m hm)
    simp only [hread, bind, Except.bind, Buffer.write_of_lt _ _ hm]
    refine .ok fun j hj => ?_
    rw [Buffer.cell_put]
    by_cases hjm : j = m
    · rw [if_pos hjm, if_pos (by omega), hjm]
    · rw [if_neg hjm, hC j hj]
      congr 1
      exact if_congr (by omega) rfl rfl
  · intro C hC j hj
    rw [hC j hj, if_pos hj]

/-- `getAverageSignal` as a whole: the shifted matrix, and in each point the rounded quotient of
the rounded sum. -/
theorem getAverageSignalRounded_ensures (r : Rounding f) (averageNumber : ℤ)
    (he : e ≤ discard.length) (htotal : totalFrame < L) {R : Buffer MatrixElementType (L * L)}
    (hR : R.Assigned) {A : Buffer MatrixElementType L} (hA : A.Assigned) :
    Ensures (getAverageSignalRounded r discard e R A averageNumber totalFrame) fun p =>
      (p.1.Assigned ∧ ∀ i j, i < L → j < L → p.1.cell (i * L + j) =
        if i < totalFrame then
          (if j + i < L then R.cell (i * L + (j + i)) else .set 0)
        else R.cell (i * L + j)) ∧
      p.2.Stores fun j => r.div ((keptTerms discard e totalFrame L R.value j).foldl r.add
        (A.value j)) (r.round averageNumber) := by
  refine (shiftRows_ensures htotal hR).bind fun R' hR' => ?_
  refine (addRowsRounded_ensures r he htotal.le hR'.1 hA).bind fun B hB => ?_
  have hsum : ∀ j < L, B.value j =
      (keptTerms discard e totalFrame L R.value j).foldl r.add (A.value j) := by
    intro j hj
    rw [hB.value hj, keptTerms]
    congr 1
    refine List.map_congr_left fun i hi => ?_
    have hi := lt_of_mem_keptList hi
    rw [Buffer.value, hR'.2 i j (by omega) hj, if_pos hi, Nat.add_comm j i, Nat.add_assoc]
    split_ifs
    · rfl
    · rfl
  refine (divideRounded_ensures r (r.round averageNumber) hB.assigned).bind fun C hC => ?_
  refine .pure ⟨hR', fun j hj => ?_⟩
  simp only [hC j hj, hsum j hj]

/-- Without rounding: the average of what the result held before and of the kept frames. -/
theorem getAverageSignal_ensures (averageNumber : ℤ) (he : e ≤ discard.length)
    (htotal : totalFrame < L) {R : Buffer MatrixElementType (L * L)} (hR : R.Assigned)
    {A : Buffer MatrixElementType L} (hA : A.Assigned) :
    Ensures (getAverageSignal discard e R A averageNumber totalFrame) fun p =>
      (p.1.Assigned ∧ ∀ i j, i < L → j < L → p.1.cell (i * L + j) =
        if i < totalFrame then
          (if j + i < L then R.cell (i * L + (j + i)) else .set 0)
        else R.cell (i * L + j)) ∧
      p.2.Stores fun j =>
        (A.value j + keptSum discard e totalFrame L R.value j) / averageNumber := by
  rw [← getAverageSignalRounded_exact (f := binary32)]
  refine (getAverageSignalRounded_ensures (.exact binary32) averageNumber he htotal hR hA).mono
    fun p hp => ⟨hp.1, fun j hj => ?_⟩
  have hcell := hp.2 j hj
  simp only [Rounding.exact_foldl_add, sum_keptTerms] at hcell
  exact hcell

/-- The accumulator and the arithmetic have no part in the shifting. -/
theorem shifted_eq {r r' : Rounding f} {averageNumber : ℤ} {R : Buffer MatrixElementType (L * L)}
    {A B : Buffer MatrixElementType L}
    {p p' : Buffer MatrixElementType (L * L) × Buffer MatrixElementType L}
    (h : getAverageSignalRounded r discard e R A averageNumber totalFrame = .ok p)
    (h' : getAverageSignalRounded r' discard e R B averageNumber totalFrame = .ok p') :
    p.1 = p'.1 := by
  obtain ⟨S, hshift, hrest⟩ := bind_eq_ok.mp h
  obtain ⟨A₁, -, hrest⟩ := bind_eq_ok.mp hrest
  obtain ⟨A₂, -, hrest⟩ := bind_eq_ok.mp hrest
  obtain ⟨S', hshift', hrest'⟩ := bind_eq_ok.mp h'
  obtain ⟨B₁, -, hrest'⟩ := bind_eq_ok.mp hrest'
  obtain ⟨B₂, -, hrest'⟩ := bind_eq_ok.mp hrest'
  rw [hshift] at hshift'
  cases hshift'
  cases hrest
  cases hrest'
  rfl

/-! ## The effect of one call -/

/-- The sum depends only on the elements that shifting brings into place. -/
theorem keptTerms_congr {R S : ℕ → ℚ}
    (h : ∀ i j, i < totalFrame → i + j < L → S (i * L + (i + j)) = R (i * L + (i + j))) (j : ℕ) :
    keptTerms discard e totalFrame L S j = keptTerms discard e totalFrame L R j := by
  refine List.map_congr_left fun i hi => ?_
  by_cases hij : i + j < L
  · rw [if_pos hij, if_pos hij, Nat.add_assoc, h i j (lt_of_mem_keptList hi) hij]
  · rw [if_neg hij, if_neg hij]

/-- The effect of `getAverageSignal` in single precision, with the globals it reads. Where the
divisor, the sums on the way and the quotient are single-precision numbers, the average is the
exact one. -/
theorem getAverageSignalRounded_effect (r : Rounding binary32) (g : Globals)
    (htotal : g.totalFrame < L) {R : Buffer MatrixElementType (L * L)} (hR : R.Assigned)
    {A : Buffer MatrixElementType L} (hA : A.Assigned) :
    ∃ R' A', getAverageSignalRounded r g.discardFrameNumber g.errFrameNumber R A g.averageNumber
        g.totalFrame = .ok (R', A') ∧
      (∀ j < L, A'.cell j = .set (r.div
        ((keptTerms g.discardFrameNumber g.errFrameNumber g.totalFrame L R.value j).foldl r.add
          (A.value j)) (r.round g.averageNumber))) ∧
      (∀ j < L, binary32.Representable g.averageNumber →
        (∀ t, t <+: keptTerms g.discardFrameNumber g.errFrameNumber g.totalFrame L R.value j →
          binary32.Representable (A.value j + t.sum)) →
        binary32.Representable ((A.value j + keptSum g.discardFrameNumber g.errFrameNumber
          g.totalFrame L R.value j) / g.averageNumber) →
        A'.cell j = .set ((A.value j +
          ∑ i ∈ keptIndices g.discardFrameNumber g.errFrameNumber g.totalFrame,
            if i + j < L then R.value (i * L + i + j) else 0) / g.averageNumber)) ∧
      (∀ i j, i < g.totalFrame → j < L → R'.cell (i * L + j) =
        if i + j < L then R.cell (i * L + (i + j)) else .set 0) ∧
      (∀ i j, g.totalFrame ≤ i → i < L → j < L → R'.cell (i * L + j) = R.cell (i * L + j)) ∧
      ∀ S : Buffer MatrixElementType (L * L), S.Assigned →
        (∀ p < L * L, ¬PastRow L g.totalFrame p → S.cell p = R.cell p) →
        ∃ S' B', getAverageSignalRounded r g.discardFrameNumber g.errFrameNumber S A
            g.averageNumber g.totalFrame = .ok (S', B') ∧
          (∀ j < L, B'.cell j = A'.cell j) ∧
          ∀ i j, i < g.totalFrame → j < L → S'.cell (i * L + j) = R'.cell (i * L + j) := by
  obtain ⟨⟨R', A'⟩, hrun, ⟨-, hrows⟩, haverage⟩ :=
    getAverageSignalRounded_ensures r g.averageNumber g.errFrameNumber_le htotal hR hA
  have haverage : ∀ j < L, A'.cell j = .set (r.div ((keptTerms g.discardFrameNumber
      g.errFrameNumber g.totalFrame L R.value j).foldl r.add (A.value j))
        (r.round g.averageNumber)) := haverage
  refine ⟨R', A', hrun, haverage, fun j hj hnumber hsums hquotient => ?_,
    fun i j hi hj => ?_, fun i j hi hiL hj => ?_, ?_⟩
  · rw [← sum_keptTerms] at hquotient
    rw [haverage j hj, r.foldl_add_eq hsums, r.round_eq _ hnumber, r.div_eq hquotient,
      sum_keptTerms, keptSum_eq]
  · rw [hrows i j (by omega) hj, if_pos hi, Nat.add_comm j i]
  · rw [hrows i j hiL hj, if_neg (by omega)]
  · intro S hS hagree
    obtain ⟨⟨S', B'⟩, hrun', ⟨-, hrows'⟩, haverage'⟩ :=
      getAverageSignalRounded_ensures r g.averageNumber g.errFrameNumber_le htotal hS hA
    -- Every element that either result contains lies inside its row.
    have hinside : ∀ i j, i < g.totalFrame → i + j < L →
        S.cell (i * L + (i + j)) = R.cell (i * L + (i + j)) :=
      fun i j hi hij => hagree _ (rowMajor_lt (by omega) hij) (not_pastRow hij)
    refine ⟨S', B', hrun', fun j hj => ?_, fun i j hi hj => ?_⟩
    · have hterms : keptTerms g.discardFrameNumber g.errFrameNumber g.totalFrame L S.value j =
          keptTerms g.discardFrameNumber g.errFrameNumber g.totalFrame L R.value j :=
        keptTerms_congr (fun i j hi hij => congrArg Cell.value (hinside i j hi hij)) j
      have hcell := haverage' j hj
      simp only [hterms] at hcell
      rw [hcell, haverage j hj]
    · rw [hrows' i j (by omega) hj, hrows i j (by omega) hj, if_pos hi, if_pos hi, Nat.add_comm j i]
      by_cases hij : i + j < L
      · rw [if_pos hij, if_pos hij, hinside i j hi hij]
      · rw [if_neg hij, if_neg hij]

/-- Of 2^24 and one, the sum is not a single-precision number. -/
theorem not_every_average_exact :
    ¬ ∀ (g : Globals) (L : ℕ) (R : Buffer MatrixElementType (L * L))
      (A : Buffer MatrixElementType L), g.totalFrame < L → R.Assigned → A.Assigned →
      (∀ p < L * L, binary32.Representable (R.value p)) →
      (∀ j < L, binary32.Representable (A.value j)) →
      ∃ R' A', getAverageSignalRounded (toNearestEven binary32) g.discardFrameNumber
          g.errFrameNumber R A g.averageNumber g.totalFrame = .ok (R', A') ∧
        ∀ j < L, A'.cell j = .set ((A.value j +
          ∑ i ∈ keptIndices g.discardFrameNumber g.errFrameNumber g.totalFrame,
            if i + j < L then R.value (i * L + i + j) else 0) / g.averageNumber) := by
  intro hall
  let g : Globals := ⟨4, [], 1, 1, 0, by decide, by decide, by decide⟩
  obtain ⟨R', A', hrun, hclaim⟩ := hall g 2 (.fill (2 * 2) 1) (.fill 2 16777216) (by decide)
    (Buffer.assigned_fill 1) (Buffer.assigned_fill _)
    (fun p _ => by exact_mod_cast representable_natCast (by decide : 1 < 2 ^ 24))
    fun j _ => ⟨1, 24, by decide, by decide, by decide, by norm_num [Buffer.value, Buffer.fill]⟩
  obtain ⟨⟨R'', A''⟩, hrun', -, haverage⟩ := getAverageSignalRounded_ensures
    (toNearestEven binary32) 1 (show 0 ≤ ([] : List ℤ).length by decide) (show 1 < 2 by decide)
    (Buffer.assigned_fill (1 : ℚ)) (Buffer.assigned_fill (16777216 : ℚ))
  have hsame : A'' = A' := (Prod.mk.inj (Except.ok.inj (hrun'.symm.trans hrun))).2
  have hrounded : A''.cell 0 = .set 16777216 :=
    (haverage 0 (by decide)).trans (congrArg Cell.set (by decide +kernel))
  have hexact := hclaim 0 (by decide)
  rw [← hsame, hrounded] at hexact
  exact absurd hexact (by decide +kernel)

/-- With ones everywhere, all kept frames reach the first point and none the last one. -/
theorem getAverageSignalRounded_effect_ones :
    ∃ R' A', getAverageSignalRounded (toNearestEven binary32) Globals.shipped.discardFrameNumber 24
        (.fill (255 * 255) 1) (.fill 255 0) 46 70 = .ok (R', A') ∧
      A'.cell 0 = .set 1 ∧ A'.cell 254 = .set 0 ∧ R'.cell (69 * 255 + 186) = .set 0 ∧
      R'.cell (70 * 255 + 254) = .set 1 := by
  obtain ⟨R', A', hrun, haverage, -, hshifted, hkept, -⟩ := getAverageSignalRounded_effect
    (toNearestEven binary32) .shipped (L := 255) (by decide) (Buffer.assigned_fill 1)
    (Buffer.assigned_fill 0)
  refine ⟨R', A', hrun, ?_, ?_, hshifted 69 186 (by decide) (by decide),
    hkept 70 254 (by decide) (by decide) (by decide)⟩
  · exact (haverage 0 (by decide)).trans (congrArg Cell.set (by decide +kernel))
  · exact (haverage 254 (by decide)).trans (congrArg Cell.set (by decide +kernel))

/-! ## Delayed copies of one response -/

/-- Some kept frame still has a sample at point `j`. -/
def Reached (discard : List ℤ) (e totalFrame L j : ℕ) : Prop :=
  ∃ i ∈ keptIndices discard e totalFrame, i + j < L

/-- Single precision holds the number of the kept frames and, of each point that they reach,
the multiples up to this number. -/
structure HoldsMultiples (discard : List ℤ) (e totalFrame L : ℕ) (f : ℕ → ℚ) : Prop where
  number : binary32.Representable #(keptIndices discard e totalFrame)
  multiple : ∀ j < L, Reached discard e totalFrame L j →
    ∀ c ≤ #(keptIndices discard e totalFrame), binary32.Representable (c * f j)

/-- Where the response is not zero and some kept frame has a sample, all of them have one. -/
def AllReach (discard : List ℤ) (e totalFrame L : ℕ) (f : ℕ → ℚ) : Prop :=
  ∀ j < L, f j ≠ 0 → Reached discard e totalFrame L j →
    ∀ i ∈ keptIndices discard e totalFrame, i + j < L

/-- What is one of two numbers, one of them zero, adds up to a multiple. -/
theorem exists_sum_eq_mul {l : List ℚ} {y : ℚ} (h : ∀ x ∈ l, x = y ∨ x = 0) :
    ∃ c ≤ l.length, l.sum = c * y := by
  induction l with
  | nil => exact ⟨0, le_rfl, by simp⟩
  | cons x l ih =>
    obtain ⟨hx, hl⟩ := List.forall_mem_cons.mp h
    obtain ⟨c, hc, hsum⟩ := ih hl
    rw [List.length_cons, List.sum_cons, hsum]
    rcases hx with rfl | rfl
    · exact ⟨c + 1, by omega, by push_cast; ring⟩
    · exact ⟨c, by omega, by ring⟩

section Delayed

variable {R : Buffer MatrixElementType (L * L)} {f : ℕ → ℚ}

theorem keptTerms_delayed (hdelayed : HoldsDelayed R f totalFrame) {j : ℕ} {x : ℚ}
    (hx : x ∈ keptTerms discard e totalFrame L R.value j) : x = f j ∨ x = 0 := by
  obtain ⟨i, hi, rfl⟩ := List.mem_map.mp hx
  split_ifs with hij
  · left
    rw [Nat.add_assoc, Buffer.value, hdelayed i (i + j) (lt_of_mem_keptList hi) hij,
      if_pos (Nat.le_add_right i j), Nat.add_sub_cancel_left, Cell.value_set]
  · exact .inr rfl

/-- Then each point is the rounded quotient of the exact sum. -/
theorem average_delayed (r : Rounding binary32) {averageNumber : ℤ}
    (hcount : averageNumber = #(keptIndices discard e totalFrame))
    (hdelayed : HoldsDelayed R f totalFrame) (hholds : HoldsMultiples discard e totalFrame L f)
    {j : ℕ} (hj : j < L) (hreached : Reached discard e totalFrame L j) :
    r.div ((keptTerms discard e totalFrame L R.value j).foldl r.add 0) (r.round averageNumber) =
      r.round (#{i ∈ keptIndices discard e totalFrame | i + j < L} * f j /
        #(keptIndices discard e totalFrame)) := by
  have hsums : ∀ t, t <+: keptTerms discard e totalFrame L R.value j →
      binary32.Representable (0 + t.sum) := by
    intro t ht
    obtain ⟨c, hc, hsum⟩ :=
      exists_sum_eq_mul fun x hx => keptTerms_delayed hdelayed (ht.subset hx)
    have hlength := ht.length_le
    rw [length_keptTerms] at hlength
    rw [zero_add, hsum]
    exact hholds.multiple j hj hreached c (hc.trans hlength)
  have hnumber : ((averageNumber : ℤ) : ℚ) = #(keptIndices discard e totalFrame) := by
    rw [hcount, Int.cast_natCast]
  rw [r.foldl_add_eq hsums, zero_add, sum_keptTerms, keptSum_delayed hdelayed, hnumber,
    r.round_eq _ hholds.number]
  rfl

end Delayed

/-- A quotient of fewer multiples than the divisor is rounded to something else, unless the
point is subnormal or the divisor is large. -/
theorem round_part_ne {c n : ℕ} (hc : c < n) (hn : n < 2 ^ 23) {x : ℚ}
    (hx : (2 : ℚ) ^ (-126 : ℤ) ≤ |x|) : (toNearestEven binary32).round (c * x / n) ≠ x := by
  intro heq
  have hpos : (0 : ℚ) < n := Nat.cast_pos.mpr (by omega)
  have hsmall : ((2 : ℚ) ^ 24) * (n - c) ≤ c + n := by
    have haccurate := (toNearestEven_accurate binary32 |c * x / n|).abs_sub_le _ le_rfl
    have hlow : x - c * x / n = (n - c) / n * x := by field_simp
    have hpart : 0 ≤ ((n : ℚ) - c) / n :=
      div_nonneg (sub_nonneg.mpr (Nat.cast_le.mpr hc.le)) hpos.le
    have hmagnitude : |(c : ℚ) * x / n| = c / n * |x| := by
      rw [show (c : ℚ) * x / n = c / n * x by ring, abs_mul,
        abs_of_nonneg (div_nonneg (Nat.cast_nonneg c) hpos.le)]
    rw [heq, hlow, abs_mul, abs_of_nonneg hpart, hmagnitude] at haccurate
    have hleast : (2 : ℚ) ^ (binary32.minExponent + binary32.precision - 1) ≤ |x| := hx
    have hscaled : ((n : ℚ) - c) / n * |x| ≤ 2 ^ (-24 : ℤ) * ((c + n) / n) * |x| := by
      have hunit := two_zpow_pos (-24)
      have hsum : (c : ℚ) / n * |x| + |x| = (c + n) / n * |x| := by field_simp
      calc ((n : ℚ) - c) / n * |x|
          ≤ 2 ^ (-24 : ℤ) * (c / n * |x| + |x|) :=
            haccurate.trans (mul_le_mul_of_nonneg_left (by linarith) hunit.le)
        _ = 2 ^ (-24 : ℤ) * ((c + n) / n) * |x| := by rw [hsum, mul_assoc]
    have hcancelled := le_of_mul_le_mul_right hscaled ((two_zpow_pos (-126)).trans_le hx)
    rw [← mul_div_assoc, div_le_div_iff_of_pos_right hpos] at hcancelled
    have hunit : (2 : ℚ) ^ 24 * 2 ^ (-24 : ℤ) = 1 := by norm_num
    have hmul := mul_le_mul_of_nonneg_left hcancelled (by positivity : (0 : ℚ) ≤ 2 ^ 24)
    rwa [← mul_assoc, hunit, one_mul] at hmul
  have hnat : 2 ^ 24 * (n - c) ≤ c + n := by
    have hcast : (((2 ^ 24 * (n - c) : ℕ)) : ℚ) ≤ ((c + n : ℕ) : ℚ) := by
      push_cast [Nat.cast_sub hc.le]
      exact hsmall
    exact_mod_cast hcast
  omega

/-- On delayed copies, with an accumulator that is zero, the average is the response where every
kept frame has a sample, the divisor counts all of them and single precision holds the sums.
With rounding to the nearest, fewer than 2^23 frames and no subnormal points the first of these
is needed too. -/
theorem average_eq_response (r : Rounding binary32) (he : e ≤ discard.length)
    (htotal : totalFrame < L) {averageNumber : ℤ}
    (hcount : averageNumber = #(keptIndices discard e totalFrame))
    {R : Buffer MatrixElementType (L * L)} (hR : R.Assigned) {f : ℕ → ℚ}
    (hdelayed : HoldsDelayed R f totalFrame) {A : Buffer MatrixElementType L}
    (hA : A.Stores fun _ => 0) :
    ∃ R' A', getAverageSignalRounded r discard e R A averageNumber totalFrame = .ok (R', A') ∧
      (HoldsMultiples discard e totalFrame L f → AllReach discard e totalFrame L f →
        ∀ j < L, Reached discard e totalFrame L j → A'.cell j = .set (f j)) ∧
      (HoldsMultiples discard e totalFrame L f → r = toNearestEven binary32 →
        #(keptIndices discard e totalFrame) < 2 ^ 23 →
        (∀ j < L, f j ≠ 0 → (2 : ℚ) ^ (-126 : ℤ) ≤ |f j|) →
        (∀ j < L, Reached discard e totalFrame L j → A'.cell j = .set (f j)) →
        AllReach discard e totalFrame L f) := by
  obtain ⟨⟨R', A'⟩, hrun, -, haverage⟩ :=
    getAverageSignalRounded_ensures r averageNumber he htotal hR hA.assigned
  have hvalue : HoldsMultiples discard e totalFrame L f → ∀ j < L,
      Reached discard e totalFrame L j → A'.cell j =
        .set (r.round (#{i ∈ keptIndices discard e totalFrame | i + j < L} * f j /
          #(keptIndices discard e totalFrame))) := by
    intro hholds j hj hreached
    rw [← average_delayed r hcount hdelayed hholds hj hreached, ← hA.value hj]
    exact haverage j hj
  refine ⟨R', A', hrun, fun hholds hall j hj hreached => ?_, ?_⟩
  · have hkept : (#(keptIndices discard e totalFrame) : ℚ) ≠ 0 := by
      obtain ⟨i, hi, -⟩ := hreached
      exact Nat.cast_ne_zero.mpr (card_ne_zero_of_mem hi)
    have hpoint : binary32.Representable (f j) := by
      obtain ⟨i, hi, -⟩ := id hreached
      have hone := hholds.multiple j hj hreached 1 (card_pos.mpr ⟨i, hi⟩)
      rwa [Nat.cast_one, one_mul] at hone
    have hquotient : (#{i ∈ keptIndices discard e totalFrame | i + j < L} : ℚ) * f j /
        #(keptIndices discard e totalFrame) = f j := by
      by_cases hf : f j = 0
      · rw [hf, mul_zero, zero_div]
      · rw [filter_true_of_mem (hall j hj hf hreached), mul_div_assoc, mul_div_cancel₀ _ hkept]
    rw [hvalue hholds j hj hreached, hquotient, r.round_eq _ hpoint]
  · rintro hholds rfl hfew hnormal hclaim j hj hf hreached
    by_contra hmissing
    have hfewer : #{i ∈ keptIndices discard e totalFrame | i + j < L} <
        #(keptIndices discard e totalFrame) :=
      lt_of_le_of_ne (card_filter_le _ _) fun hcard => hmissing (card_filter_eq_iff.mp hcard)
    have hcell := (hvalue hholds j hj hreached).symm.trans (hclaim j hj hreached)
    exact round_part_ne hfewer hfew (hnormal j hj hf) (Cell.set.inj hcell)

/-- The shipped configuration keeps 46 frames, but only frame 7 reaches point 247: a
peak of 46 there comes out as 1, and nothing is rounded on the way. -/
theorem not_every_average_the_response :
    ¬ ∀ (L totalFrame e : ℕ) (discard : List ℤ) (averageNumber : ℤ) (f : ℕ → ℚ)
      (R : Buffer MatrixElementType (L * L)) (A : Buffer MatrixElementType L),
      e ≤ discard.length → totalFrame < L →
      averageNumber = #(keptIndices discard e totalFrame) → R.Assigned →
      HoldsDelayed R f totalFrame → (A.Stores fun _ => 0) →
      HoldsMultiples discard e totalFrame L f →
      ∃ R' A', getAverageSignalRounded (toNearestEven binary32) discard e R A averageNumber
          totalFrame = .ok (R', A') ∧
        ∀ j < L, Reached discard e totalFrame L j → A'.cell j = .set (f j) := by
  intro hall
  have hkept : #(keptIndices Globals.shipped.discardFrameNumber 24 70) = 46 := by decide +kernel
  have hreach :
      #{i ∈ keptIndices Globals.shipped.discardFrameNumber 24 70 | i + 247 < 255} = 1 := by
    decide +kernel
  let f : ℕ → ℚ := fun t => if t = 247 then 46 else 0
  have hzero : (Buffer.fill 255 (0 : ℚ)).Stores fun _ => 0 := fun _ _ => rfl
  have hholds : HoldsMultiples Globals.shipped.discardFrameNumber 24 70 255 f := by
    refine ⟨by rw [hkept]; exact representable_natCast (by decide), fun j _ _ c hc => ?_⟩
    rw [hkept] at hc
    have hpeak : (c : ℚ) * f j = ((c * if j = 247 then 46 else 0 : ℕ) : ℚ) := by
      simp only [f]
      split_ifs <;> simp
    rw [hpeak]
    refine representable_natCast ?_
    split_ifs <;> omega
  have hpoint : Reached Globals.shipped.discardFrameNumber 24 70 255 247 :=
    ⟨7, by decide +kernel, by decide⟩
  obtain ⟨R', A', hrun, hclaim⟩ := hall 255 70 24 Globals.shipped.discardFrameNumber 46 f
    (delayedCopies 255 f) (.fill 255 0) (by decide) (by decide) (by rw [hkept]; rfl)
    (delayedCopies_assigned 255 f) (holdsDelayed_delayedCopies 255 f 70) hzero hholds
  obtain ⟨⟨R'', A''⟩, hrun', -, haverage⟩ := getAverageSignalRounded_ensures
    (toNearestEven binary32) 46 (show 24 ≤ Globals.shipped.discardFrameNumber.length by decide)
    (show 70 < 255 by decide) (delayedCopies_assigned 255 f) hzero.assigned
  have hsame : A'' = A' := (Prod.mk.inj (Except.ok.inj (hrun'.symm.trans hrun))).2
  have hcell : A''.cell 247 = .set ((toNearestEven binary32).round (((1 : ℕ) : ℚ) * 46 / 46)) := by
    have hcount : (46 : ℤ) = #(keptIndices Globals.shipped.discardFrameNumber 24 70) := by
      rw [hkept]
      rfl
    have hquotient := average_delayed (toNearestEven binary32) hcount
      (holdsDelayed_delayedCopies 255 f 70) hholds (by decide) hpoint
    rw [hreach, hkept] at hquotient
    exact (haverage 247 (by decide)).trans (congrArg Cell.set hquotient)
  have hresponse := hclaim 247 (by decide) hpoint
  rw [← hsame, hcell] at hresponse
  exact absurd hresponse (by decide +kernel)

/-- Three frames, the second of them discarded: the response ends before the last kept
copy leaves the row. -/
theorem average_eq_response_three_frames :
    ∃ R' A', getAverageSignalRounded (toNearestEven binary32) [1] 1
        (delayedCopies 5 fun t => if t < 3 then t + 1 else 0) (.fill 5 0) 2 3 = .ok (R', A') ∧
      A'.cell 0 = .set 1 ∧ A'.cell 2 = .set 3 ∧ A'.cell 4 = .set 0 := by
  obtain ⟨R', A', hrun, hresponse, -⟩ := average_eq_response (toNearestEven binary32)
    (show 1 ≤ [(1 : ℤ)].length by decide) (show 3 < 5 by decide)
    (show (2 : ℤ) = #(keptIndices [1] 1 3) by decide)
    (delayedCopies_assigned 5 fun t => if t < 3 then t + 1 else 0)
    (holdsDelayed_delayedCopies 5 _ 3) (A := .fill 5 0) (fun _ _ => rfl)
  have hholds : HoldsMultiples [1] 1 3 5 fun t => if t < 3 then (t : ℚ) + 1 else 0 := by
    refine ⟨representable_natCast (by decide), fun j hj _ c hc => ?_⟩
    have hc : c ≤ 2 := hc
    have hnatural : (c : ℚ) * (if j < 3 then (j : ℚ) + 1 else 0) =
        ((c * if j < 3 then j + 1 else 0 : ℕ) : ℚ) := by
      split_ifs <;> simp
    rw [hnatural]
    refine representable_natCast ?_
    split_ifs
    · exact lt_of_le_of_lt (Nat.mul_le_mul hc (show j + 1 ≤ 5 by omega)) (by decide)
    · exact (by decide : 0 < 2 ^ 24)
  have hall : AllReach [1] 1 3 5 fun t => if t < 3 then (t : ℚ) + 1 else 0 := by
    intro j hj hf _ i hi
    have hends : j < 3 := by
      by_contra h
      exact hf (if_neg h)
    have := (mem_keptIndices.mp hi).1
    omega
  have hsome : ∀ j < 5, Reached [1] 1 3 5 j := fun j hj => ⟨0, by decide, by omega⟩
  have hresponse := hresponse hholds hall
  refine ⟨R', A', hrun, ?_, ?_, ?_⟩
  · simpa using hresponse 0 (by decide) (hsome 0 (by decide))
  · rw [hresponse 2 (by decide) (hsome 2 (by decide))]
    norm_num
  · simpa using hresponse 4 (by decide) (hsome 4 (by decide))

/-! ## The error of one call -/

/-- Bounds that one call reproduces: with terms of at most `V`, an accumulator of at most `a`
stays below `a`, and one that is off by at most `E` stays within `E`. -/
structure Stable (u least range : ℚ) (n : ℕ) (d V a E : ℚ) : Prop where
  divisor : 1 ≤ |d|
  peak_nonneg : 0 ≤ V
  magnitude : a + n * V ≤ |d| * a
  error : (1 + u) ^ (n + 1) * (E + (a + n * V + least)) ≤
    |d| * (E - u * least) + (a + n * V + least)
  inside : (1 + u) ^ n * (E + (a + n * V + least)) ≤ range

namespace Stable

variable {r : Rounding f} {u least range d V a E : ℚ} {n : ℕ}

theorem abs_exact_le (h : Stable u least range n d V a E) {B : ℚ} {l : List ℚ} (hB : |B| ≤ a)
    (hl : (l.map abs).sum ≤ n * V) : |(B + l.sum) / d| ≤ a := by
  have hdivisor := h.divisor
  have hsum : |B + l.sum| ≤ |B| + (l.map abs).sum :=
    (abs_add_le _ _).trans (add_le_add_right (abs_sum_le_sum_map_abs l) _)
  have hmagnitude := h.magnitude
  rw [abs_div, div_le_iff₀ (by linarith)]
  linarith

theorem abs_rounded_sub_le (h : Stable u least range n d V a E) (hr : r.Accurate u least range)
    {A B : ℚ} {l : List ℚ} (hlength : l.length = n) (hB : |B| ≤ a)
    (hl : (l.map abs).sum ≤ n * V) (hnear : |A - B| ≤ E) :
    |r.div (l.foldl r.add A) d - (B + l.sum) / d| ≤ E := by
  have hdivisor := h.divisor
  have hunit := hr.unit_nonneg
  have hleast := hr.least_nonneg
  have hinside := h.inside
  have hnV : 0 ≤ n * V := mul_nonneg (Nat.cast_nonneg n) h.peak_nonneg
  have hsum := hr.foldl l (s := A) (S := B) (B := a + n * V) (c := E + (a + n * V + least))
    (by linarith) (by linarith) (by rwa [hlength])
  rw [hlength] at hsum
  have hbound : |B + l.sum| ≤ a + n * V :=
    (abs_add_le _ _).trans (add_le_add hB ((abs_sum_le_sum_map_abs l).trans hl))
  have hquotient := hr.div hsum hbound hdivisor hinside
  rw [← mul_assoc, ← pow_succ'] at hquotient
  have herror := h.error
  have hscaled : |d| * (|r.div (l.foldl r.add A) d - (B + l.sum) / d| - u * least) ≤
      |d| * (E - u * least) := by linarith
  have hcancel := le_of_mul_le_mul_left hscaled (by linarith)
  linarith

end Stable

end HadamardIMS.Precision
