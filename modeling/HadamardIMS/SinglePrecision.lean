import HadamardIMS.Reports
import HadamardIMS.RoundedMachine

/-!
# How far single precision is off

With a matrix of signs, samples of sixteen bits and a length of at most 256 the product is not
rounded at all. The machine in single precision then agrees with the exact one in everything
but the average, and there the two stay within a bound that no number of rounds exceeds.
-/
namespace HadamardIMS.Precision

open Loops Buffers Hadamard Signals Significands Runs Acquisition Finset

variable {f : Format} {g : Globals} {m : Setup g}

/-! ## The product -/

section Product

variable {aRow aCol bCol : ℕ} {a : Buffer MatrixElementType (aRow * aCol)}
  {b : Buffer MatrixElementType (aCol * bCol)}

theorem unrounded_exact (a : Buffer MatrixElementType (aRow * aCol))
    (b : Buffer MatrixElementType (aCol * bCol)) (row col : ℕ) :
    Unrounded (.exact f) a b row col := fun _ _ => (sum_range_succ _ _).symm

/-- Where nothing is rounded, each entry is computed alike. -/
theorem accumulateTo_congr (r : Rounding f) (ha : a.Assigned) (hb : b.Assigned) {row col : ℕ}
    (hrow : row < aRow) (hcol : col < bCol) (hexact : Unrounded r a b row col)
    (c : Buffer MatrixElementType (aRow * bCol)) :
    accumulateTo r aCol a b aCol row col (some c) =
      accumulateTo (.exact f) aCol a b aCol row col (some c) := by
  have hlt := rowMajor_lt hrow hcol
  rw [accumulateTo, accumulateTo, Pointer.store_some_of_lt _ _ hlt, ok_bind, ok_bind]
  refine forRange_congr (fun k (res : Pointer MatrixElementType (aRow * bCol)) =>
    ∃ c', res = some c' ∧
      c'.cell (row * bCol + col) = .set (∑ i ∈ range k, term aCol bCol a b row col i))
    (Nat.zero_le _) ⟨_, rfl, by simp⟩ ?_
  rintro k res - hk ⟨c', rfl, hsum⟩
  have hload : Pointer.load (some c') (row * bCol + col) =
      .ok (∑ i ∈ range k, term aCol bCol a b row col i) := Buffer.read_of_set hlt hsum
  have hterm := unrounded_exact (f := f) a b row col k hk
  simp only [accumulate, hload, ha.stores.read (rowMajor_lt hrow hk),
    hb.stores.read (rowMajor_lt hk hcol), bind, Except.bind, Pointer.store_some_of_lt _ _ hlt,
    hexact k hk, hterm]
  exact ⟨trivial, .ok ⟨_, rfl, by simp⟩⟩

theorem calculateRounded_some (r : Rounding f) (ha : a.Assigned) (hb : b.Assigned)
    (hexact : ∀ row col, row < aRow → col < bCol → Unrounded r a b row col)
    (c : Buffer MatrixElementType (aRow * bCol)) :
    calculateRounded r aCol a b (some c) = calculate (some c) aCol a b := by
  rw [← calculateRounded_unrounded (f := f), calculateRounded, calculateRounded]
  refine forRange_congr (fun _ (res : Pointer MatrixElementType (aRow * bCol)) =>
    ∃ c', res = some c') (Nat.zero_le _) ⟨c, rfl⟩ ?_
  rintro row res - hrow ⟨c', rfl⟩
  have hentry : ∀ (col : ℕ) (res : Pointer MatrixElementType (aRow * bCol)), col < bCol →
      (∃ c', res = some c') →
        accumulateTo r aCol a b aCol row col res =
          accumulateTo (.exact f) aCol a b aCol row col res ∧
        Ensures (accumulateTo (.exact f) aCol a b aCol row col res) fun res =>
          ∃ c', res = some c' := by
    rintro col res hcol ⟨c', rfl⟩
    refine ⟨accumulateTo_congr r ha hb hrow hcol (hexact row col hrow hcol) c',
      (accumulateTo_ensures (.exact f) ha hb hrow hcol le_rfl (unrounded_exact a b row col)
        c').mono ?_⟩
    rintro res ⟨c'', hres, -⟩
    exact ⟨c'', hres⟩
  refine ⟨?_, ?_⟩
  · exact forRange_congr (fun _ (res : Pointer MatrixElementType (aRow * bCol)) =>
      ∃ c', res = some c') (Nat.zero_le _) ⟨c', rfl⟩
      fun col res _ hcol hres => hentry col res hcol hres
  · exact forRange_zero_ensures (fun _ (res : Pointer MatrixElementType (aRow * bCol)) =>
      ∃ c', res = some c') ⟨c', rfl⟩ fun col res hcol hres => (hentry col res hcol hres).2

/-- Where nothing is rounded, `calculateRounded` is `calculate`. -/
theorem calculateRounded_eq_calculate (r : Rounding f) (ha : a.Assigned) (hb : b.Assigned)
    (hexact : ∀ row col, row < aRow → col < bCol → Unrounded r a b row col) (haRow : 0 < aRow)
    (hbCol : 0 < bCol) (res : Pointer MatrixElementType (aRow * bCol)) :
    calculateRounded r aCol a b res = calculate res aCol a b := by
  cases res with
  | none =>
    rw [calculate_null haRow hbCol]
    exact forRange_first_error haRow (forRange_first_error hbCol rfl)
  | some c => exact calculateRounded_some r ha hb hexact c

end Product

/-! ## Another average -/

/-- Another average, and everything else as it is. -/
def withAverage {L : ℕ} (A : Buffer MatrixElementType L) (s : State L) : State L :=
  { s with pAverageResult := A }

theorem callCalculate_withAverage (m : Setup g) (s : State g.sequenceLength)
    (A : Buffer MatrixElementType g.sequenceLength) :
    callCalculate m (withAverage A s) = withAverage A <$> callCalculate m s := by
  simp only [callCalculate, withAverage]
  generalize s.heap.malloc (4 * (g.sequenceLength * g.sequenceLength)) = p
  obtain _ | ⟨b, heap⟩ := p
  · cases Hadamard.calculate none g.sequenceLength s.pOverlapSignal m.pPrbsTemp with
    | error e => rfl
    | ok res => cases res <;> rfl
  · cases Hadamard.calculate (some (.malloc _ (m.memory (b + 2)))) g.sequenceLength
        s.pOverlapSignal m.pPrbsTemp with
    | error e => rfl
    | ok res => cases res <;> rfl

/-- Only `getAverageSignal` looks at the average. -/
theorem step_withAverage (m : Setup g) {s : State g.sequenceLength} {e : Acquisition.Event}
    (he : ¬(e = .main ∧ s.pc = .average)) (A : Buffer MatrixElementType g.sequenceLength) :
    step m (withAverage A s) e = (step m s e).map (withAverage A) := by
  by_cases hc : Computes s e
  · obtain ⟨rfl, hpc | hpc | hpc⟩ := hc
    · have hplace : (withAverage A s).pc = .calculate := hpc
      rw [step, step, mainStep, mainStep, hplace, hpc]
      dsimp only
      rw [callCalculate_withAverage]
      cases callCalculate m s <;> rfl
    · have hplace : (withAverage A s).pc = .transposeRecovery := hpc
      rw [step, step, mainStep, mainStep, hplace, hpc]
      dsimp only [withAverage]
      cases transposingMatrix g.sequenceLength g.sequenceLength s.pRecoverySignal <;> rfl
    · exact absurd ⟨rfl, hpc⟩ he
  · have hsame : withAverage A s = withFloats s.pRecoverySignal A s := rfl
    rw [hsame, step_withFloats m hc]
    cases hstep : step m s e with
    | none => rfl
    | some s' =>
      rw [← (recovery_of_step hc (step_cases hstep)).1]
      rfl

/-! ## Bounds of the exact machine -/

/-- The converter delivers at most `w`. -/
def SampleAtMost (w : ℕ) : Acquisition.Event → Prop
  | .main => True
  | .key => True
  | .sample v => v.toNat ≤ w
  | .complete v => v.toNat ≤ w

/-- How many frames are averaged. -/
def keptCount (g : Globals) : ℕ :=
  #(keptIndices g.discardFrameNumber g.errFrameNumber g.totalFrame)

/-- The magnitude that decoding cannot exceed. -/
def recoveredBound (g : Globals) (w : ℕ) : ℚ := w * g.sequenceLength / 128

/-- What the samples, the recovered matrix and the average are bounded by. -/
structure Bounded (w : ℕ) (a : ℚ) (h : List (State g.sequenceLength × Acquisition.Event))
    (s : State g.sequenceLength) : Prop where
  book : Bookkept h s
  samples : ∀ i < g.sequenceLength + 2, (s.convertedValue.value i).toNat ≤ w
  stored : ∀ t ∈ roundStores h, ∀ i < g.sequenceLength + 2, (t.convertedValue.value i).toNat ≤ w
  recovery : s.pc = .transposeRecovery ∨ s.pc = .average →
    ∀ p < g.sequenceLength * g.sequenceLength, |s.pRecoverySignal.value p| ≤ recoveredBound g w
  average : ∀ j < g.sequenceLength, |s.pAverageResult.value j| ≤ a

theorem mem_roundStores_cons {L : ℕ} {s t : State L} {e : Acquisition.Event}
    {h : List (State L × Acquisition.Event)} (ht : t ∈ roundStores ((s, e) :: h)) :
    t = s ∨ t ∈ roundStores h := by
  rw [roundStores] at ht
  split_ifs at ht
  · exact absurd ht List.not_mem_nil
  · rcases List.mem_append.mp ht with ht | ht
    · exact .inr ht
    · exact .inl (List.mem_singleton.mp ht)
  · exact .inr ht

/-- A row of samples times a column of signs. -/
theorem abs_product_le {L w : ℕ} {a b : Buffer MatrixElementType (L * L)}
    (ha : ∀ p < L * L, |a.value p| ≤ w) (hb : HoldsSigns b) {row col : ℕ} (hrow : row < L)
    (hcol : col < L) :
    |∑ k ∈ range L, a.value (row * L + k) * b.value (k * L + col)| ≤ w * L / 128 := by
  have hterm : ∀ k ∈ range L, |a.value (row * L + k) * b.value (k * L + col)| ≤ w * (1 / 128) := by
    intro k hk
    have hk := mem_range.mp hk
    have hsign : |b.value (k * L + col)| = 1 / 128 := by
      rw [Buffer.value]
      rcases hb _ (rowMajor_lt hk hcol) with h | h
      · rw [h, Cell.value_set, abs_of_pos (by norm_num)]
      · rw [h, Cell.value_set, abs_neg, abs_of_pos (by norm_num)]
    rw [abs_mul, hsign]
    exact mul_le_mul_of_nonneg_right (ha _ (rowMajor_lt hrow hk)) (by norm_num)
  calc |∑ k ∈ range L, a.value (row * L + k) * b.value (k * L + col)|
      ≤ ∑ k ∈ range L, |a.value (row * L + k) * b.value (k * L + col)| := abs_sum_le_sum_abs _ _
    _ ≤ ∑ _k ∈ range L, (w : ℚ) * (1 / 128) := sum_le_sum hterm
    _ = w * L / 128 := by
      rw [sum_const, card_range, nsmul_eq_mul]
      ring

namespace Bounded

variable {w : ℕ} {a u least range E : ℚ} {h : List (State g.sequenceLength × Acquisition.Event)}
  {s s' : State g.sequenceLength} {e : Acquisition.Event}

theorem samples_step (hI : Bounded w a h s) (hs : StepCase m s e s') (he : SampleAtMost w e) :
    ∀ i < g.sequenceLength + 2, (s'.convertedValue.value i).toNat ≤ w := by
  cases hs with
  | main hmain => cases hmain <;> exact hI.samples
  | key => exact hI.samples
  | sample v hen hmore hroom =>
    intro i hi
    rw [Buffer.value_put]
    split_ifs
    · exact he
    · exact hI.samples i hi
  | complete v hen hlast hroom =>
    intro i hi
    rw [Buffer.value_put]
    split_ifs
    · exact he
    · exact hI.samples i hi

theorem stored_step (hI : Bounded w a h s) : ∀ t ∈ roundStores ((s, e) :: h),
    ∀ i < g.sequenceLength + 2, (t.convertedValue.value i).toNat ≤ w := by
  intro t ht
  rcases mem_roundStores_cons ht with rfl | ht
  · exact hI.samples
  · exact hI.stored t ht

/-- The matrix that is decoded consists of such samples. -/
theorem overlap_le (hI : Bounded w a h s) (hpc : s.pc = .calculate) :
    ∀ p < g.sequenceLength * g.sequenceLength, |s.pOverlapSignal.value p| ≤ w := by
  refine forall_of_rowMajor fun i c hi hc => ?_
  obtain ⟨t, ht, -⟩ := hI.book.exists_store (r := c) (by rw [hpc]; exact hc)
  have hcell := hI.book.contents c t ht i hi
  rw [overlapCell, if_pos hpc] at hcell
  rw [Buffer.value, hcell, Cell.value_set, abs_of_nonneg (Nat.cast_nonneg _)]
  exact_mod_cast hI.stored t (List.mem_of_getElem? ht) (i + 1) (by omega)

theorem recovery_main (hI : Bounded w a h s) (hsigns : HoldsSigns m.pPrbsTemp)
    (hs : MainCase m s s') : s'.pc = .transposeRecovery ∨ s'.pc = .average →
      ∀ p < g.sequenceLength * g.sequenceLength,
        |s'.pRecoverySignal.value p| ≤ recoveredBound g w := by
  intro hpc'
  cases hs
  case calculate hpc hmalloc hcalculate =>
    obtain ⟨r, hr, hstores⟩ := (calculate_ensures _ (hI.book.overlap_assigned (.inr hpc))
      m.pPrbsTemp_assigned).of_eq_ok hcalculate
    cases hr
    refine forall_of_rowMajor fun i j hi hj => ?_
    rw [hstores.value (rowMajor_lt hi hj), rowMajor_div hj, rowMajor_mod hj]
    exact abs_product_le (hI.overlap_le hpc) hsigns hi hj
  case transposeRecovery hpc htranspose =>
    have hcells := ((transposingMatrix_square (hI.book.recovery (.inl hpc))).of_eq_ok htranspose).2
    refine forall_of_rowMajor fun i j hi hj => ?_
    rw [Buffer.value, hcells i j hi hj]
    exact hI.recovery (.inl hpc) _ (rowMajor_lt hj hi)
  all_goals simp at hpc'

theorem average_main (hI : Bounded w a h s) (htotal : g.totalFrame < g.sequenceLength)
    (hstable : Stable u least range (keptCount g) g.averageNumber (recoveredBound g w) a E)
    (hs : MainCase m s s') : ∀ j < g.sequenceLength, |s'.pAverageResult.value j| ≤ a := by
  cases hs
  case average hpc haverage =>
    have hstores := ((getAverageSignal_ensures g.averageNumber g.errFrameNumber_le htotal
      (hI.book.recovery (.inr hpc)) (hI.book.average htotal)).of_eq_ok haverage).2
    intro j hj
    rw [hstores.value hj, ← sum_keptTerms]
    exact hstable.abs_exact_le (hI.average j hj)
      (sum_abs_keptTerms_le htotal hstable.peak_nonneg (hI.recovery (.inr hpc)) j)
  all_goals exact hI.average

theorem step (hI : Bounded w a h s) (htotal : g.totalFrame < g.sequenceLength)
    (hsigns : HoldsSigns m.pPrbsTemp)
    (hstable : Stable u least range (keptCount g) g.averageNumber (recoveredBound g w) a E)
    (he : SampleAtMost w e) (hs : StepCase m s e s') : Bounded w a ((s, e) :: h) s' := by
  refine ⟨hI.book.step hs, hI.samples_step hs he, hI.stored_step, ?_, ?_⟩
  · rcases hs.main_or_interrupt with ⟨-, hmain⟩ | hne
    · exact hI.recovery_main hsigns hmain
    · rw [(hs.undisturbed hne).pc, (hs.undisturbed hne).recovery]
      exact hI.recovery
  · rcases hs.main_or_interrupt with ⟨-, hmain⟩ | hne
    · exact hI.average_main htotal hstable hmain
    · rw [(hs.undisturbed hne).average]
      exact hI.average

/-- The run lemma. -/
theorem of_run (htotal : g.totalFrame < g.sequenceLength) (hsigns : HoldsSigns m.pPrbsTemp)
    (ha : 0 ≤ a)
    (hstable : Stable u least range (keptCount g) g.averageNumber (recoveredBound g w) a E)
    (hrun : Run (Acquisition.step m) (State.initial m) h s) (hw : ∀ p ∈ h, SampleAtMost w p.2) :
    Bounded w a h s := by
  refine Run.invariant_of_guarded (Bounded w a) (fun _ e => SampleAtMost w e) ?_
    (fun h s e s' _ hI he hs => hI.step htotal hsigns hstable he (step_cases hs)) hrun hw
  refine ⟨Bookkept.initial m, fun i _ => Nat.zero_le w, fun t ht => absurd ht List.not_mem_nil,
    fun hpc => by simp [State.initial] at hpc, fun j _ => ?_⟩
  change |(0 : ℚ)| ≤ a
  rwa [abs_zero]

end Bounded

/-! ## Lock step -/

/-- The same state but for the average, which is off by at most `E`. -/
structure Matches (E : ℚ) {L : ℕ} (s t : State L) : Prop where
  same : s = withAverage s.pAverageResult t
  assigned : s.pAverageResult.Assigned
  near : ∀ j < L, |s.pAverageResult.value j - t.pAverageResult.value j| ≤ E

/-- What the two machines run on: a matrix of signs, few enough frames, a divisor that is a
floating-point number, and bounds that one round reproduces. -/
structure Conditions (r : Rounding binary32) (m : Setup g) (w : ℕ) (u least range a E : ℚ) :
    Prop where
  accurate : r.Accurate u least range
  length : g.sequenceLength ≤ 256
  signs : HoldsSigns m.pPrbsTemp
  total : g.totalFrame < g.sequenceLength
  divisor : |g.averageNumber| < 2 ^ 24
  bound_nonneg : 0 ≤ a
  error_nonneg : 0 ≤ E
  stable : Stable u least range (keptCount g) g.averageNumber (recoveredBound g w) a E

namespace Conditions

variable {r : Rounding binary32} {w : ℕ} {u least range a E : ℚ} {s t : State g.sequenceLength}
  {h : List (State g.sequenceLength × Acquisition.Event)} {e : Acquisition.Event}

theorem round_divisor (hc : Conditions r m w u least range a E) :
    r.round g.averageNumber = g.averageNumber := r.round_eq _ (representable_intCast hc.divisor)

/-- The product of samples and signs is not rounded. -/
theorem callCalculateRounded_eq (hc : Conditions r m w u least range a E)
    (hsamples : HoldsSamples s.pOverlapSignal) :
    callCalculateRounded r m s = callCalculate m s := by
  have hL := g.one_le_sequenceLength
  have hproduct := calculateRounded_eq_calculate r hsamples.assigned hc.signs.assigned
    (unrounded_of_samples r hc.length hsamples hc.signs) hL hL
  rw [callCalculateRounded, callCalculate]
  generalize s.heap.malloc (4 * (g.sequenceLength * g.sequenceLength)) = p
  -- What follows on the product is the same for both.
  obtain _ | ⟨b, heap⟩ := p
  · exact congrArg (· >>= _) (hproduct none)
  · exact congrArg (· >>= _) (hproduct (some _))

/-- Away from the average the machines take the same step. -/
theorem stepRounded_eq (hc : Conditions r m w u least range a E)
    (hsamples : s.pc = .calculate → HoldsSamples s.pOverlapSignal)
    (he : ¬(e = .main ∧ s.pc = .average)) : stepRounded r m s e = step m s e := by
  by_cases hproduct : e = .main ∧ s.pc = .calculate
  · obtain ⟨rfl, hpc⟩ := hproduct
    rw [stepRounded_calculate r hpc, hc.callCalculateRounded_eq (hsamples hpc), step, mainStep, hpc]
  · exact stepRounded_eq_step r fun hcomputes =>
      hcomputes.2.elim (fun hpc => hproduct ⟨hcomputes.1, hpc⟩) fun hpc => he ⟨hcomputes.1, hpc⟩

theorem bounded (hc : Conditions r m w u least range a E)
    (hrun : Run (step m) (State.initial m) h t) (hw : ∀ q ∈ h, SampleAtMost w q.2) :
    Bounded w a h t := .of_run hc.total hc.signs hc.bound_nonneg hc.stable hrun hw

/-- The step that averages, from matching states. -/
theorem next_average (hc : Conditions r m w u least range a E) (hbounded : Bounded w a h t)
    (hmatch : Matches E s t) (hpc : s.pc = .average) :
    Option.Rel (Matches E) (stepRounded r m s .main) (step m t .main) := by
  obtain ⟨hsame, hassigned, hnear⟩ := hmatch
  generalize s.pAverageResult = A at hsame hassigned hnear
  subst hsame
  have hplace : t.pc = .average := hpc
  have hrecovery := hbounded.recovery (.inr hplace)
  have hassignedExact := hbounded.book.average hc.total
  obtain ⟨⟨R', A'⟩, hrounded, -, hA'⟩ := getAverageSignalRounded_ensures r g.averageNumber
    g.errFrameNumber_le hc.total (hbounded.book.recovery (.inr hplace)) hassigned
  obtain ⟨⟨R'', B'⟩, hexact, -, hB'⟩ := getAverageSignal_ensures g.averageNumber
    g.errFrameNumber_le hc.total (hbounded.book.recovery (.inr hplace)) hassignedExact
  have hexactly : getAverageSignalRounded (.exact binary32) g.discardFrameNumber g.errFrameNumber
      t.pRecoverySignal t.pAverageResult g.averageNumber g.totalFrame = .ok (R'', B') := by
    rwa [getAverageSignalRounded_exact]
  have hshifted : R' = R'' := shifted_eq hrounded hexactly
  subst hshifted
  have hfirst : stepRounded r m (withAverage A t) .main =
      some { t with pc := .report, pRecoverySignal := R', pAverageResult := A' } := by
    have hrun : getAverageSignalRounded r g.discardFrameNumber g.errFrameNumber
        (withAverage A t).pRecoverySignal (withAverage A t).pAverageResult g.averageNumber
          g.totalFrame = .ok (R', A') := hrounded
    rw [stepRounded_average r hpc, hrun]
    rfl
  have hsecond : step m t .main =
      some { t with pc := .report, pRecoverySignal := R', pAverageResult := B' } := by
    rw [step, mainStep, hplace]
    simp only [hexact, ok_bind]
    rfl
  rw [hfirst, hsecond, Option.rel_some_some]
  refine ⟨rfl, hA'.assigned, fun j hj => ?_⟩
  change |A'.value j - B'.value j| ≤ E
  rw [hA'.value hj, hB'.value hj, hc.round_divisor, ← sum_keptTerms]
  exact hc.stable.abs_rounded_sub_le hc.accurate (length_keptTerms _ _ _ _ _ j)
    (hbounded.average j hj) (sum_abs_keptTerms_le hc.total hc.stable.peak_nonneg hrecovery j)
    (hnear j hj)

/-- Any other step, from matching states. -/
theorem next_quiet (hc : Conditions r m w u least range a E) (hbounded : Bounded w a h t)
    (hmatch : Matches E s t) (he : ¬(e = .main ∧ s.pc = .average)) :
    Option.Rel (Matches E) (stepRounded r m s e) (step m t e) := by
  obtain ⟨hsame, hassigned, hnear⟩ := hmatch
  generalize s.pAverageResult = A at hsame hassigned hnear
  subst hsame
  have hquiet : ¬(e = .main ∧ t.pc = .average) := he
  have hsamples : t.pc = .calculate → HoldsSamples t.pOverlapSignal :=
    fun hpc => holdsSamples_of_bookkept hbounded.book hpc
  have hsteps : stepRounded r m (withAverage A t) e = step m (withAverage A t) e :=
    hc.stepRounded_eq hsamples he
  rw [hsteps, step_withAverage m hquiet]
  cases hstep : step m t e with
  | none => exact .none
  | some t' =>
    rw [Option.map_some, Option.rel_some_some]
    refine ⟨rfl, hassigned, fun j hj => ?_⟩
    rw [(average_of_step hquiet (step_cases hstep)).1]
    exact hnear j hj

/-- From matching states on the two machines run in lock step. -/
theorem lockStep_from (hc : Conditions r m w u least range a E)
    {h₀ : List (State g.sequenceLength × Acquisition.Event)} {s₀ t₀ : State g.sequenceLength}
    (hreached : Run (step m) (State.initial m) h₀ t₀) (hw : ∀ q ∈ h₀, SampleAtMost w q.2)
    (hmatch : Matches E s₀ t₀) :
    LockStep (stepRounded r m) (step m) (SampleAtMost w) (Matches E) s₀ t₀ where
  start := hmatch
  next := fun {h t s e} hrun hw' _ hmatch => by
    have hbounded := hc.bounded (hreached.trans hrun) (List.forall_mem_append.mpr ⟨hw', hw⟩)
    by_cases he : e = .main ∧ s.pc = .average
    · obtain ⟨rfl, hpc⟩ := he
      exact hc.next_average hbounded hmatch hpc
    · exact hc.next_quiet hbounded hmatch he

theorem matches_initial (hc : Conditions r m w u least range a E) :
    Matches E (State.initial m) (State.initial m) :=
  ⟨rfl, Buffer.assigned_fill 0, fun j _ => by
    rw [sub_self, abs_zero]
    exact hc.error_nonneg⟩

theorem lockStep (hc : Conditions r m w u least range a E) :
    LockStep (stepRounded r m) (step m) (SampleAtMost w) (Matches E) (State.initial m)
      (State.initial m) :=
  hc.lockStep_from .start (fun _ hq => absurd hq List.not_mem_nil) hc.matches_initial

end Conditions

/-! ## The shipped configuration -/

/-- The second matrix that `main` builds consists of signs. -/
theorem holdsSigns_of_builtFrom {k : ℕ} (hk : 1 ≤ k) (hn : g.hadamardOrder = 2 ^ k)
    (hbuilt : BuiltFrom k m) : HoldsSigns m.pPrbsTemp := by
  have hsigns : ∀ n, n = 2 ^ k → ∀ {stale : ℕ → Buffer MatrixElementType n}
      {junk : ℕ → ℕ → MatrixElementType} {memory : ℕ → MatrixElementType} {old : OldContents}
      {H : Buffer MatrixElementType (n * n)}
      {S W : Buffer MatrixElementType ((n - 1) * (n - 1))},
      hadamardWith k n stale junk memory = .ok H → constructMatrices old H = .ok (S, W) →
      HoldsSigns W := by
    rintro n rfl stale junk memory old H S W hH hSW
    obtain ⟨H', hH', hentries⟩ := hadamardWith_entries hk stale junk memory
    rw [hH'] at hH
    cases hH
    have hpair : IsSequencePair k S W := (constructMatrices_ensures old hentries).of_eq_ok hSW
    refine forall_of_rowMajor fun i j hi hj => ?_
    rw [hpair.inverse_entry i j hi hj]
    rcases Sylvester.sylvester_eq_or (R := ℚ) k (j + 1) (i + 1) with h | h
    · rw [h, neg_div]
      exact .inr rfl
    · rw [h, neg_neg]
      exact .inl rfl
  obtain ⟨stale, junk, memory, old, H, S, W, hH, hSW, hcells⟩ := hbuilt
  intro p hp
  rw [(hcells p hp).2]
  exact hsigns _ hn hH hSW p hp

/-- How far the shipped program can be off with samples of at most `w`. -/
def shippedError (w : ℕ) : ℚ := (w + 1) / 170000

/-- What its accumulator stays below. -/
def shippedBound (w : ℕ) : ℚ := 391 / 192 * w

/-- What its sums stay below. -/
def shippedRange (w : ℕ) : ℚ := 100 * w + 1

theorem keptCount_shipped : keptCount .shipped = 46 := by decide +kernel

theorem recoveredBound_shipped (w : ℕ) : recoveredBound .shipped w = 255 / 128 * w := by
  change (w : ℚ) * (255 : ℕ) / 128 = 255 / 128 * w
  push_cast
  ring

theorem abs_averageNumber_shipped : |(Globals.shipped.averageNumber : ℚ)| = 46 := by
  rw [show Globals.shipped.averageNumber = 46 from rfl]
  norm_num

/-- No more than 47 roundings follow each other in one round. -/
theorem single_growth_le {k : ℕ} (hk : k ≤ 47) {x : ℚ} (hx : 0 ≤ x) :
    (1 + (2 : ℚ) ^ (-24 : ℤ)) ^ k * x ≤ (1 + 281 / 10 ^ 8) * x := by
  have hone : (1 : ℚ) ≤ 1 + 2 ^ (-24 : ℤ) := by norm_num
  refine mul_le_mul_of_nonneg_right ((pow_le_pow_right₀ hone hk).trans ?_) hx
  norm_num

theorem shipped_stable (w : ℕ) : Stable (2 ^ (-24 : ℤ)) (2 ^ (-126 : ℤ)) (shippedRange w)
    (keptCount .shipped) Globals.shipped.averageNumber (recoveredBound .shipped w)
    (shippedBound w) (shippedError w) := by
  have hw : (0 : ℚ) ≤ w := Nat.cast_nonneg w
  have hsum : shippedBound w + (46 : ℕ) * (255 / 128 * w) = 8993 / 96 * w := by
    rw [shippedBound]
    push_cast
    ring
  have hleast : (2 : ℚ) ^ (-126 : ℤ) ≤ 1 / 10 ^ 30 := by norm_num
  have hunit : (2 : ℚ) ^ (-24 : ℤ) * 2 ^ (-126 : ℤ) ≤ 1 / 10 ^ 30 := by norm_num
  have hnonneg : 0 ≤ shippedError w + (8993 / 96 * (w : ℚ) + 2 ^ (-126 : ℤ)) := by
    rw [shippedError]
    positivity
  rw [keptCount_shipped, recoveredBound_shipped]
  refine ⟨?_, by positivity, ?_, ?_, ?_⟩
  · rw [abs_averageNumber_shipped]
    norm_num
  · rw [abs_averageNumber_shipped, hsum, shippedBound]
    linarith
  · have hgrowth := single_growth_le (k := 46 + 1) le_rfl hnonneg
    rw [abs_averageNumber_shipped, hsum]
    rw [shippedError] at hgrowth ⊢
    linarith
  · have hgrowth := single_growth_le (k := 46) (by decide) hnonneg
    rw [hsum]
    rw [shippedError] at hgrowth ⊢
    rw [shippedRange]
    linarith

/-- The shipped program, rounding to the nearest. -/
theorem conditions_shipped {m : Setup .shipped} (hbuilt : BuiltFrom 8 m) (w : ℕ) :
    Conditions (toNearestEven binary32) m w (2 ^ (-24 : ℤ)) (2 ^ (-126 : ℤ)) (shippedRange w)
      (shippedBound w) (shippedError w) where
  accurate := toNearestEven_accurate binary32 _
  length := by decide
  signs := holdsSigns_of_builtFrom (by decide) rfl hbuilt
  total := by decide
  divisor := by decide
  bound_nonneg := by
    rw [shippedBound]
    positivity
  error_nonneg := by
    rw [shippedError]
    positivity
  stable := shipped_stable w

/-- In whatever order the events come and however many rounds they make up, the machine in
single precision answers each of them as the one with rational arithmetic does, with the same
matrices, frames, place and heap; and the average is never off by more than `E`. Neither of
them has a run that the other does not follow. -/
theorem rounded_runs_in_step {r : Rounding binary32} {w : ℕ} {u least range a E : ℚ}
    (hc : Conditions r m w u least range a E) :
    (∀ h s, Run (stepRounded r m) (State.initial m) h s → (∀ p ∈ h, SampleAtMost w p.2) →
      ∃ h' t, Run (step m) (State.initial m) h' t ∧ Matches E s t ∧
        List.Forall₂ (Agree (Matches E)) h h') ∧
    ∀ h' t, Run (step m) (State.initial m) h' t → (∀ p ∈ h', SampleAtMost w p.2) →
      ∃ h s, Run (stepRounded r m) (State.initial m) h s ∧ Matches E s t ∧
        List.Forall₂ (Agree (Matches E)) h h' :=
  ⟨fun _ _ hrun hw => hc.lockStep.run hrun hw, fun _ _ hrun hw => hc.lockStep.run_back hrun hw⟩

/-- The shipped program with a converter of twelve bits: the average is off by less than 1/40,
in every run. -/
theorem rounded_runs_in_step_shipped :
    ∃ m : Setup .shipped, BuiltFrom 8 m ∧
      ∀ h s, Run (stepRounded (toNearestEven binary32) m) (State.initial m) h s →
        (∀ p ∈ h, SampleAtMost 4095 p.2) →
        ∃ h' t, Run (step m) (State.initial m) h' t ∧ s.pRecoverySignal = t.pRecoverySignal ∧
          ∀ j < 255, |s.pAverageResult.value j - t.pAverageResult.value j| < 1 / 40 := by
  obtain ⟨m, hbuilt, -⟩ := exists_built .shipped (k := 8) (by decide) rfl (.empty 1000000)
  obtain ⟨hforward, -⟩ := rounded_runs_in_step (conditions_shipped hbuilt 4095)
  refine ⟨m, hbuilt, fun h s hrun hw => ?_⟩
  obtain ⟨h', t, hrun', hmatch, -⟩ := hforward h s hrun hw
  have hsame := congrArg State.pRecoverySignal hmatch.same
  refine ⟨h', t, hrun', hsame, fun j hj => ?_⟩
  exact (hmatch.near j hj).trans_lt (by norm_num [shippedError])

end HadamardIMS.Precision
