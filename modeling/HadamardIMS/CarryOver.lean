import HadamardIMS.RoundedReports

/-!
# What one round leaves to the next

Each round adds the frames that it keeps to what it finds in `pAverageResult` and divides.
Where the earlier rounds have left nothing, its report is the average of the round alone, in
any arithmetic. In exact arithmetic it is so only there, and rounding can hide no more than
its own error.
-/
namespace HadamardIMS.Precision

open Loops Buffers Hadamard Signals Significands Runs Acquisition Finset

variable {g : Globals} {m : Setup g} {s t : State g.sequenceLength}
  {h : List (State g.sequenceLength × Acquisition.Event)}

/-! ## What rounding can hide -/

namespace Conditions

variable {r : Rounding binary32} {w : ℕ} {u least range a E : ℚ}

/-- All matrices that are averaged are small. -/
theorem recoveries_le (hc : Conditions r m w u least range a E)
    (hrun : Run (step m) (State.initial m) h t) (hw : ∀ p ∈ h, SampleAtMost w p.2)
    {R : ℕ → ℚ} (hR : R ∈ recoveries h) :
    ∀ p < g.sequenceLength * g.sequenceLength, |R p| ≤ recoveredBound g w := by
  obtain ⟨p, hp, hmatrix⟩ := List.mem_filterMap.mp hR
  rw [averagedMatrix] at hmatrix
  split_ifs at hmatrix with haverages
  cases hmatrix
  obtain ⟨h', s', hsub, hrun', -⟩ := hrun.exists_of_mem hp
  exact (hc.bounded hrun' fun q hq => hw q (hsub hq)).recovery (.inr haverages.2)

/-- The rounded average of one round is near the exact one. -/
theorem ownAverage_near (hc : Conditions r m w u least range a E) {R : ℕ → ℚ}
    (hR : ∀ p < g.sequenceLength * g.sequenceLength, |R p| ≤ recoveredBound g w) (j : ℕ) :
    |ownAverage r g R j - keptFrames g R j / g.averageNumber| ≤ E := by
  have hnear := hc.stable.abs_rounded_sub_le hc.accurate (A := 0) (B := 0)
    (length_keptTerms g.discardFrameNumber g.errFrameNumber g.totalFrame g.sequenceLength R j)
    (by rw [abs_zero]; exact hc.bound_nonneg)
    (sum_abs_keptTerms_le hc.total hc.stable.peak_nonneg hR j)
    (by rw [sub_zero, abs_zero]; exact hc.error_nonneg)
  rw [zero_add, sum_keptTerms] at hnear
  rwa [ownAverage, pointAfter, hc.round_divisor]

/-- A report that agrees with the average of its own round hides at most twice the error, times
the divisor, of what the earlier rounds have left. -/
theorem carriedOver_le (hc : Conditions r m w u least range a E)
    (hrun : Run (stepRounded r m) (State.initial m) h s) (hw : ∀ p ∈ h, SampleAtMost w p.2)
    {R : ℕ → ℚ} {earlier : List (ℕ → ℚ)} (hlist : recoveries h = R :: earlier) {j : ℕ}
    (hj : j < g.sequenceLength) (hown : s.pAverageResult.cell j = .set (ownAverage r g R j)) :
    |carriedOver g earlier j| ≤ 2 * E * |(g.averageNumber : ℚ)| := by
  obtain ⟨h', t, hrun', -, hagree⟩ := hc.lockStep.run hrun hw
  have hmember : R ∈ recoveries h' := by
    rw [← recoveries_eq hagree, hlist]
    exact List.mem_cons_self
  have hreport := (hc.average_near hrun hw).2 j hj
  have hround := hc.ownAverage_near
    (hc.recoveries_le hrun' ((LockStep.guard_of_agree hagree).mp hw) hmember) j
  rw [Buffer.value, hown, Cell.value_set, hlist, carriedOver_cons, add_div] at hreport
  have hpart : |carriedOver g earlier j / g.averageNumber| ≤ 2 * E := by
    have htriangle := abs_sub_le (carriedOver g earlier j / (g.averageNumber : ℚ) +
      keptFrames g R j / g.averageNumber) (ownAverage r g R j) (keptFrames g R j / g.averageNumber)
    rw [add_sub_cancel_right, abs_sub_comm _ (ownAverage r g R j)] at htriangle
    linarith
  have havg : (0 : ℚ) < |(g.averageNumber : ℚ)| :=
    abs_pos.mpr (by exact_mod_cast g.averageNumber_ne_zero)
  rwa [abs_div, div_le_iff₀ havg] at hpart

end Conditions

/-! ## The reports -/

/-- In every run and with any rounding: the report of a round is its own average at each point
where the earlier rounds have left zero. In exact arithmetic this is needed too. In single
precision a report can agree with its own average only where the earlier rounds have left less
than rounding is off by. -/
theorem report_eq_own_average (r : Rounding binary32) (m : Setup g)
    (htotal : g.totalFrame < g.sequenceLength)
    (hrun : Run (stepRounded r m) (State.initial m) h s) (hpc : s.pc = .report) :
    ∃ R earlier, recoveries h = R :: earlier ∧
      (∀ j < g.sequenceLength,
        s.pAverageResult.cell j = .set (pointAfter r g R j (leftOver r g earlier j))) ∧
      (∀ j < g.sequenceLength, leftOver r g earlier j = 0 →
        s.pAverageResult.cell j = .set (ownAverage r g R j)) ∧
      (r = .exact binary32 → ∀ j < g.sequenceLength,
        s.pAverageResult.cell j = .set (ownAverage r g R j) → leftOver r g earlier j = 0) ∧
      ∀ w u least range a E, Conditions r m w u least range a E →
        (∀ p ∈ h, SampleAtMost w p.2) → ∀ j < g.sequenceLength,
          s.pAverageResult.cell j = .set (ownAverage r g R j) →
          |carriedOver g earlier j| ≤ 2 * E * |(g.averageNumber : ℚ)| := by
  have hI := Leaves.of_run htotal hrun
  obtain ⟨R, earlier, hlist⟩ := List.exists_cons_of_ne_nil (hI.reported hpc)
  have hvalue : ∀ j < g.sequenceLength,
      s.pAverageResult.cell j = .set (pointAfter r g R j (leftOver r g earlier j)) := by
    intro j hj
    rw [hI.value j hj, hlist, leftOver]
  refine ⟨R, earlier, hlist, hvalue, fun j hj hzero => ?_, ?_, ?_⟩
  · rw [hvalue j hj, hzero, ownAverage]
  · rintro rfl j hj hown
    have havg : (g.averageNumber : ℚ) ≠ 0 := by exact_mod_cast g.averageNumber_ne_zero
    rw [hvalue j hj, ownAverage, pointAfter_exact, pointAfter_exact, Cell.set.injEq,
      div_left_inj' havg, zero_add, add_eq_right] at hown
    exact hown
  · exact fun w u least range a E hc hw j hj hown => hc.carriedOver_le hrun hw hlist hj hown

/-- The points of a peak in frame 7 that the shipped configuration adds up: shifting that frame
by seven brings the peak to the front. -/
theorem foldl_keptTerms_peak (r : Rounding binary32) {R : ℕ → ℚ} {v a : ℕ}
    (hR : ∀ c t, c < 255 → t < 255 → R (c * 255 + t) = peak 7 7 v c t) (hsmall : a + v < 2 ^ 24) :
    (keptTerms Globals.shipped.discardFrameNumber 24 70 255 R 0).foldl r.add (a : ℚ) =
      ((a + v : ℕ) : ℚ) := by
  have hterms : keptTerms Globals.shipped.discardFrameNumber 24 70 255 R 0 =
      ((keptList Globals.shipped.discardFrameNumber 24 70).map fun i => if i = 7 then v else 0).map
        Nat.cast := by
    rw [keptTerms, List.map_map]
    refine List.map_congr_left fun i hi => ?_
    have hi := lt_of_mem_keptList hi
    rw [if_pos (by omega), Nat.add_zero, hR i i (by omega) (by omega), peak]
    simp
  have hsum : ((keptList Globals.shipped.discardFrameNumber 24 70).map
      fun i => if i = 7 then v else 0).sum = v := by
    change ∑ i ∈ keptIndices Globals.shipped.discardFrameNumber 24 70, (if i = 7 then v else 0) = v
    rw [sum_ite_eq', if_pos (by decide +kernel)]
  rw [hterms, r.foldl_add_natCast (by rwa [hsum]), hsum]

/-- Two rounds of the shipped program, rounding to the nearest: after a peak of 46 in frame 7 a
round without any signal does not report zero but the first report divided by 46. -/
theorem not_every_report_own_average :
    ¬ ∀ (g : Globals) (k : ℕ) (m : Setup g) (h : List (State g.sequenceLength × Acquisition.Event))
      (s : State g.sequenceLength) (R : ℕ → ℚ) (earlier : List (ℕ → ℚ)),
      g.totalFrame < g.sequenceLength → 1 ≤ k → g.hadamardOrder = 2 ^ k → BuiltFrom k m →
      Run (stepRounded (toNearestEven binary32) m) (State.initial m) h s → s.pc = .report →
      recoveries h = R :: earlier → ∀ j < g.sequenceLength,
        s.pAverageResult.cell j = .set (ownAverage (toNearestEven binary32) g R j) := by
  intro hall
  obtain ⟨m, h', t, R₁, R₂, hbuilt, hrun', hpc, hlist', hR₁, hR₂⟩ := exists_two_reported_rounds
  obtain ⟨h, s, hrun, hmatch, hagree⟩ := (conditions_shipped hbuilt 65535).lockStep.run_back hrun'
    fun q _ => sampleAtMost_max q.2
  have hlist : recoveries h = [R₂, R₁] := (recoveries_eq hagree).trans hlist'
  have hclaim := hall .shipped 8 m h s R₂ [R₁] (by decide) (by decide) rfl hbuilt hrun
    (hmatch.pc.trans hpc) hlist 0 (by decide)
  have hreport := (Leaves.of_run (by decide) hrun).value 0 (by decide)
  -- The first round leaves one, which the second divides by 46 once more.
  have hpoint : ∀ {R : ℕ → ℚ} {v a : ℕ},
      (∀ c t, c < 255 → t < 255 → R (c * 255 + t) = peak 7 7 v c t) → a + v < 2 ^ 24 →
      pointAfter (toNearestEven binary32) .shipped R 0 a =
        (toNearestEven binary32).div ((a + v : ℕ) : ℚ) ((toNearestEven binary32).round 46) :=
    fun hR hsmall => congrArg ((toNearestEven binary32).div · _)
      (foldl_keptTerms_peak (toNearestEven binary32) hR hsmall)
  have hfirst : leftOver (toNearestEven binary32) .shipped [R₁] 0 = ((1 : ℕ) : ℚ) :=
    (hpoint (a := 0) hR₁ (by decide)).trans (by decide +kernel)
  have hown : ownAverage (toNearestEven binary32) .shipped R₂ 0 = 0 :=
    (hpoint (a := 0) hR₂ (by decide)).trans (by decide +kernel)
  rw [hreport, hlist, leftOver, hfirst, hown, hpoint hR₂ (by decide)] at hclaim
  exact absurd hclaim (by decide +kernel)

/-- In a first round nothing has been left. -/
theorem report_eq_own_average_first_round :
    ∃ h s R, Run (stepRounded (toNearestEven binary32) setupFour) (State.initial setupFour) h s ∧
      recoveries h = [R] ∧ ∀ j < 3, s.pAverageResult.cell j =
        .set (ownAverage (toNearestEven binary32) orderFour R j) := by
  obtain ⟨h, s, hrun, hpc, hlength⟩ := exists_run_of_exec
    (stepRounded (toNearestEven binary32) setupFour) (State.initial setupFour)
    (firstRoundFour ++ .replicate 3 .main)
    (fun h s => s.pc = .report ∧ (recoveries h).length = 1) (by decide +kernel)
  obtain ⟨R, earlier, hlist, -, hown, -⟩ :=
    report_eq_own_average (toNearestEven binary32) setupFour (by decide) hrun hpc
  have hnil : earlier = [] := by
    rw [hlist, List.length_cons] at hlength
    exact List.eq_nil_of_length_eq_zero (by omega)
  subst hnil
  exact ⟨h, s, R, hrun, hlist, fun j hj => hown j hj rfl⟩

end HadamardIMS.Precision
