import HadamardIMS.Console
import HadamardIMS.SinglePrecision

/-!
# What the reports show

Between the response of the instrument and the digits that reach the host lie the decoding,
the average in single precision and the printing. The first of them is exact, and the other
two are off by an amount that does not grow from round to round.
-/
namespace HadamardIMS.Precision

open Loops Buffers Hadamard Signals Significands Runs Acquisition Console Decimals Finset

variable {g : Globals} {m : Setup g} {E : ℚ} {s s' : State g.sequenceLength}
  {h h₀ : List (State g.sequenceLength × Acquisition.Event)} {e : Acquisition.Event}

/-- The text is a column of `L` numbers, each of them within `δ` of the given one. -/
def ShowsNear (text : List Char) (L : ℕ) (y : ℕ → ℚ) (δ : ℚ) : Prop :=
  ∃ x : ℕ → ℚ, readTable text = some ((List.range L).map fun j => [x j]) ∧
    ∀ j < L, |x j - y j| ≤ δ

theorem showResultSignal_near (n : Nearest) {L : ℕ} {array : Buffer MatrixElementType L}
    (hassigned : array.Assigned) {y : ℕ → ℚ} (hnear : ∀ j < L, |array.value j - y j| ≤ E) :
    Ensures (showResultSignal n array L) fun text => ShowsNear text L y (E + 1 / 200) := by
  refine (showResultSignal_readTable n hassigned).mono fun text htext => ⟨_, htext, fun j hj => ?_⟩
  have hshown := n.abs_shown_sub_le 2 (array.value j)
  norm_num at hshown
  have htriangle := abs_sub_le (n.shown 2 (array.value j)) (array.value j) (y j)
  have hvalue := hnear j hj
  linarith

/-! ## The recovered matrices -/

theorem averagedMatrix_eq {p q : State g.sequenceLength × Acquisition.Event}
    (hagree : Agree (Matches E) p q) : averagedMatrix p = averagedMatrix q := by
  obtain ⟨s, e⟩ := p
  obtain ⟨t, e'⟩ := q
  obtain ⟨hmatch, rfl⟩ := hagree
  have hsame : s = withAverage s.pAverageResult t := hmatch.same
  rw [hsame]
  rfl

/-- Matching histories average the same matrices. -/
theorem recoveries_eq {h' : List (State g.sequenceLength × Acquisition.Event)}
    (hagree : List.Forall₂ (Agree (Matches E)) h h') : recoveries h = recoveries h' := by
  induction hagree with
  | nil => rfl
  | cons hpq _ ih =>
    rw [recoveries, recoveries] at ih ⊢
    rw [List.filterMap_cons, List.filterMap_cons, averagedMatrix_eq hpq, ih]

theorem accumulated_value (hI : Accumulated h s) {j : ℕ} (hj : j < g.sequenceLength) :
    s.pAverageResult.value j = carriedOver g (recoveries h) j := by
  rw [Buffer.value, hI.value j hj, Cell.value_set]

/-- The kept frames of a response, each moved to the front by its number and added up. -/
def alignedSum (g : Globals) (X : ℕ → ℕ → ℕ) (j : ℕ) : ℚ :=
  ∑ i ∈ keptIndices g.discardFrameNumber g.errFrameNumber g.totalFrame,
    if i + j < g.sequenceLength then (X i (i + j) : ℚ) else 0

theorem keptFrames_response {X : ℕ → ℕ → ℕ} {R : ℕ → ℚ}
    (hR : ∀ c t, c < g.sequenceLength → t < g.sequenceLength →
      R (c * g.sequenceLength + t) = (g.hadamardOrder : ℚ) / 256 * X c t) (j : ℕ) :
    keptFrames g R j = (g.hadamardOrder : ℚ) / 256 * alignedSum g X j := by
  rw [keptFrames, keptSum_eq, alignedSum, mul_sum]
  refine sum_congr rfl fun i _ => ?_
  split_ifs with hij
  · rw [Nat.add_assoc]
    exact hR i (i + j) (by omega) hij
  · rw [mul_zero]

/-- A step before the report of a round: no key while frames are collected, and the instrument
responds with `X`. -/
structure Unreported (m : Setup g) (X : ℕ → ℕ → ℕ) (s : State g.sequenceLength)
    (e : Acquisition.Event) : Prop where
  key : NoKey s e
  response : Responds m X s e
  place : s.pc ≠ .report

/-- The average has no part in it. -/
theorem unreported_congr {X : ℕ → ℕ → ℕ} {p q : State g.sequenceLength × Acquisition.Event}
    (hagree : Agree (Matches E) p q) : Unreported m X p.1 p.2 ↔ Unreported m X q.1 q.2 := by
  obtain ⟨s, e⟩ := p
  obtain ⟨t, e'⟩ := q
  obtain ⟨hmatch, rfl⟩ := hagree
  have hsame : s = withAverage s.pAverageResult t := hmatch.same
  constructor
  · intro h
    rw [hsame] at h
    exact ⟨h.key, h.response, h.place⟩
  · intro h
    rw [hsame]
    exact ⟨h.key, h.response, h.place⟩

theorem unreported_of_agree {X : ℕ → ℕ → ℕ}
    {h' : List (State g.sequenceLength × Acquisition.Event)}
    (hagree : List.Forall₂ (Agree (Matches E)) h h') :
    (∀ p ∈ h, Unreported m X p.1 p.2) ↔ ∀ q ∈ h', Unreported m X q.1 q.2 :=
  LockStep.forall_of_agree (fun _ _ => unreported_congr) hagree

/-- Nor has it in the place at which a round begins. -/
theorem roundStart_congr {t : State g.sequenceLength} (hmatch : Matches E s t) :
    RoundStart s ↔ RoundStart t := by
  rw [hmatch.same]
  exact ⟨fun h => ⟨h.pc, h.flag, h.frameCount, h.idle⟩,
    fun h => ⟨h.pc, h.flag, h.frameCount, h.idle⟩⟩

theorem Matches.pc {t : State g.sequenceLength} (hmatch : Matches E s t) : s.pc = t.pc := by
  rw [hmatch.same]
  rfl

/-- A round with history `h` that has not reported yet, or is about to: the one matrix that it
averages is the response. -/
structure Reporting (m : Setup g) (X : ℕ → ℕ → ℕ)
    (h₀ h : List (State g.sequenceLength × Acquisition.Event)) (s : State g.sequenceLength) :
    Prop where
  recovering : Recovering m X h₀ h s
  earlier : s.pc ≠ .report → recoveries h = []
  averaged : s.pc = .report → ∃ R, recoveries h = [R] ∧
    ∀ c t, c < g.sequenceLength → t < g.sequenceLength →
      R (c * g.sequenceLength + t) = (g.hadamardOrder : ℚ) / 256 * X c t

namespace Reporting

variable {X : ℕ → ℕ → ℕ}

/-- The step lemma: the round averages on the step to its report and on no other. -/
theorem step (hm : Decodes m) (hI : Reporting m X h₀ h s) (hs : StepCase m s e s')
    (he : Unreported m X s e) : Reporting m X h₀ ((s, e) :: h) s' := by
  have hrecovering := hI.recovering.step hm hs he.key he.response
  have hnone := hI.earlier he.place
  rcases hs.main_or_interrupt with ⟨rfl, hmain⟩ | hne
  · cases hmain
    case average haverage _ =>
      refine ⟨hrecovering, fun hne => absurd rfl hne, fun _ => ?_⟩
      refine ⟨s.pRecoverySignal.value, by rw [recoveries_cons haverage, hnone],
        fun c t hc ht => ?_⟩
      rw [Buffer.value, hI.recovering.recovered haverage c t hc ht, Cell.value_set]
    case report hreport => exact absurd hreport he.place
    all_goals
      refine ⟨hrecovering, fun _ => ?_, by simp⟩
      rw [recoveries_cons_of_ne (by simp [*]), hnone]
  · refine ⟨hrecovering, fun _ => ?_, fun hreport => ?_⟩
    · rw [recoveries_cons_of_ne fun hmain => hne hmain.1, hnone]
    · rw [(hs.undisturbed hne).pc] at hreport
      exact absurd hreport he.place

/-- The run lemma. -/
theorem of_run (hm : Decodes m) (hbook : Bookkept h₀ s) (hs : RoundStart s)
    (hrun : Run (Acquisition.step m) s h s')
    (hround : ∀ p ∈ h, Unreported m X p.1 p.2) : Reporting m X h₀ h s' := by
  refine Run.invariant_of_guarded (Reporting m X h₀) (Unreported m X) ?_
    (fun h s e s' _ hI he hs => hI.step hm (step_cases hs) he) hrun hround
  exact ⟨.start hbook hs, fun _ => rfl, fun hreport => by simp [hs.pc] at hreport⟩

end Reporting

/-! ## The machine in single precision -/

namespace Conditions

variable {r : Rounding binary32} {w : ℕ} {u least range a : ℚ}

/-- In every run the average is that of the recovered matrices, up to the error. -/
theorem average_near (hc : Conditions r m w u least range a E)
    (hrun : Run (stepRounded r m) (State.initial m) h s) (hw : ∀ p ∈ h, SampleAtMost w p.2) :
    s.pAverageResult.Assigned ∧ ∀ j < g.sequenceLength,
      |s.pAverageResult.value j - carriedOver g (recoveries h) j| ≤ E := by
  obtain ⟨h', t, hrun', hmatch, hagree⟩ := hc.lockStep.run hrun hw
  refine ⟨hmatch.assigned, fun j hj => ?_⟩
  have hnear := hmatch.near j hj
  rwa [accumulated_value (.of_run hc.total hrun') hj, ← recoveries_eq hagree] at hnear

/-- From the response to the average: what a round adds is the sum of the kept frames. -/
theorem response_near (hc : Conditions r m w u least range a E) {k : ℕ} (hk : 1 ≤ k)
    (hn : g.hadamardOrder = 2 ^ k) (hbuilt : BuiltFrom k m) (X : ℕ → ℕ → ℕ)
    (hearlier : Run (stepRounded r m) (State.initial m) h₀ s) (hstart : RoundStart s)
    (hround : Run (stepRounded r m) s h s') (hreport : s'.pc = .report)
    (hunreported : ∀ p ∈ h, Unreported m X p.1 p.2)
    (hw₀ : ∀ p ∈ h₀, SampleAtMost w p.2) (hw : ∀ p ∈ h, SampleAtMost w p.2) :
    s'.pAverageResult.Assigned ∧ ∀ j < g.sequenceLength, |s'.pAverageResult.value j -
      (carriedOver g (recoveries h₀) j + (g.hadamardOrder : ℚ) / 256 * alignedSum g X j) /
        g.averageNumber| ≤ E := by
  obtain ⟨h₀', t, hearlier', hmatch, hagree₀⟩ := hc.lockStep.run hearlier hw₀
  have hw₀' := (LockStep.guard_of_agree hagree₀).mp hw₀
  obtain ⟨h', t', hround', hmatch', hagree⟩ :=
    (hc.lockStep_from hearlier' hw₀' hmatch).run hround hw
  have hunreported' := (unreported_of_agree hagree).mp hunreported
  have hI := Reporting.of_run (hbuilt.decodes hk hn) (Bookkept.of_run hearlier')
    ((roundStart_congr hmatch).mp hstart) hround' hunreported'
  obtain ⟨R, hlist, hR⟩ := hI.averaged (hmatch'.pc ▸ hreport)
  refine ⟨hmatch'.assigned, fun j hj => ?_⟩
  have hnear := hmatch'.near j hj
  rwa [accumulated_value (.of_run hc.total (hearlier'.trans hround')) hj, recoveries_append,
    hlist, List.singleton_append, carriedOver_cons, keptFrames_response hR,
    ← recoveries_eq hagree₀] at hnear

end Conditions

/-! ## The shipped program -/

/-- A round of a single peak up to its report. -/
theorem exists_exact_round {k : ℕ} (hk : 1 ≤ k) (hn : g.hadamardOrder = 2 ^ k)
    (hbuilt : BuiltFrom k m) (htotal : g.totalFrame < g.sequenceLength) {a b v : ℕ}
    (ha : a < g.sequenceLength) (hv : v < 65536) (hrun : Run (step m) (State.initial m) h₀ s)
    (hs : RoundStart s)
    (hmalloc : s.heap.malloc (4 * (g.sequenceLength * g.sequenceLength)) ≠ none) :
    ∃ h s', Run (step m) s h s' ∧ s'.pc = .report ∧
      ∀ p ∈ h, Unreported m (peak a b v) p.1 p.2 := by
  obtain ⟨h, t, hround, ht, hall⟩ := exists_responding_round (b := b) (hbuilt.decodes hk hn) ha hv
    hrun hs
  obtain ⟨t₁, t₂, t₃, hrecovered, haverage, hpc₁, hpc₂, hpc₃, -⟩ :=
    process_steps (hrun.trans hround) ht (ht.heap ▸ hmalloc) htotal
  refine ⟨_, t₃, (hround.trans hrecovered).next haverage, hpc₃, ?_⟩
  refine List.forall_mem_cons.mpr ⟨⟨fun _ => Event.noConfusion, trivial, by simp [hpc₂]⟩, ?_⟩
  refine List.forall_mem_append.mpr ⟨List.forall_mem_cons.mpr ⟨?_, ?_⟩, fun p hp => ?_⟩
  · exact ⟨fun _ => Event.noConfusion, trivial, by simp [hpc₁]⟩
  · exact List.forall_mem_singleton.mpr ⟨fun _ => Event.noConfusion, trivial, by simp [ht.pc]⟩
  · obtain ⟨hkey, hresponse, hplace⟩ := hall p hp
    exact ⟨fun _ => hkey, hresponse, hplace.2.2⟩

/-- Any sample fits in sixteen bits. -/
theorem sampleAtMost_max (e : Acquisition.Event) : SampleAtMost 65535 e := by
  rcases e with _ | _ | v | v
  · trivial
  · trivial
  · exact Nat.le_of_lt_succ v.toNat_lt
  · exact Nat.le_of_lt_succ v.toNat_lt

/-- The shipped program in single precision has such a round. -/
theorem exists_rounded_round {a b v : ℕ} (ha : a < 255) (hv : v < 65536) :
    ∃ (m : Setup .shipped) (h₀ h : List (State Globals.shipped.sequenceLength × Acquisition.Event))
      (s s' : State Globals.shipped.sequenceLength), BuiltFrom 8 m ∧
      Run (stepRounded (toNearestEven binary32) m) (State.initial m) h₀ s ∧ RoundStart s ∧
      Run (stepRounded (toNearestEven binary32) m) s h s' ∧ s'.pc = .report ∧
      (∀ p ∈ h, Unreported m (peak a b v) p.1 p.2) ∧ recoveries h₀ = [] := by
  obtain ⟨m, hbuilt, hheap⟩ := exists_built .shipped (k := 8) (by decide) rfl (.empty 1000000)
  obtain ⟨t, ⟨h₀', hfirst, hunprocessed⟩, hstart, hsame⟩ := first_round_leads m
  obtain ⟨h', t', hround, hpc, hunreported⟩ := exists_exact_round (b := b) (by decide) rfl hbuilt
    (by decide) ha hv hfirst hstart (by rw [hsame, hheap]; decide)
  have hc := conditions_shipped hbuilt 65535
  obtain ⟨h₀, s, hearlier, hmatch, hagree₀⟩ :=
    hc.lockStep.run_back hfirst fun q _ => sampleAtMost_max q.2
  obtain ⟨h, s', hrounded, hmatch', hagree⟩ := (hc.lockStep_from hfirst
    (fun q _ => sampleAtMost_max q.2) hmatch).run_back hround fun q _ => sampleAtMost_max q.2
  refine ⟨m, h₀, h, s, s', hbuilt, hearlier, (roundStart_congr hmatch).mpr hstart, hrounded,
    hmatch'.pc.trans hpc, ?_, ?_⟩
  · exact (unreported_of_agree hagree).mpr hunreported
  · rw [recoveries_eq hagree₀, recoveries_of_unprocessed hunprocessed]

/-- In every run of the shipped program in single precision, with whatever presses of the key and
in however many rounds, the average that would be printed now reads as the exact average of the
matrices recovered so far, to within one part in 170000 of the largest sample and half a
hundredth. With twelve bits this is less than 3/100. -/
theorem report_shown_near {m : Setup .shipped} (hbuilt : BuiltFrom 8 m) (n : Nearest) {w : ℕ}
    {h : List (State Globals.shipped.sequenceLength × Acquisition.Event)}
    {s : State Globals.shipped.sequenceLength}
    (hrun : Run (stepRounded (toNearestEven binary32) m) (State.initial m) h s)
    (hw : ∀ p ∈ h, SampleAtMost w p.2) :
    Ensures (showResultSignal n s.pAverageResult 255) fun text =>
      ShowsNear text 255 (carriedOver .shipped (recoveries h)) ((w + 1) / 170000 + 1 / 200) := by
  obtain ⟨hassigned, hnear⟩ := (conditions_shipped hbuilt w).average_near hrun hw
  exact showResultSignal_near n hassigned hnear

/-- The report of a first round, whatever its samples. -/
theorem report_shown_near_first_round :
    ∃ (m : Setup .shipped) (h : List (State Globals.shipped.sequenceLength × Acquisition.Event))
      (s : State Globals.shipped.sequenceLength),
      Run (stepRounded (toNearestEven binary32) m) (State.initial m) h s ∧ s.pc = .report ∧
      Ensures (showResultSignal .halfUp s.pAverageResult 255) fun text =>
        ShowsNear text 255 (carriedOver .shipped (recoveries h)) (1 / 2) := by
  obtain ⟨m, h₀, h, s, s', hbuilt, hearlier, -, hround, hpc, -, -⟩ :=
    exists_rounded_round (a := 7) (b := 7) (v := 46) (by decide) (by decide)
  refine ⟨m, h ++ h₀, s', hearlier.trans hround, hpc, ?_⟩
  refine (report_shown_near hbuilt .halfUp (hearlier.trans hround)
    fun p _ => sampleAtMost_max p.2).mono ?_
  rintro text ⟨x, htext, hx⟩
  exact ⟨x, htext, fun j hj => (hx j hj).trans (by norm_num)⟩

/-- From the instrument to the digits: a round of the shipped program that begins with no frame
on its way, after any earlier ones, and in which the instrument responds with `X` to each row
prints, up to the same error, the sum of the kept frames of `X` and of what the earlier rounds
have left, divided by their number. -/
theorem response_shown_near {m : Setup .shipped} (hbuilt : BuiltFrom 8 m) (n : Nearest)
    (X : ℕ → ℕ → ℕ) {w : ℕ}
    {h₀ h : List (State Globals.shipped.sequenceLength × Acquisition.Event)}
    {s s' : State Globals.shipped.sequenceLength}
    (hearlier : Run (stepRounded (toNearestEven binary32) m) (State.initial m) h₀ s)
    (hstart : RoundStart s)
    (hround : Run (stepRounded (toNearestEven binary32) m) s h s') (hreport : s'.pc = .report)
    (hunreported : ∀ p ∈ h, Unreported m X p.1 p.2)
    (hw₀ : ∀ p ∈ h₀, SampleAtMost w p.2) (hw : ∀ p ∈ h, SampleAtMost w p.2) :
    Ensures (showResultSignal n s'.pAverageResult 255) fun text =>
      ShowsNear text 255
        (fun j => (carriedOver .shipped (recoveries h₀) j + alignedSum .shipped X j) / 46)
        ((w + 1) / 170000 + 1 / 200) := by
  obtain ⟨hassigned, hnear⟩ := (conditions_shipped hbuilt w).response_near (by decide) rfl hbuilt X
    hearlier hstart hround hreport hunreported hw₀ hw
  refine showResultSignal_near n hassigned fun j hj => ?_
  have hpoint := hnear j hj
  have hscale : (Globals.shipped.hadamardOrder : ℚ) / 256 = 1 := by norm_num [Globals.shipped]
  rwa [hscale, one_mul, show Globals.shipped.averageNumber = 46 from rfl] at hpoint

/-- A peak of 46 in frame 7 is printed as a number near 1. -/
theorem response_shown_near_peak :
    ∃ (m : Setup .shipped) (h : List (State Globals.shipped.sequenceLength × Acquisition.Event))
      (s : State Globals.shipped.sequenceLength) (text : List Char) (x : ℕ → ℚ),
      Run (stepRounded (toNearestEven binary32) m) (State.initial m) h s ∧ s.pc = .report ∧
      showResultSignal .halfUp s.pAverageResult 255 = .ok text ∧
      readTable text = some ((List.range 255).map fun j => [x j]) ∧ |x 0 - 1| ≤ 1 / 2 := by
  obtain ⟨m, h₀, h, s, s', hbuilt, hearlier, hstart, hround, hpc, hunreported, hnone⟩ :=
    exists_rounded_round (a := 7) (b := 7) (v := 46) (by decide) (by decide)
  obtain ⟨text, hshow, x, htext, hx⟩ := response_shown_near hbuilt .halfUp (peak 7 7 46) hearlier
    hstart hround hpc hunreported (fun p _ => sampleAtMost_max p.2) fun p _ => sampleAtMost_max p.2
  have hsum : alignedSum .shipped (peak 7 7 46) 0 = 46 := by decide +kernel
  have hfirst := hx 0 (by decide)
  beta_reduce at hfirst
  rw [hnone, hsum] at hfirst
  refine ⟨m, h ++ h₀, s', text, x, hearlier.trans hround, hpc, hshow, htext, ?_⟩
  norm_num [carriedOver] at hfirst
  linarith

end HadamardIMS.Precision
