import HadamardIMS.HeapUse
import HadamardIMS.Recovery
import HadamardIMS.RoundedMachine

/-!
# What the reports of successive rounds contain

`pAverageResult` is cleared once, before the loop, and `getAverageSignal` adds to
what it finds there. A report is therefore the average of its own round and of what
the earlier rounds have left, with any rounding. In exact arithmetic that is divided
once more by the number of frames for each round in between.
-/
namespace HadamardIMS.Acquisition

open Loops Buffers Runs Hadamard Signals Significands Precision Finset

variable {f : Format} {g : Globals} {m : Setup g}

/-- The recovered matrix with which a step calls `getAverageSignal`, if it does. -/
def averagedMatrix {L : ℕ} (p : State L × Event) : Option (ℕ → ℚ) :=
  if p.2 = .main ∧ p.1.pc = .average then some p.1.pRecoverySignal.value else none

/-- The recovered matrices of a run, the latest first. -/
def recoveries {L : ℕ} (h : List (State L × Event)) : List (ℕ → ℚ) := h.filterMap averagedMatrix

/-- The sum over the kept frames of a recovered matrix. -/
def keptFrames (g : Globals) (R : ℕ → ℚ) (j : ℕ) : ℚ :=
  keptSum g.discardFrameNumber g.errFrameNumber g.totalFrame g.sequenceLength R j

/-- What a series of recovered matrices, the latest first, amounts to in the
accumulator: each one is divided by the number of frames once for every round since. -/
def carriedOver (g : Globals) (l : List (ℕ → ℚ)) (j : ℕ) : ℚ :=
  ∑ q ∈ range l.length, keptFrames g (l.getD q 0) j / (g.averageNumber : ℚ) ^ (q + 1)

theorem carriedOver_cons (R : ℕ → ℚ) (l : List (ℕ → ℚ)) (j : ℕ) :
    carriedOver g (R :: l) j = (carriedOver g l j + keptFrames g R j) / g.averageNumber := by
  have havg : (g.averageNumber : ℚ) ≠ 0 := by exact_mod_cast g.averageNumber_ne_zero
  rw [carriedOver, List.length_cons, sum_range_succ', add_div, carriedOver, sum_div]
  congr 1
  · refine sum_congr rfl fun q _ => ?_
    rw [List.getD_cons_succ, pow_succ _ (q + 1), div_mul_eq_div_div]
  · rw [List.getD_cons_zero, zero_add, pow_one]

theorem recoveries_cons_of_ne {L : ℕ} {s : State L} {e : Event} {h : List (State L × Event)}
    (hne : ¬(e = .main ∧ s.pc = .average)) : recoveries ((s, e) :: h) = recoveries h :=
  List.filterMap_cons_none (if_neg hne)

theorem recoveries_cons {L : ℕ} {s : State L} {h : List (State L × Event)}
    (hpc : s.pc = .average) :
    recoveries ((s, .main) :: h) = s.pRecoverySignal.value :: recoveries h :=
  List.filterMap_cons_some (if_pos ⟨rfl, hpc⟩)

theorem recoveries_append {L : ℕ} (h h' : List (State L × Event)) :
    recoveries (h ++ h') = recoveries h ++ recoveries h' := List.filterMap_append

/-- A part of a run in which no round is processed. -/
theorem recoveries_of_unprocessed {L : ℕ} {h : List (State L × Event)}
    (hall : ∀ p ∈ h, Unprocessed p.1 p.2) : recoveries h = [] :=
  List.filterMap_eq_nil_iff.mpr fun p hp => if_neg fun hpc => (hall p hp).2.1 hpc.2

/-! ## The accumulator -/

/-- A point of the average after a round with the recovered matrix `R`, from what it was. -/
def pointAfter (r : Rounding f) (g : Globals) (R : ℕ → ℚ) (j : ℕ) (a : ℚ) : ℚ :=
  r.div ((keptTerms g.discardFrameNumber g.errFrameNumber g.totalFrame g.sequenceLength R j).foldl
    r.add a) (r.round g.averageNumber)

/-- The average over the kept frames of one round alone. -/
def ownAverage (r : Rounding f) (g : Globals) (R : ℕ → ℚ) (j : ℕ) : ℚ := pointAfter r g R j 0

/-- What rounds with these recovered matrices, the latest first, leave at a point. -/
def leftOver (r : Rounding f) (g : Globals) : List (ℕ → ℚ) → ℕ → ℚ
  | [], _ => 0
  | R :: earlier, j => pointAfter r g R j (leftOver r g earlier j)

theorem pointAfter_exact (R : ℕ → ℚ) (j : ℕ) (a : ℚ) :
    pointAfter (.exact f) g R j a = (a + keptFrames g R j) / g.averageNumber := by
  rw [pointAfter, Rounding.exact_foldl_add, sum_keptTerms]
  rfl

theorem leftOver_exact (l : List (ℕ → ℚ)) (j : ℕ) :
    leftOver (.exact f) g l j = carriedOver g l j := by
  induction l with
  | nil => rfl
  | cons R l ih => rw [leftOver, ih, pointAfter_exact, carriedOver_cons]

/-- Only `getAverageSignal` changes the average, and only it leads to a report. -/
theorem average_of_step {s s' : State g.sequenceLength} {e : Event}
    (he : ¬(e = .main ∧ s.pc = .average)) (hs : StepCase m s e s') :
    s'.pAverageResult = s.pAverageResult ∧ (s'.pc = .report → s.pc = .report) := by
  rcases hs.main_or_interrupt with ⟨rfl, hmain⟩ | hne
  · cases hmain
    case average hpc _ => exact absurd ⟨rfl, hpc⟩ he
    all_goals exact ⟨rfl, by simp⟩
  · have hsame := hs.undisturbed hne
    exact ⟨hsame.average, fun hpc => hsame.pc ▸ hpc⟩

/-- The invariant of the accumulator, with any rounding. -/
structure Leaves (r : Rounding f) (h : List (State g.sequenceLength × Event))
    (s : State g.sequenceLength) : Prop where
  value : ∀ j < g.sequenceLength, s.pAverageResult.cell j = .set (leftOver r g (recoveries h) j)
  reported : s.pc = .report → recoveries h ≠ []

namespace Leaves

variable {r : Rounding f} {h : List (State g.sequenceLength × Event)}
  {s s' t : State g.sequenceLength} {e : Event}

/-- The step lemma: only `getAverageSignal` writes the accumulator. -/
theorem step (htotal : g.totalFrame < g.sequenceLength) (halike : Alike s t)
    (hI : Leaves r h s) (hs : RoundedCase r m s e s') : Leaves r ((s, e) :: h) s' := by
  cases hs
  case calculate hpc _ _ =>
    refine ⟨?_, by simp⟩
    rw [recoveries_cons_of_ne (by simp [hpc])]
    exact hI.value
  case average hpc haverage =>
    have hstores := ((getAverageSignalRounded_ensures r g.averageNumber g.errFrameNumber_le htotal
      (halike.recovery (.inr hpc)) halike.average).of_eq_ok haverage).2
    refine ⟨fun j hj => ?_, fun _ => by rw [recoveries_cons hpc]; exact List.cons_ne_nil _ _⟩
    have hold : s.pAverageResult.value j = leftOver r g (recoveries h) j := by
      rw [Buffer.value, hI.value j hj, Cell.value_set]
    rw [recoveries_cons hpc, leftOver, ← hold]
    exact hstores j hj
  case other hne hs =>
    have hquiet : ¬(e = .main ∧ s.pc = .average) := fun h => hne ⟨h.1, .inr h.2⟩
    obtain ⟨hsame, hreport⟩ := average_of_step hquiet hs
    refine ⟨?_, fun hpc => ?_⟩
    · rw [recoveries_cons_of_ne hquiet, hsame]
      exact hI.value
    · rw [recoveries_cons_of_ne hquiet]
      exact hI.reported (hreport hpc)

/-- The run lemma. -/
theorem of_run (htotal : g.totalFrame < g.sequenceLength)
    (hrun : Run (stepRounded r m) (State.initial m) h s) : Leaves r h s := by
  refine Run.invariant (Leaves r) ⟨fun _ _ => rfl, by simp [State.initial]⟩ ?_ hrun
  intro h s e s' hrun hI hs
  obtain ⟨-, t, -, halike, -⟩ := (Alike.lockStep r m htotal).run hrun fun _ _ => trivial
  exact hI.step htotal halike (stepRounded_cases hs)

end Leaves

/-- Without rounding the machine in single precision is the exact one. -/
theorem stepRounded_exact (f : Format) (m : Setup g) : stepRounded (.exact f) m = step m := by
  funext s e
  cases e with
  | main =>
    rw [stepRounded, step, mainStepRounded, mainStep]
    cases s.pc <;> rfl
  | key => rfl
  | sample v => rfl
  | complete v => rfl

/-- The invariant of the accumulator in exact arithmetic. -/
structure Accumulated (h : List (State g.sequenceLength × Event)) (s : State g.sequenceLength) :
    Prop where
  book : Bookkept h s
  value : ∀ j < g.sequenceLength, s.pAverageResult.cell j = .set (carriedOver g (recoveries h) j)
  reported : s.pc = .report → recoveries h ≠ []

theorem Accumulated.of_run (htotal : g.totalFrame < g.sequenceLength)
    {h : List (State g.sequenceLength × Event)} {s : State g.sequenceLength}
    (hrun : Run (step m) (State.initial m) h s) : Accumulated h s := by
  have hrounded : Run (stepRounded (.exact binary32) m) (State.initial m) h s := by
    rwa [stepRounded_exact]
  have hI := Leaves.of_run htotal hrounded
  refine ⟨Bookkept.of_run hrun, fun j hj => ?_, hI.reported⟩
  rw [← leftOver_exact (f := binary32)]
  exact hI.value j hj

/-! ## Rounds with a single peak -/

/-- With memory left, the round of a single peak can be run up to its report; the
matrix that is averaged is then the peak. -/
theorem exists_reported_round {k : ℕ} (hk : 1 ≤ k) (hn : g.hadamardOrder = 2 ^ k)
    (hbuilt : BuiltFrom k m) (htotal : g.totalFrame < g.sequenceLength) {a b v : ℕ}
    (ha : a < g.sequenceLength) (hv : v < 65536) {h₀ : List (State g.sequenceLength × Event)}
    {s : State g.sequenceLength} (hrun : Run (step m) (State.initial m) h₀ s) (hs : RoundStart s)
    (hroom : s.heap.used + 4 * (g.sequenceLength * g.sequenceLength) ≤ s.heap.capacity) :
    ∃ h s' R, Run (step m) s h s' ∧ s'.pc = .report ∧ s'.stream.en = false ∧
      calculations h = 1 ∧ recoveries h = [R] ∧
      ∀ c t, c < g.sequenceLength → t < g.sequenceLength →
        R (c * g.sequenceLength + t) = (g.hadamardOrder : ℚ) / 256 * peak a b v c t := by
  have hm := hbuilt.decodes hk hn
  obtain ⟨h, u, hround, hu, hall⟩ := exists_responding_round (b := b) hm ha hv hrun hs
  have hmalloc : u.heap.malloc (4 * (g.sequenceLength * g.sequenceLength)) ≠ none := by
    rw [hu.heap, ne_eq, Heaps.Heap.malloc_eq_none_iff]
    omega
  obtain ⟨t₁, t₂, t₃, hrecovered, haverage, hpc₁, hpc₂, hpc₃, hidle⟩ :=
    process_steps (hrun.trans hround) hu hmalloc htotal
  have hI := Recovering.of_run hm (Bookkept.of_run hrun) hs (hround.trans hrecovered)
    (responds_of_processed hall t₁ u)
  have hnone : recoveries h = [] := recoveries_of_unprocessed fun p hp => (hall p hp).2.2
  have hfew : calculations h = 0 := by
    refine List.countP_eq_zero.mpr fun p hp hprocess => ?_
    exact (hall p hp).2.2.1 (of_decide_eq_true hprocess).2
  refine ⟨(t₂, .main) :: ([(t₁, .main), (u, .main)] ++ h), t₃, t₂.pRecoverySignal.value,
    (hround.trans hrecovered).next haverage, hpc₃, hidle, ?_, ?_, fun c t hc ht => ?_⟩
  · simp [calculations_cons, IsProcess, hpc₁, hpc₂, hu.pc, hfew]
  · rw [recoveries_cons hpc₂, List.cons_append, List.cons_append, List.nil_append,
      recoveries_cons_of_ne (by simp [hpc₁]), recoveries_cons_of_ne (by simp [hu.pc]), hnone]
  · rw [Buffer.value, hI.recovered hpc₂ c t hc ht, Cell.value_set]

/-- Two rounds of the shipped program up to the second report: a peak of 46 in frame 7, and
then no signal at all. -/
theorem exists_two_reported_rounds :
    ∃ (m : Setup .shipped) (h : List (State Globals.shipped.sequenceLength × Event))
      (s : State Globals.shipped.sequenceLength) (R₁ R₂ : ℕ → ℚ), BuiltFrom 8 m ∧
      Run (step m) (State.initial m) h s ∧ s.pc = .report ∧ recoveries h = [R₂, R₁] ∧
      (∀ c t, c < 255 → t < 255 → R₁ (c * 255 + t) = peak 7 7 46 c t) ∧
      ∀ c t, c < 255 → t < 255 → R₂ (c * 255 + t) = peak 7 7 0 c t := by
  obtain ⟨m, hbuilt, hheap⟩ := exists_built .shipped (k := 8) (by decide) rfl (.empty 1000000)
  obtain ⟨s₁, ⟨h₁, hfirst, hnone⟩, hstart₁, hsame⟩ := first_round_leads m
  rw [hheap] at hsame
  have hscale : (Globals.shipped.hadamardOrder : ℚ) / 256 = 1 := by norm_num [Globals.shipped]
  -- The first round, with the peak.
  obtain ⟨h₂, s₂, R₁, hround₂, hpc₂, hidle₂, hone, hlist₂, hR₁⟩ := exists_reported_round (b := 7)
    (by decide) rfl hbuilt (by decide) (a := 7) (v := 46) (by decide) (by decide) hfirst hstart₁
    (by rw [hsame]; decide)
  obtain ⟨hrestart, hstart₃⟩ := restart_run (m := m) hpc₂ hidle₂
  have hearlier := hfirst.trans (hround₂.trans hrestart)
  obtain ⟨hused, hcapacity⟩ := used_run hround₂
  rw [hone, hsame] at hused
  rw [hsame] at hcapacity
  -- The second one, without any signal.
  obtain ⟨h₄, s₄, R₂, hround₄, hpc₄, -, -, hlist₄, hR₂⟩ := exists_reported_round (b := 7)
    (by decide) rfl hbuilt (by decide) (a := 7) (v := 0) (by decide) (by decide) hearlier hstart₃
    (by dsimp only; rw [hused, hcapacity]; decide)
  refine ⟨m, _, s₄, R₁, R₂, hbuilt, hearlier.trans hround₄, hpc₄, ?_, fun c t hc ht => ?_,
    fun c t hc ht => ?_⟩
  · simp only [recoveries_append, hlist₄, hlist₂, recoveries_of_unprocessed hnone]
    simp [recoveries, averagedMatrix, hpc₂]
  · rw [← one_mul (peak 7 7 46 c t : ℚ), ← hscale]
    exact hR₁ c t hc ht
  · rw [← one_mul (peak 7 7 0 c t : ℚ), ← hscale]
    exact hR₂ c t hc ht

end HadamardIMS.Acquisition
