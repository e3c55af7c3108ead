import HadamardIMS.MatrixProducts

/-!
# The acquisition loop in single precision

The machine of the acquisition computes with rational numbers. Here it is taken again with
each operation of `calculate` and of `getAverageSignal` rounded. Whatever the rounding, the two
machines go through the same places with the same frames, rows, flags and heap; only the
recovered matrix and the average can differ.
-/
namespace HadamardIMS.Precision

open Loops Buffers Hadamard Signals Significands Runs Acquisition Heaps MatrixFunctions

variable {f : Format} {g : Globals} {m : Setup g} {s s' t : State g.sequenceLength}
  {e : Acquisition.Event}

/-! ## The machine -/

/-- `callCalculate` in single precision. -/
def callCalculateRounded (r : Rounding f) (m : Setup g) (s : State g.sequenceLength) :
    Except Fault (State g.sequenceLength) := do
  let size := 4 * (g.sequenceLength * g.sequenceLength)
  let (res, heap) := match s.heap.malloc size with
    | some (b, heap) => (some (Buffer.malloc _ (m.memory (b + 2))), heap)
    | none => (none, s.heap)
  match ← calculateRounded r g.sequenceLength s.pOverlapSignal m.pPrbsTemp res with
  | some pRecoverySignal => .ok { s with pc := .transposeRecovery, pRecoverySignal, heap }
  | none => .error .nullPointer

/-- One step of `main`; only two of its steps compute with floating-point numbers. -/
def mainStepRounded (r : Rounding f) (m : Setup g) (s : State g.sequenceLength) :
    Except Fault (State g.sequenceLength) :=
  match s.pc with
  | .calculate => callCalculateRounded r m s
  | .average => do
    let (pRecoverySignal, pAverageResult) ← getAverageSignalRounded r g.discardFrameNumber
      g.errFrameNumber s.pRecoverySignal s.pAverageResult g.averageNumber g.totalFrame
    .ok { s with pc := .report, pRecoverySignal, pAverageResult }
  | _ => mainStep m s

/-- The whole system in single precision. -/
def stepRounded (r : Rounding f) (m : Setup g) (s : State g.sequenceLength) :
    Acquisition.Event → Option (State g.sequenceLength)
  | .main => (mainStepRounded r m s).toOption
  | e => step m s e

/-! ## What a step can do -/

/-- A step of the machine in single precision: the product, the average, or a step that the
exact machine takes too. -/
inductive RoundedCase (r : Rounding f) (m : Setup g) (s : State g.sequenceLength) :
    Acquisition.Event → State g.sequenceLength → Prop
  | calculate {b : ℕ} {heap : Heap}
      {pRecoverySignal : Buffer MatrixElementType (g.sequenceLength * g.sequenceLength)}
      (hpc : s.pc = .calculate)
      (hmalloc : s.heap.malloc (4 * (g.sequenceLength * g.sequenceLength)) = some (b, heap))
      (hcalculate : calculateRounded r g.sequenceLength s.pOverlapSignal m.pPrbsTemp
        (some (.malloc _ (m.memory (b + 2)))) = .ok (some pRecoverySignal)) :
      RoundedCase r m s .main { s with pc := .transposeRecovery, pRecoverySignal, heap }
  | average {pRecoverySignal : Buffer MatrixElementType (g.sequenceLength * g.sequenceLength)}
      {pAverageResult : Buffer MatrixElementType g.sequenceLength} (hpc : s.pc = .average)
      (haverage : getAverageSignalRounded r g.discardFrameNumber g.errFrameNumber
        s.pRecoverySignal s.pAverageResult g.averageNumber g.totalFrame =
          .ok (pRecoverySignal, pAverageResult)) :
      RoundedCase r m s .main { s with pc := .report, pRecoverySignal, pAverageResult }
  | other {e : Acquisition.Event} {s' : State g.sequenceLength}
      (hne : ¬(e = .main ∧ (s.pc = .calculate ∨ s.pc = .average))) (hs : StepCase m s e s') :
      RoundedCase r m s e s'

/-- Without memory for the result `calculate` does not return. -/
theorem callCalculateRounded_of_malloc_none (r : Rounding f)
    (hmalloc : s.heap.malloc (4 * (g.sequenceLength * g.sequenceLength)) = none) :
    callCalculateRounded r m s = .error .nullPointer := by
  have hL := g.one_le_sequenceLength
  have hnull : calculateRounded r g.sequenceLength s.pOverlapSignal m.pPrbsTemp none =
      .error .nullPointer := forRange_first_error hL (forRange_first_error hL rfl)
  simp only [callCalculateRounded, hmalloc, hnull, bind, Except.bind]

/-- Away from the product and the average the two machines take the same step. -/
theorem stepRounded_eq_step (r : Rounding f)
    (hne : ¬(e = .main ∧ (s.pc = .calculate ∨ s.pc = .average))) :
    stepRounded r m s e = step m s e := by
  cases e with
  | main =>
    rw [stepRounded, step, mainStepRounded]
    split
    case h_1 hpc => exact absurd ⟨rfl, .inl hpc⟩ hne
    case h_2 hpc => exact absurd ⟨rfl, .inr hpc⟩ hne
    case h_3 => rfl
  | key => rfl
  | sample v => rfl
  | complete v => rfl

theorem stepRounded_calculate (r : Rounding f) (hpc : s.pc = .calculate) :
    stepRounded r m s .main = (callCalculateRounded r m s).toOption := by
  rw [stepRounded, mainStepRounded, hpc]

theorem stepRounded_average (r : Rounding f) (hpc : s.pc = .average) :
    stepRounded r m s .main = ((getAverageSignalRounded r g.discardFrameNumber g.errFrameNumber
      s.pRecoverySignal s.pAverageResult g.averageNumber g.totalFrame).toOption.map fun p =>
        { s with pc := .report, pRecoverySignal := p.1, pAverageResult := p.2 }) := by
  rw [stepRounded, mainStepRounded, hpc]
  dsimp only
  cases getAverageSignalRounded r g.discardFrameNumber g.errFrameNumber s.pRecoverySignal
    s.pAverageResult g.averageNumber g.totalFrame <;> rfl

/-- Every step of the machine in single precision is one of these. -/
theorem stepRounded_cases {r : Rounding f} (h : stepRounded r m s e = some s') :
    RoundedCase r m s e s' := by
  by_cases hne : e = .main ∧ (s.pc = .calculate ∨ s.pc = .average)
  · obtain ⟨rfl, hpc | hpc⟩ := hne
    · rw [stepRounded_calculate r hpc] at h
      cases hmalloc : s.heap.malloc (4 * (g.sequenceLength * g.sequenceLength)) with
      | none =>
        rw [callCalculateRounded_of_malloc_none r hmalloc] at h
        cases h
      | some p =>
        obtain ⟨b, heap⟩ := p
        have hok := toOption_eq_some.mp h
        simp only [callCalculateRounded, hmalloc] at hok
        obtain ⟨res, hres, hok⟩ := bind_eq_ok.mp hok
        cases res with
        | none => cases hok
        | some pRecoverySignal =>
          cases hok
          exact .calculate hpc hmalloc hres
    · rw [stepRounded_average r hpc] at h
      obtain ⟨p, hp, rfl⟩ := Option.map_eq_some_iff.mp h
      exact .average hpc (toOption_eq_some.mp hp)
  · rw [stepRounded_eq_step r hne] at h
    exact .other hne (step_cases h)

/-! ## Other numbers in the same state -/

/-- Another recovered matrix, another average, and everything else as it is. -/
def withFloats {L : ℕ} (R : Buffer MatrixElementType (L * L)) (A : Buffer MatrixElementType L)
    (s : State L) : State L :=
  { s with pRecoverySignal := R, pAverageResult := A }

/-- The steps of the exact machine that read or write one of the two. -/
def Computes {L : ℕ} (s : State L) (e : Acquisition.Event) : Prop :=
  e = .main ∧ (s.pc = .calculate ∨ s.pc = .transposeRecovery ∨ s.pc = .average)

/-- All others take no notice of them. -/
theorem mainStep_withFloats (m : Setup g) (hne : ¬Computes s .main)
    (R : Buffer MatrixElementType (g.sequenceLength * g.sequenceLength))
    (A : Buffer MatrixElementType g.sequenceLength) :
    mainStep m (withFloats R A s) = withFloats R A <$> mainStep m s := by
  cases hs : s.pc <;> simp only [mainStep, withFloats, hs]
  case calculate => exact absurd ⟨rfl, .inl hs⟩ hne
  case transposeRecovery => exact absurd ⟨rfl, .inr (.inl hs)⟩ hne
  case average => exact absurd ⟨rfl, .inr (.inr hs)⟩ hne
  case startLoad => cases productSendSequence m.pPrbs s.sendSequence 1 g.sequenceLength <;> rfl
  case rowLoad =>
    cases productSendSequence m.pPrbs s.sendSequence s.frameCount g.sequenceLength <;> rfl
  case transposeOverlap =>
    cases transposingMatrix g.sequenceLength g.sequenceLength s.pOverlapSignal <;> rfl
  case rowTest =>
    split_ifs
    · cases getOverlopSignal s.convertedValue s.pOverlapSignal g.sequenceLength s.frameCount <;> rfl
    · rfl
  case roundTest =>
    split_ifs
    · cases getOverlopSignal s.convertedValue s.pOverlapSignal g.sequenceLength s.frameCount <;> rfl
    · rfl
  all_goals rfl

theorem transfer_withFloats {L : ℕ} (v : UInt16) (s : State L)
    (R : Buffer MatrixElementType (L * L)) (A : Buffer MatrixElementType L) :
    transfer v (withFloats R A s) = withFloats R A <$> transfer v s := by
  simp only [transfer, withFloats]
  cases s.convertedValue.write s.stream.next v <;> rfl

theorem step_withFloats (m : Setup g) (hne : ¬Computes s e)
    (R : Buffer MatrixElementType (g.sequenceLength * g.sequenceLength))
    (A : Buffer MatrixElementType g.sequenceLength) :
    step m (withFloats R A s) e = (step m s e).map (withFloats R A) := by
  cases e with
  | main =>
    rw [step, step, mainStep_withFloats m hne]
    cases mainStep m s <;> rfl
  | key => rfl
  | sample v =>
    by_cases hready : s.stream.en ∧ 1 < s.stream.ndtr
    · have hsame : (withFloats R A s).stream.en ∧ 1 < (withFloats R A s).stream.ndtr := hready
      rw [step, step, if_pos hready, if_pos hsame, transfer_withFloats]
      cases transfer v s <;> rfl
    · have hsame : ¬((withFloats R A s).stream.en ∧ 1 < (withFloats R A s).stream.ndtr) := hready
      rw [step, step, if_neg hready, if_neg hsame]
      rfl
  | complete v =>
    by_cases hready : s.stream.en ∧ s.stream.ndtr = 1
    · have hsame : (withFloats R A s).stream.en ∧ (withFloats R A s).stream.ndtr = 1 := hready
      rw [step, step, if_pos hready, if_pos hsame, transfer_withFloats]
      cases transfer v s <;> rfl
    · have hsame : ¬((withFloats R A s).stream.en ∧ (withFloats R A s).stream.ndtr = 1) := hready
      rw [step, step, if_neg hready, if_neg hsame]
      rfl

/-- Nor do they change the recovered matrix, or lead to a place where it is read. -/
theorem recovery_of_step (hne : ¬Computes s e) (hs : StepCase m s e s') :
    s'.pRecoverySignal = s.pRecoverySignal ∧
      (s'.pc = .transposeRecovery ∨ s'.pc = .average → s.pc = s'.pc) := by
  rcases hs.main_or_interrupt with ⟨rfl, hmain⟩ | he
  · cases hmain
    case calculate hpc _ _ => exact absurd ⟨rfl, .inl hpc⟩ hne
    case transposeRecovery hpc _ => exact absurd ⟨rfl, .inr (.inl hpc)⟩ hne
    case average hpc _ => exact absurd ⟨rfl, .inr (.inr hpc)⟩ hne
    all_goals exact ⟨rfl, by simp⟩
  · have hsame := hs.undisturbed he
    exact ⟨hsame.recovery, fun _ => hsame.pc.symm⟩

/-! ## Lock step whatever the rounding -/

/-- The same state but for the numbers that can be rounded. They have been assigned where the
program reads them. -/
structure Alike {L : ℕ} (s t : State L) : Prop where
  same : s = withFloats s.pRecoverySignal s.pAverageResult t
  recovery : s.pc = .transposeRecovery ∨ s.pc = .average → s.pRecoverySignal.Assigned
  average : s.pAverageResult.Assigned

namespace Alike

variable {r : Rounding f} {h : List (State g.sequenceLength × Acquisition.Event)}

theorem pc (halike : Alike s t) : s.pc = t.pc := by
  rw [halike.same]
  rfl

theorem exists_floats (halike : Alike s t) : ∃ R A, s = withFloats R A t ∧ A.Assigned ∧
    (t.pc = .transposeRecovery ∨ t.pc = .average → R.Assigned) :=
  ⟨s.pRecoverySignal, s.pAverageResult, halike.same, halike.average,
    fun hpc => halike.recovery (halike.pc ▸ hpc)⟩

/-- The product: both machines get a matrix if there is memory for it. -/
theorem next_calculate (hbook : Bookkept h t) (halike : Alike s t) (hpc : t.pc = .calculate) :
    Option.Rel Alike (stepRounded r m s .main) (step m t .main) := by
  obtain ⟨R, A, rfl, hassigned, -⟩ := halike.exists_floats
  have hplace : (withFloats R A t).pc = .calculate := hpc
  have hoverlap := hbook.overlap_assigned (.inr hpc)
  rw [stepRounded_calculate r hplace, step, mainStep, hpc]
  dsimp only
  cases hmalloc : t.heap.malloc (4 * (g.sequenceLength * g.sequenceLength)) with
  | none =>
    have hfirst : callCalculateRounded r m (withFloats R A t) = .error .nullPointer :=
      callCalculateRounded_of_malloc_none r hmalloc
    rw [hfirst, callCalculate_of_malloc_none m hmalloc]
    exact .none
  | some p =>
    obtain ⟨b, heap⟩ := p
    obtain ⟨_, hrounded, R', rfl, hR'⟩ := calculateRounded_stores (r := r) hoverlap
      m.pPrbsTemp_assigned (.malloc _ (m.memory (b + 2)))
    obtain ⟨_, hexact, R'', rfl, -⟩ := calculate_ensures (.malloc _ (m.memory (b + 2))) hoverlap
      m.pPrbsTemp_assigned
    have hfirst : callCalculateRounded r m (withFloats R A t) = .ok
        (withFloats R' A { t with pc := .transposeRecovery, pRecoverySignal := R'', heap }) := by
      simp only [callCalculateRounded, withFloats, hmalloc, hrounded, ok_bind]
    have hsecond : callCalculate m t =
        .ok { t with pc := .transposeRecovery, pRecoverySignal := R'', heap } := by
      simp only [callCalculate, hmalloc, hexact, ok_bind]
    rw [hfirst, hsecond]
    exact .some ⟨rfl, fun _ => hR'.assigned, hassigned⟩

/-- The transposition, which does not compute. -/
theorem next_transposeRecovery (hbook : Bookkept h t) (halike : Alike s t)
    (hpc : t.pc = .transposeRecovery) :
    Option.Rel Alike (stepRounded r m s .main) (step m t .main) := by
  obtain ⟨R, A, rfl, hassigned, hrecovery⟩ := halike.exists_floats
  have hplace : (withFloats R A t).pc = .transposeRecovery := hpc
  obtain ⟨R', hfirst, hR', -⟩ := transposingMatrix_square (hrecovery (.inl hpc))
  obtain ⟨R'', hsecond, -⟩ := transposingMatrix_square (hbook.recovery (.inl hpc))
  have hfirst : transposingMatrix g.sequenceLength g.sequenceLength
      (withFloats R A t).pRecoverySignal = .ok R' := hfirst
  rw [stepRounded_eq_step r (by simp [hplace]), step, step, mainStep, mainStep, hpc]
  simp only [hplace, hfirst, hsecond, ok_bind]
  exact .some ⟨rfl, fun _ => hR', hassigned⟩

/-- The average. -/
theorem next_average (hbook : Bookkept h t) (htotal : g.totalFrame < g.sequenceLength)
    (halike : Alike s t) (hpc : t.pc = .average) :
    Option.Rel Alike (stepRounded r m s .main) (step m t .main) := by
  obtain ⟨R, A, rfl, hassigned, hrecovery⟩ := halike.exists_floats
  have hplace : (withFloats R A t).pc = .average := hpc
  obtain ⟨⟨R', A'⟩, hfirst, -, hA'⟩ := getAverageSignalRounded_ensures r g.averageNumber
    g.errFrameNumber_le htotal (hrecovery (.inr hpc)) hassigned
  obtain ⟨⟨R'', A''⟩, hsecond, -⟩ := getAverageSignal_ensures g.averageNumber
    g.errFrameNumber_le htotal (hbook.recovery (.inr hpc)) (hbook.average htotal)
  have hfirst : getAverageSignalRounded r g.discardFrameNumber g.errFrameNumber
      (withFloats R A t).pRecoverySignal (withFloats R A t).pAverageResult g.averageNumber
        g.totalFrame = .ok (R', A') := hfirst
  rw [stepRounded_average r hplace, hfirst, step, mainStep, hpc]
  simp only [hsecond, ok_bind]
  exact .some ⟨rfl, by simp, hA'.assigned⟩

/-- Any other step. -/
theorem next_other (halike : Alike s t) (hne : ¬Computes t e) :
    Option.Rel Alike (stepRounded r m s e) (step m t e) := by
  obtain ⟨R, A, rfl, hassigned, hrecovery⟩ := halike.exists_floats
  have hsteps : stepRounded r m (withFloats R A t) e = step m (withFloats R A t) e :=
    stepRounded_eq_step r fun hc => hne ⟨hc.1, hc.2.imp_right .inr⟩
  rw [hsteps, step_withFloats m hne]
  cases hstep : step m t e with
  | none => exact .none
  | some t' =>
    refine .some ⟨rfl, fun hreads => hrecovery ?_, hassigned⟩
    rw [(recovery_of_step hne (step_cases hstep)).2 hreads]
    exact hreads

theorem initial (m : Setup g) : Alike (State.initial m) (State.initial m) :=
  ⟨rfl, by simp [State.initial], Buffer.assigned_fill 0⟩

/-- Whatever the rounding and whatever the matrices: if fewer frames are averaged than there
are points, the two machines run in lock step. -/
theorem lockStep (r : Rounding f) (m : Setup g) (htotal : g.totalFrame < g.sequenceLength) :
    LockStep (stepRounded r m) (step m) (fun _ => True) Alike (State.initial m)
      (State.initial m) where
  start := .initial m
  next := fun {h t s e} hrun _ _ halike => by
    have hbook := Bookkept.of_run hrun
    by_cases hc : Computes t e
    · obtain ⟨rfl, hpc | hpc | hpc⟩ := hc
      · exact halike.next_calculate hbook hpc
      · exact halike.next_transposeRecovery hbook hpc
      · exact halike.next_average hbook htotal hpc
    · exact halike.next_other hc

end Alike

end HadamardIMS.Precision
