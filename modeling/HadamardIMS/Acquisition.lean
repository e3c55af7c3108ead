import HadamardIMS.Heaps
import HadamardIMS.Runs
import HadamardIMS.Signals

/-!
# The acquisition loop of `main` and its interrupts

`main` advances in small steps, one for each access to `flag`, each access to
`frameCount` and each call, and between any two of them the key or the sample
stream may interrupt. An interrupt is served as soon as it is raised; the calls
that move a whole row or a whole matrix are single steps.
-/
namespace HadamardIMS.Acquisition

open Loops Buffers Heaps Hadamard Signals

/-- The place `main` has reached: the call before the loop, the read of `flag`
by `switch`, `case 0`, `case 2` up to the test for the end of the round, and the
branch that processes a round. -/
inductive Pc where
  | initialBegin
  | switch
  | startReset
  | startLoad
  | startBegin
  | doneReset
  | doneCount
  | firstTest
  | rowTest
  | rowLoad
  | rowBegin
  | roundTest
  | transposeOverlap
  | calculate
  | transposeRecovery
  | average
  | report
  | restart
  deriving Repr, DecidableEq

/-- The DMA stream of the ADC: whether it is enabled, the transfers that remain
and the cell that the next one fills. -/
structure Stream where
  en : Bool
  ndtr : ℕ
  next : ℕ
  deriving Repr, DecidableEq

/-- Loading the transfer count and enabling. A stream that is enabled ignores
writes to its registers. -/
def Stream.start (t : Stream) (number : ℕ) : Stream := if t.en then t else ⟨true, number, 0⟩

/-- What the loop and the interrupts work on. -/
structure State (L : ℕ) where
  pc : Pc
  flag : ℕ
  frameCount : ℕ
  sendSequence : Buffer UInt8 L
  convertedValue : Buffer UInt16 (L + 2)
  pOverlapSignal : Buffer MatrixElementType (L * L)
  pRecoverySignal : Buffer MatrixElementType (L * L)
  pAverageResult : Buffer MatrixElementType L
  stream : Stream
  heap : Heap

/-- What is fixed before the loop: the two matrices, the contents of the memory
that the blocks were allocated in, and the heap they left. -/
structure Setup (g : Globals) where
  pPrbs : Buffer MatrixElementType (g.sequenceLength * g.sequenceLength)
  pPrbsTemp : Buffer MatrixElementType (g.sequenceLength * g.sequenceLength)
  pPrbs_assigned : pPrbs.Assigned
  pPrbsTemp_assigned : pPrbsTemp.Assigned
  sequenceMemory : ℕ → UInt8
  memory : ℕ → ℕ → MatrixElementType
  heap : Heap

variable {L : ℕ} {g : Globals}

/-- The state in which `main` arrives at the first `beginSample`. Two of the
blocks have been cleared by `memset`. -/
def State.initial (m : Setup g) : State g.sequenceLength where
  pc := .initialBegin
  flag := 10
  frameCount := 0
  sendSequence := .malloc _ m.sequenceMemory
  convertedValue := .fill _ 0
  pOverlapSignal := .malloc _ (m.memory 0)
  pRecoverySignal := .malloc _ (m.memory 1)
  pAverageResult := .fill _ 0
  stream := ⟨false, 0, 0⟩
  heap := m.heap

/-- `beginSample` as the stream sees it: both branches load the transfer count
and enable the stream. -/
def beginSample (number : ℕ) (s : State L) : State L :=
  { s with stream := s.stream.start number }

/-- `calculate`, called with what `malloc` returned for its result. -/
def callCalculate (m : Setup g) (s : State g.sequenceLength) :
    Except Fault (State g.sequenceLength) := do
  let size := 4 * (g.sequenceLength * g.sequenceLength)
  let (res, heap) := match s.heap.malloc size with
    | some (b, heap) => (some (Buffer.malloc _ (m.memory (b + 2))), heap)
    | none => (none, s.heap)
  match ← Hadamard.calculate res g.sequenceLength s.pOverlapSignal m.pPrbsTemp with
  | some pRecoverySignal => .ok { s with pc := .transposeRecovery, pRecoverySignal, heap }
  | none => .error .nullPointer

/-- One step of `main`. -/
def mainStep (m : Setup g) (s : State g.sequenceLength) : Except Fault (State g.sequenceLength) :=
  match s.pc with
  | .initialBegin => .ok { beginSample g.sampleSize s with pc := .switch }
  | .switch =>
    .ok { s with pc := if s.flag = 0 then .startReset else
      if s.flag = 2 then .doneReset else .switch }
  | .startReset => .ok { s with pc := .startLoad, flag := 10 }
  | .startLoad => do
    let sendSequence ← productSendSequence m.pPrbs s.sendSequence 1 g.sequenceLength
    .ok { s with pc := .startBegin, sendSequence }
  | .startBegin => .ok { beginSample g.sampleSize s with pc := .switch }
  | .doneReset => .ok { s with pc := .doneCount, flag := 10 }
  | .doneCount => .ok { s with pc := .firstTest, frameCount := s.frameCount + 1 }
  | .firstTest =>
    .ok { s with pc := .rowTest, flag := if s.frameCount = 1 then 0 else s.flag }
  | .rowTest =>
    if 1 < s.frameCount ∧ s.frameCount ≤ g.sequenceLength then do
      let pOverlapSignal ← getOverlopSignal s.convertedValue s.pOverlapSignal g.sequenceLength
        s.frameCount
      .ok { s with pc := .rowLoad, pOverlapSignal }
    else .ok { s with pc := .roundTest }
  | .rowLoad => do
    let sendSequence ← productSendSequence m.pPrbs s.sendSequence s.frameCount g.sequenceLength
    .ok { s with pc := .rowBegin, sendSequence }
  | .rowBegin => .ok { beginSample g.sampleSize s with pc := .roundTest }
  | .roundTest =>
    if s.frameCount = g.sequenceLength + 1 then do
      let pOverlapSignal ← getOverlopSignal s.convertedValue s.pOverlapSignal g.sequenceLength
        s.frameCount
      .ok { s with pc := .transposeOverlap, pOverlapSignal }
    else .ok { s with pc := .switch }
  | .transposeOverlap => do
    let pOverlapSignal ← transposingMatrix g.sequenceLength g.sequenceLength s.pOverlapSignal
    .ok { s with pc := .calculate, pOverlapSignal }
  | .calculate => callCalculate m s
  | .transposeRecovery => do
    let pRecoverySignal ← transposingMatrix g.sequenceLength g.sequenceLength s.pRecoverySignal
    .ok { s with pc := .average, pRecoverySignal }
  | .average => do
    let (pRecoverySignal, pAverageResult) ← getAverageSignal g.discardFrameNumber g.errFrameNumber
      s.pRecoverySignal s.pAverageResult g.averageNumber g.totalFrame
    .ok { s with pc := .report, pRecoverySignal, pAverageResult }
  | .report => .ok { s with pc := .restart }
  | .restart => .ok { s with pc := .switch, frameCount := 1 }

/-- A step of `main`, a press of the key, a transfer that is not the last one of
the frame, and the last one, which raises the completion interrupt. -/
inductive Event where
  | main
  | key
  | sample (v : UInt16)
  | complete (v : UInt16)
  deriving Repr, DecidableEq

/-- The step is the last transfer of a frame. -/
def IsCompletion : Event → Bool
  | .complete _ => true
  | _ => false

/-- The stream moves one converted value to memory. -/
def transfer (v : UInt16) (s : State L) : Except Fault (State L) := do
  let convertedValue ← s.convertedValue.write s.stream.next v
  .ok { s with convertedValue, stream := ⟨s.stream.en, s.stream.ndtr - 1, s.stream.next + 1⟩ }

/-- `TOTAL_PROJECT_INT_FUNCTION`, the handler of the key. -/
def keyInterrupt (s : State L) : State L := { s with flag := 0 }

/-- `DMA_ADC_COMP_INT_FUNCTION`, the handler of a completed transfer. -/
def dmaInterrupt (s : State L) : State L :=
  { s with flag := 2, stream := ⟨false, s.stream.ndtr, s.stream.next⟩ }

/-- The whole system: `none` where the event cannot happen or `main` faults. -/
def step (m : Setup g) (s : State g.sequenceLength) : Event → Option (State g.sequenceLength)
  | .main => (mainStep m s).toOption
  | .key => some (keyInterrupt s)
  | .sample v => if s.stream.en ∧ 1 < s.stream.ndtr then (transfer v s).toOption else none
  | .complete v =>
    if s.stream.en ∧ s.stream.ndtr = 1 then dmaInterrupt <$> (transfer v s).toOption else none

/-! ## The machine of order four -/

/-- The smallest order with more than one row. -/
def orderFour : Globals where
  hadamardOrder := 4
  discardFrameNumber := [0]
  totalFrame := 2
  averageNumber := 1
  errFrameNumber := 1
  two_le_hadamardOrder := by decide
  averageNumber_ne_zero := by decide
  errFrameNumber_le := by decide

/-- The sequence matrix of this order and its inverse, written out. -/
def setupFour : Setup orderFour where
  pPrbs := ⟨fun p => .set ([1, 0, 1, 0, 1, 1, 1, 1, 0].getD p 0)⟩
  pPrbsTemp := ⟨fun p => .set ([1, -1, 1, -1, 1, 1, 1, 1, -1].getD p 0 / 128)⟩
  pPrbs_assigned := fun _ _ => ⟨_, rfl⟩
  pPrbsTemp_assigned := fun _ _ => ⟨_, rfl⟩
  sequenceMemory := fun _ => 0
  memory := fun _ _ => 0
  heap := .empty 1000

/-- The transfers of one frame of this order. -/
def frameFour (v₀ v₁ v₂ v₃ : UInt16) : List Event :=
  [.sample v₀, .sample v₁, .sample v₂, .complete v₃]

/-- The events up to the first call of `calculate`: the frame that is thrown away,
and one frame for each row. -/
def firstRoundFour : List Event :=
  [.main] ++ frameFour 0 0 0 0 ++ .replicate 6 .main ++ .replicate 4 .main ++ frameFour 9 1 2 3 ++
    .replicate 8 .main ++ frameFour 9 4 5 6 ++ .replicate 8 .main ++ frameFour 9 7 8 9 ++
    .replicate 7 .main

/-! ## What a step can do -/

/-- The steps of `main`, one by one, with the tests that lead to them. -/
inductive MainCase (m : Setup g) (s : State g.sequenceLength) : State g.sequenceLength → Prop
  | initialBegin (hpc : s.pc = .initialBegin) :
      MainCase m s { s with pc := .switch, stream := s.stream.start g.sampleSize }
  | switchStart (hpc : s.pc = .switch) (hflag : s.flag = 0) :
      MainCase m s { s with pc := .startReset }
  | switchDone (hpc : s.pc = .switch) (hflag : s.flag = 2) :
      MainCase m s { s with pc := .doneReset }
  | switchIdle (hpc : s.pc = .switch) (hstart : s.flag ≠ 0) (hdone : s.flag ≠ 2) :
      MainCase m s { s with pc := .switch }
  | startReset (hpc : s.pc = .startReset) :
      MainCase m s { s with pc := .startLoad, flag := 10 }
  | startLoad {sendSequence : Buffer UInt8 g.sequenceLength} (hpc : s.pc = .startLoad)
      (hload : productSendSequence m.pPrbs s.sendSequence 1 g.sequenceLength = .ok sendSequence) :
      MainCase m s { s with pc := .startBegin, sendSequence }
  | startBegin (hpc : s.pc = .startBegin) :
      MainCase m s { s with pc := .switch, stream := s.stream.start g.sampleSize }
  | doneReset (hpc : s.pc = .doneReset) :
      MainCase m s { s with pc := .doneCount, flag := 10 }
  | doneCount (hpc : s.pc = .doneCount) :
      MainCase m s { s with pc := .firstTest, frameCount := s.frameCount + 1 }
  | firstFrame (hpc : s.pc = .firstTest) (hcount : s.frameCount = 1) :
      MainCase m s { s with pc := .rowTest, flag := 0 }
  | laterFrame (hpc : s.pc = .firstTest) (hcount : s.frameCount ≠ 1) :
      MainCase m s { s with pc := .rowTest }
  | rowStore {pOverlapSignal : Buffer MatrixElementType (g.sequenceLength * g.sequenceLength)}
      (hpc : s.pc = .rowTest) (hlow : 1 < s.frameCount) (hhigh : s.frameCount ≤ g.sequenceLength)
      (hstore : getOverlopSignal s.convertedValue s.pOverlapSignal g.sequenceLength s.frameCount =
        .ok pOverlapSignal) :
      MainCase m s { s with pc := .rowLoad, pOverlapSignal }
  | rowSkip (hpc : s.pc = .rowTest)
      (hcount : ¬(1 < s.frameCount ∧ s.frameCount ≤ g.sequenceLength)) :
      MainCase m s { s with pc := .roundTest }
  | rowLoad {sendSequence : Buffer UInt8 g.sequenceLength} (hpc : s.pc = .rowLoad)
      (hload : productSendSequence m.pPrbs s.sendSequence s.frameCount g.sequenceLength =
        .ok sendSequence) :
      MainCase m s { s with pc := .rowBegin, sendSequence }
  | rowBegin (hpc : s.pc = .rowBegin) :
      MainCase m s { s with pc := .roundTest, stream := s.stream.start g.sampleSize }
  | lastStore {pOverlapSignal : Buffer MatrixElementType (g.sequenceLength * g.sequenceLength)}
      (hpc : s.pc = .roundTest) (hcount : s.frameCount = g.sequenceLength + 1)
      (hstore : getOverlopSignal s.convertedValue s.pOverlapSignal g.sequenceLength s.frameCount =
        .ok pOverlapSignal) :
      MainCase m s { s with pc := .transposeOverlap, pOverlapSignal }
  | roundOpen (hpc : s.pc = .roundTest) (hcount : s.frameCount ≠ g.sequenceLength + 1) :
      MainCase m s { s with pc := .switch }
  | transposeOverlap
      {pOverlapSignal : Buffer MatrixElementType (g.sequenceLength * g.sequenceLength)}
      (hpc : s.pc = .transposeOverlap)
      (htranspose : transposingMatrix g.sequenceLength g.sequenceLength s.pOverlapSignal =
        .ok pOverlapSignal) :
      MainCase m s { s with pc := .calculate, pOverlapSignal }
  | calculate {b : ℕ} {heap : Heap}
      {pRecoverySignal : Buffer MatrixElementType (g.sequenceLength * g.sequenceLength)}
      (hpc : s.pc = .calculate)
      (hmalloc : s.heap.malloc (4 * (g.sequenceLength * g.sequenceLength)) = some (b, heap))
      (hcalculate : Hadamard.calculate (some (.malloc _ (m.memory (b + 2)))) g.sequenceLength
        s.pOverlapSignal m.pPrbsTemp = .ok (some pRecoverySignal)) :
      MainCase m s { s with pc := .transposeRecovery, pRecoverySignal, heap }
  | transposeRecovery
      {pRecoverySignal : Buffer MatrixElementType (g.sequenceLength * g.sequenceLength)}
      (hpc : s.pc = .transposeRecovery)
      (htranspose : transposingMatrix g.sequenceLength g.sequenceLength s.pRecoverySignal =
        .ok pRecoverySignal) :
      MainCase m s { s with pc := .average, pRecoverySignal }
  | average {pRecoverySignal : Buffer MatrixElementType (g.sequenceLength * g.sequenceLength)}
      {pAverageResult : Buffer MatrixElementType g.sequenceLength} (hpc : s.pc = .average)
      (haverage : getAverageSignal g.discardFrameNumber g.errFrameNumber s.pRecoverySignal
        s.pAverageResult g.averageNumber g.totalFrame = .ok (pRecoverySignal, pAverageResult)) :
      MainCase m s { s with pc := .report, pRecoverySignal, pAverageResult }
  | report (hpc : s.pc = .report) : MainCase m s { s with pc := .restart }
  | restart (hpc : s.pc = .restart) : MainCase m s { s with pc := .switch, frameCount := 1 }

/-- Without memory for the result `calculate` does not return. -/
theorem callCalculate_of_malloc_none (m : Setup g) {s : State g.sequenceLength}
    (hmalloc : s.heap.malloc (4 * (g.sequenceLength * g.sequenceLength)) = none) :
    callCalculate m s = .error .nullPointer := by
  have hL := g.one_le_sequenceLength
  simp only [callCalculate, hmalloc, calculate_null hL hL, bind, Except.bind]

theorem mainCase_of_callCalculate {m : Setup g} {s s' : State g.sequenceLength}
    (hpc : s.pc = .calculate) (h : callCalculate m s = .ok s') : MainCase m s s' := by
  cases hmalloc : s.heap.malloc (4 * (g.sequenceLength * g.sequenceLength)) with
  | none =>
    rw [callCalculate_of_malloc_none m hmalloc] at h
    cases h
  | some p =>
    obtain ⟨b, heap⟩ := p
    simp only [callCalculate, hmalloc] at h
    obtain ⟨res, hres, h⟩ := bind_eq_ok.mp h
    cases res with
    | none => cases h
    | some pRecoverySignal =>
      cases h
      exact .calculate hpc hmalloc hres

/-- Every step of `main` is one of these. -/
theorem mainStep_cases {m : Setup g} {s s' : State g.sequenceLength}
    (h : mainStep m s = .ok s') : MainCase m s s' := by
  unfold mainStep at h
  split at h
  case h_1 hpc => cases h; exact .initialBegin hpc
  case h_2 hpc =>
    cases h
    split_ifs with hstart hdone
    · exact .switchStart hpc hstart
    · exact .switchDone hpc hdone
    · exact .switchIdle hpc hstart hdone
  case h_3 hpc => cases h; exact .startReset hpc
  case h_4 hpc => obtain ⟨b, hb, h⟩ := bind_eq_ok.mp h; cases h; exact .startLoad hpc hb
  case h_5 hpc => cases h; exact .startBegin hpc
  case h_6 hpc => cases h; exact .doneReset hpc
  case h_7 hpc => cases h; exact .doneCount hpc
  case h_8 hpc =>
    cases h
    split_ifs with hcount
    · exact .firstFrame hpc hcount
    · exact .laterFrame hpc hcount
  case h_9 hpc =>
    split_ifs at h with hcount
    · obtain ⟨b, hb, h⟩ := bind_eq_ok.mp h
      cases h
      exact .rowStore hpc hcount.1 hcount.2 hb
    · cases h
      exact .rowSkip hpc hcount
  case h_10 hpc => obtain ⟨b, hb, h⟩ := bind_eq_ok.mp h; cases h; exact .rowLoad hpc hb
  case h_11 hpc => cases h; exact .rowBegin hpc
  case h_12 hpc =>
    split_ifs at h with hcount
    · obtain ⟨b, hb, h⟩ := bind_eq_ok.mp h
      cases h
      exact .lastStore hpc hcount hb
    · cases h
      exact .roundOpen hpc hcount
  case h_13 hpc => obtain ⟨b, hb, h⟩ := bind_eq_ok.mp h; cases h; exact .transposeOverlap hpc hb
  case h_14 hpc => exact mainCase_of_callCalculate hpc h
  case h_15 hpc => obtain ⟨b, hb, h⟩ := bind_eq_ok.mp h; cases h; exact .transposeRecovery hpc hb
  case h_16 hpc => obtain ⟨⟨R, A⟩, hb, h⟩ := bind_eq_ok.mp h; cases h; exact .average hpc hb
  case h_17 hpc => cases h; exact .report hpc
  case h_18 hpc => cases h; exact .restart hpc

/-- The steps of the system, with what the interrupts leave. -/
inductive StepCase (m : Setup g) (s : State g.sequenceLength) :
    Event → State g.sequenceLength → Prop
  | main {s' : State g.sequenceLength} (h : MainCase m s s') : StepCase m s .main s'
  | key : StepCase m s .key { s with flag := 0 }
  | sample (v : UInt16) (hen : s.stream.en = true) (hmore : 1 < s.stream.ndtr)
      (hroom : s.stream.next < g.sequenceLength + 2) :
      StepCase m s (.sample v) { s with
        convertedValue := s.convertedValue.put s.stream.next v
        stream := ⟨true, s.stream.ndtr - 1, s.stream.next + 1⟩ }
  | complete (v : UInt16) (hen : s.stream.en = true) (hlast : s.stream.ndtr = 1)
      (hroom : s.stream.next < g.sequenceLength + 2) :
      StepCase m s (.complete v) { s with
        convertedValue := s.convertedValue.put s.stream.next v
        flag := 2
        stream := ⟨false, 0, s.stream.next + 1⟩ }

/-- A step is one of `main` or an interrupt. -/
theorem StepCase.main_or_interrupt {m : Setup g} {s s' : State g.sequenceLength} {e : Event}
    (h : StepCase m s e s') : e = .main ∧ MainCase m s s' ∨ e ≠ .main := by
  cases h with
  | main h => exact .inl ⟨rfl, h⟩
  | key | sample | complete =>
    right
    simp

theorem transfer_eq_ok {v : UInt16} {s s' : State L} (h : transfer v s = .ok s') :
    s.stream.next < L + 2 ∧ s' = { s with
      convertedValue := s.convertedValue.put s.stream.next v
      stream := ⟨s.stream.en, s.stream.ndtr - 1, s.stream.next + 1⟩ } := by
  obtain ⟨b, hb, h⟩ := bind_eq_ok.mp h
  cases h
  obtain ⟨hroom, rfl⟩ := Buffer.lt_of_write_eq_ok hb
  exact ⟨hroom, rfl⟩

/-- Every step of the system is one of these. -/
theorem step_cases {m : Setup g} {s s' : State g.sequenceLength} {e : Event}
    (h : step m s e = some s') : StepCase m s e s' := by
  cases e with
  | main => exact .main (mainStep_cases (toOption_eq_some.mp h))
  | key =>
    cases h
    exact .key
  | sample v =>
    simp only [step] at h
    split_ifs at h with hready
    obtain ⟨hroom, rfl⟩ := transfer_eq_ok (toOption_eq_some.mp h)
    rw [hready.1]
    exact .sample v hready.1 hready.2 hroom
  | complete v =>
    simp only [step] at h
    split_ifs at h with hready
    obtain ⟨t, ht, rfl⟩ := Option.map_eq_some_iff.mp h
    obtain ⟨hroom, rfl⟩ := transfer_eq_ok (toOption_eq_some.mp ht)
    have hlast := StepCase.complete (m := m) v hready.1 hready.2 hroom
    simpa only [dmaInterrupt, hready.2] using hlast

end HadamardIMS.Acquisition
