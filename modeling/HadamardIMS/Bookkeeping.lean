import HadamardIMS.Acquisition
import HadamardIMS.RoundedAverages

/-!
# Frame counter, rows and transfers under every order of events

Where `main` stands determines the range of `frameCount` and how many rows of the
current round have been stored. Neither a press of the key nor a transfer touches
either of them, so this holds in the middle of a round as well.
-/
namespace HadamardIMS.Acquisition

open Loops Buffers Runs Hadamard Signals

variable {g : Globals} {m : Setup g}

/-- The values `frameCount` can have at each place of `main`. -/
def FrameCountAt (L : ℕ) (pc : Pc) (frameCount : ℕ) : Prop :=
  match pc with
  | .initialBegin => frameCount = 0
  | .switch | .startReset | .startLoad | .startBegin | .doneReset | .doneCount => frameCount ≤ L
  | .firstTest | .rowTest | .roundTest => 1 ≤ frameCount ∧ frameCount ≤ L + 1
  | .rowLoad | .rowBegin => 2 ≤ frameCount ∧ frameCount ≤ L
  | .transposeOverlap | .calculate | .transposeRecovery | .average | .report | .restart =>
    frameCount = L + 1

/-- The rows of the current round that have been stored when `main` is here. -/
def storedRows (L : ℕ) (pc : Pc) (frameCount : ℕ) : ℕ :=
  match pc with
  | .initialBegin | .switch | .startReset | .startLoad | .startBegin | .doneReset | .doneCount
  | .rowLoad | .rowBegin => frameCount - 1
  | .firstTest | .rowTest => frameCount - 2
  | .roundTest => min (frameCount - 1) (L - 1)
  | .transposeOverlap | .calculate => L
  | .transposeRecovery | .average | .report | .restart => 0

/-- The frame number with which the next step of `main` calls
`productSendSequence`, if it does. -/
def loadArgument {L : ℕ} (s : State L) : Option ℕ :=
  match s.pc with
  | .startLoad => some 1
  | .rowLoad => some s.frameCount
  | _ => none

/-- The step is a call of `getOverlopSignal`. -/
def IsStore {L : ℕ} (s : State L) (e : Event) : Prop :=
  e = .main ∧ (s.pc = .rowTest ∧ 1 < s.frameCount ∧ s.frameCount ≤ L ∨
    s.pc = .roundTest ∧ s.frameCount = L + 1)

/-- The step is the call of `calculate` in the branch that processes a round. -/
def IsProcess {L : ℕ} (s : State L) (e : Event) : Prop := e = .main ∧ s.pc = .calculate

instance {L : ℕ} (s : State L) (e : Event) : Decidable (IsStore s e) :=
  inferInstanceAs (Decidable (_ ∧ _))

instance {L : ℕ} (s : State L) (e : Event) : Decidable (IsProcess s e) :=
  inferInstanceAs (Decidable (_ ∧ _))

/-- The states in which `getOverlopSignal` was called since the last execution of
the processing branch, or since the start, in the order of the calls. -/
def roundStores {L : ℕ} : List (State L × Event) → List (State L)
  | [] => []
  | (t, e) :: h =>
    if IsProcess t e then [] else if IsStore t e then roundStores h ++ [t] else roundStores h

/-- The frame numbers with which `getOverlopSignal` is called. -/
theorem IsStore.range {s : State g.sequenceLength} {e : Event} (hst : IsStore s e) :
    2 ≤ s.frameCount ∧ s.frameCount ≤ g.sequenceLength + 1 := by
  have hL := g.one_le_sequenceLength
  rcases hst.2 with ⟨-, hlow, hhigh⟩ | ⟨-, hlast⟩
  · omega
  · omega

/-- The row that a call of `getOverlopSignal` in this state writes. -/
def storeRow {L : ℕ} (s : State L) : ℕ := s.frameCount - 2

theorem roundStores_quiet {L : ℕ} {s : State L} {e : Event} {h : List (State L × Event)}
    (hstore : ¬IsStore s e) (hprocess : ¬IsProcess s e) :
    roundStores ((s, e) :: h) = roundStores h := by
  rw [roundStores, if_neg hprocess, if_neg hstore]

theorem roundStores_store {L : ℕ} {s : State L} {e : Event} {h : List (State L × Event)}
    (hstore : IsStore s e) : roundStores ((s, e) :: h) = roundStores h ++ [s] := by
  have hprocess : ¬IsProcess s e := by
    rintro ⟨-, hpc⟩
    simp [IsStore, hpc] at hstore
  rw [roundStores, if_neg hprocess, if_pos hstore]

theorem FrameCountAt.main {s s' : State g.sequenceLength} (h : MainCase m s s')
    (hI : FrameCountAt g.sequenceLength s.pc s.frameCount) :
    FrameCountAt g.sequenceLength s'.pc s'.frameCount := by
  have hL := g.one_le_sequenceLength
  cases h <;> simp_all [FrameCountAt] <;> omega

/-- Two states that differ in `flag`, the sample buffer and the stream only. -/
structure Undisturbed {L : ℕ} (s s' : State L) : Prop where
  pc : s'.pc = s.pc
  frameCount : s'.frameCount = s.frameCount
  sendSequence : s'.sendSequence = s.sendSequence
  overlap : s'.pOverlapSignal = s.pOverlapSignal
  recovery : s'.pRecoverySignal = s.pRecoverySignal
  average : s'.pAverageResult = s.pAverageResult
  heap : s'.heap = s.heap

/-- Interrupts leave `main` and what it computes with alone. -/
theorem StepCase.undisturbed {s s' : State g.sequenceLength} {e : Event}
    (h : StepCase m s e s') (he : e ≠ .main) : Undisturbed s s' := by
  cases h with
  | main => exact absurd rfl he
  | key => exact ⟨rfl, rfl, rfl, rfl, rfl, rfl, rfl⟩
  | sample => exact ⟨rfl, rfl, rfl, rfl, rfl, rfl, rfl⟩
  | complete => exact ⟨rfl, rfl, rfl, rfl, rfl, rfl, rfl⟩

/-- A store writes the next row, the processing branch ends the round, and every
other step of `main` keeps the number of stored rows. -/
theorem storedRows_main {s s' : State g.sequenceLength} (h : MainCase m s s')
    (hcount : FrameCountAt g.sequenceLength s.pc s.frameCount) :
    (IsStore s .main → storeRow s = storedRows g.sequenceLength s.pc s.frameCount ∧
      storedRows g.sequenceLength s'.pc s'.frameCount =
        storedRows g.sequenceLength s.pc s.frameCount + 1) ∧
    (IsProcess s .main → storedRows g.sequenceLength s'.pc s'.frameCount = 0) ∧
    (¬IsStore s .main → ¬IsProcess s .main → storedRows g.sequenceLength s'.pc s'.frameCount =
      storedRows g.sequenceLength s.pc s.frameCount) := by
  have hL := g.one_le_sequenceLength
  cases h
  case rowStore hpc hlow hhigh _ =>
    have hstore : IsStore s .main := ⟨rfl, .inl ⟨hpc, hlow, hhigh⟩⟩
    simp only [storeRow, storedRows, IsProcess, hpc]
    exact ⟨fun _ => ⟨trivial, by omega⟩, by simp, fun hnot => absurd hstore hnot⟩
  case lastStore hpc hlast _ =>
    have hstore : IsStore s .main := ⟨rfl, .inr ⟨hpc, hlast⟩⟩
    simp only [storeRow, storedRows, IsProcess, hpc]
    exact ⟨fun _ => by omega, by simp, fun hnot => absurd hstore hnot⟩
  case calculate hpc _ _ =>
    exact ⟨by simp [IsStore, hpc], fun _ => rfl, fun _ hnot => absurd ⟨rfl, hpc⟩ hnot⟩
  case rowSkip hpc hskip =>
    -- The counter is one here, or the last row is still to be stored.
    simp only [FrameCountAt, hpc] at hcount
    refine ⟨by simp [IsStore, hpc]; omega, by simp [IsProcess, hpc], fun _ _ => ?_⟩
    simp only [storedRows, hpc]
    omega
  case roundOpen hpc hopen =>
    simp only [FrameCountAt, hpc] at hcount
    refine ⟨by simp [IsStore, hpc, hopen], by simp [IsProcess, hpc], fun _ _ => ?_⟩
    simp only [storedRows, hpc]
    omega
  case doneCount hpc =>
    refine ⟨by simp [IsStore, hpc], by simp [IsProcess, hpc], fun _ _ => ?_⟩
    simp only [storedRows, hpc]
    omega
  case rowBegin hpc =>
    simp only [FrameCountAt, hpc] at hcount
    refine ⟨by simp [IsStore, hpc], by simp [IsProcess, hpc], fun _ _ => ?_⟩
    simp only [storedRows, hpc]
    omega
  -- Every other step keeps the counter, and the rows that go with it.
  all_goals
    refine ⟨by simp [IsStore, ‹s.pc = _›], by simp [IsProcess, ‹s.pc = _›], fun _ _ => ?_⟩
    simp only [storedRows, ‹s.pc = _›]

/-- The cell of the overlap matrix that holds element `i` of row `r`: when
`calculate` is called the matrix has been transposed. -/
def overlapCell (L : ℕ) (pc : Pc) (r i : ℕ) : ℕ := if pc = .calculate then i * L + r else r * L + i

/-- The invariant of all runs. `rows` and `contents` say that the stores of the
current round wrote the rows in order, and that each row still holds the frame
that was in the sample buffer at its store. -/
structure Bookkept (h : List (State g.sequenceLength × Event)) (s : State g.sequenceLength) :
    Prop where
  frameCount : FrameCountAt g.sequenceLength s.pc s.frameCount
  samples : s.convertedValue.Assigned
  transfers : s.stream.en = true →
    1 ≤ s.stream.ndtr ∧ s.stream.next + s.stream.ndtr = g.sequenceLength + 1
  rows : (roundStores h).map storeRow = List.range (storedRows g.sequenceLength s.pc s.frameCount)
  contents : ∀ r t, (roundStores h)[r]? = some t → ∀ i < g.sequenceLength,
    s.pOverlapSignal.cell (overlapCell g.sequenceLength s.pc r i) =
      .set ((t.convertedValue.value (i + 1)).toNat : MatrixElementType)
  recovery : s.pc = .transposeRecovery ∨ s.pc = .average → s.pRecoverySignal.Assigned
  average : g.totalFrame < g.sequenceLength → s.pAverageResult.Assigned

namespace Bookkept

variable {h : List (State g.sequenceLength × Event)} {s s' : State g.sequenceLength}

/-- All rows of the round have been stored when the processing branch runs. -/
theorem length_roundStores (hI : Bookkept h s) :
    (roundStores h).length = storedRows g.sequenceLength s.pc s.frameCount := by
  have hlength := congrArg List.length hI.rows
  rwa [List.length_map, List.length_range] at hlength

theorem exists_store (hI : Bookkept h s) {r : ℕ}
    (hr : r < storedRows g.sequenceLength s.pc s.frameCount) :
    ∃ t, (roundStores h)[r]? = some t ∧ storeRow t = r := by
  rw [← hI.length_roundStores] at hr
  refine ⟨(roundStores h)[r], List.getElem?_eq_getElem hr, ?_⟩
  have hrow := congrArg (·[r]?) hI.rows
  simp only [List.getElem?_map, List.getElem?_eq_getElem hr, Option.map_some] at hrow
  rw [List.getElem?_range (by rwa [hI.length_roundStores] at hr)] at hrow
  exact Option.some.inj hrow

/-- Once all rows are stored, the whole overlap matrix has been assigned. -/
theorem overlap_assigned (hI : Bookkept h s)
    (hpc : s.pc = .transposeOverlap ∨ s.pc = .calculate) : s.pOverlapSignal.Assigned := by
  have hrows : storedRows g.sequenceLength s.pc s.frameCount = g.sequenceLength := by
    rcases hpc with hpc | hpc <;> rw [hpc] <;> rfl
  have hcell : ∀ r i, r < g.sequenceLength → i < g.sequenceLength →
      ∃ x, s.pOverlapSignal.cell (overlapCell g.sequenceLength s.pc r i) = .set x := by
    intro r i hr hi
    obtain ⟨t, ht, -⟩ := hI.exists_store (hrows.symm ▸ hr)
    exact ⟨_, hI.contents r t ht i hi⟩
  unfold overlapCell at hcell
  split_ifs at hcell
  · exact forall_of_rowMajor fun i r hi hr => hcell r i hr hi
  · exact forall_of_rowMajor hcell

theorem rows_main (hI : Bookkept h s) (hs : MainCase m s s') :
    (roundStores ((s, .main) :: h)).map storeRow =
      List.range (storedRows g.sequenceLength s'.pc s'.frameCount) := by
  obtain ⟨hstore, hprocess, hquiet⟩ := storedRows_main hs hI.frameCount
  by_cases hst : IsStore s .main
  · obtain ⟨hrow, hnext⟩ := hstore hst
    rw [roundStores_store hst, List.map_append, hI.rows, hnext, List.range_succ, List.map_singleton,
      hrow]
  by_cases hpr : IsProcess s .main
  · rw [hprocess hpr, roundStores, if_pos hpr]
    rfl
  · rw [roundStores_quiet hst hpr, hI.rows, hquiet hst hpr]

/-- A store fills the next row of the matrix and leaves the stored rows alone. -/
theorem contents_store (hI : Bookkept h s) (hs : MainCase m s s') (hst : IsStore s .main)
    (hpc : s'.pc ≠ .calculate)
    (hstore : getOverlopSignal s.convertedValue s.pOverlapSignal g.sequenceLength s.frameCount =
      .ok s'.pOverlapSignal) :
    ∀ r t, (roundStores ((s, .main) :: h))[r]? = some t → ∀ i < g.sequenceLength,
      s'.pOverlapSignal.cell (overlapCell g.sequenceLength s'.pc r i) =
        .set ((t.convertedValue.value (i + 1)).toNat : MatrixElementType) := by
  have hpcs : s.pc ≠ .calculate := by
    rintro hpcs
    simp [IsStore, hpcs] at hst
  obtain ⟨hrow, hnext⟩ := (storedRows_main hs hI.frameCount).1 hst
  have hcells : ∀ p, s'.pOverlapSignal.cell p =
      if storeRow s * g.sequenceLength ≤ p ∧ p < storeRow s * g.sequenceLength + g.sequenceLength then
        .set ((s.convertedValue.value (p - storeRow s * g.sequenceLength + 1)).toNat : ℚ)
      else s.pOverlapSignal.cell p :=
    (getOverlopSignal_ensures hst.range.1 hst.range.2 hI.samples _).of_eq_ok hstore
  intro r t ht i hi
  rw [roundStores_store hst] at ht
  rw [overlapCell, if_neg hpc]
  rcases Nat.lt_trichotomy r (roundStores h).length with hr | rfl | hr
  · -- An earlier row: its cells lie before those of the new one.
    rw [List.getElem?_append_left hr] at ht
    have hold := hI.contents r t ht i hi
    rw [overlapCell, if_neg hpcs] at hold
    rw [hI.length_roundStores, ← hrow] at hr
    have hlt := rowMajor_lt hr hi
    rw [hcells, if_neg (by omega), hold]
  · rw [List.getElem?_concat_length] at ht
    cases ht
    rw [hI.length_roundStores, ← hrow, hcells, if_pos (by omega), Nat.add_sub_cancel_left]
  · rw [List.getElem?_eq_none (by rw [List.length_append, List.length_singleton]; omega)] at ht
    cases ht

theorem contents_main (hI : Bookkept h s) (hs : MainCase m s s') :
    ∀ r t, (roundStores ((s, .main) :: h))[r]? = some t → ∀ i < g.sequenceLength,
      s'.pOverlapSignal.cell (overlapCell g.sequenceLength s'.pc r i) =
        .set ((t.convertedValue.value (i + 1)).toNat : MatrixElementType) := by
  have hquiet : ¬IsStore s .main → s.pc ≠ .calculate → s'.pc ≠ .calculate →
      s'.pOverlapSignal = s.pOverlapSignal →
      ∀ r t, (roundStores ((s, .main) :: h))[r]? = some t → ∀ i < g.sequenceLength,
        s'.pOverlapSignal.cell (overlapCell g.sequenceLength s'.pc r i) =
          .set ((t.convertedValue.value (i + 1)).toNat : MatrixElementType) := by
    intro hst hpc hpc' hsame r t ht i hi
    rw [roundStores_quiet hst fun hpr => hpc hpr.2] at ht
    have hold := hI.contents r t ht i hi
    rw [overlapCell, if_neg hpc] at hold
    rw [hsame, overlapCell, if_neg hpc']
    exact hold
  have hcases := hs
  cases hs
  case rowStore b hpc hlow hhigh hstore =>
    exact hI.contents_store hcases ⟨rfl, .inl ⟨hpc, hlow, hhigh⟩⟩ nofun hstore
  case lastStore b hpc hcount hstore =>
    exact hI.contents_store hcases ⟨rfl, .inr ⟨hpc, hcount⟩⟩ nofun hstore
  case transposeOverlap b hpc htranspose =>
    have hcells := (transposingMatrix_square (hI.overlap_assigned (.inl hpc))).of_eq_ok htranspose
    intro r t ht i hi
    have hst : ¬IsStore s .main := by simp [IsStore, hpc]
    rw [roundStores_quiet hst (by simp [IsProcess, hpc])] at ht
    have hr : r < g.sequenceLength := by
      obtain ⟨hr, -⟩ := List.getElem?_eq_some_iff.mp ht
      rwa [hI.length_roundStores, hpc] at hr
    have hold := hI.contents r t ht i hi
    rw [overlapCell, if_neg (by rw [hpc]; exact nofun)] at hold
    rw [overlapCell, if_pos rfl, hcells.2 i r hi hr, hold]
  case calculate R hpc hmalloc hcalculate =>
    intro r t ht
    rw [roundStores, if_pos ⟨rfl, hpc⟩] at ht
    cases ht
  all_goals exact hquiet (by simp [IsStore, *]) (by simp [*]) nofun rfl

theorem recovery_main (hI : Bookkept h s) (hs : MainCase m s s') :
    s'.pc = .transposeRecovery ∨ s'.pc = .average → s'.pRecoverySignal.Assigned := by
  intro hpc'
  cases hs
  case calculate hpc hmalloc hcalculate =>
    have hoverlap := hI.overlap_assigned (.inr hpc)
    obtain ⟨r, hr, hstores⟩ := (calculate_ensures _ hoverlap m.pPrbsTemp_assigned).of_eq_ok
      hcalculate
    cases hr
    exact hstores.assigned
  case transposeRecovery hpc htranspose =>
    exact ((transposingMatrix_square (hI.recovery (.inl hpc))).of_eq_ok htranspose).1
  all_goals simp at hpc'

theorem average_main (hI : Bookkept h s) (hs : MainCase m s s')
    (htotal : g.totalFrame < g.sequenceLength) : s'.pAverageResult.Assigned := by
  cases hs
  case average hpc haverage =>
    exact ((Precision.getAverageSignal_ensures g.averageNumber g.errFrameNumber_le htotal
      (hI.recovery (.inr hpc)) (hI.average htotal)).of_eq_ok haverage).2.assigned
  all_goals exact hI.average htotal

/-- Starting the stream loads the count that fits the buffer. -/
theorem transfers_main (hI : Bookkept h s) (hs : MainCase m s s') : s'.stream.en = true →
    1 ≤ s'.stream.ndtr ∧ s'.stream.next + s'.stream.ndtr = g.sequenceLength + 1 := by
  have hstart : (s.stream.start g.sampleSize).en = true →
      1 ≤ (s.stream.start g.sampleSize).ndtr ∧ (s.stream.start g.sampleSize).next +
        (s.stream.start g.sampleSize).ndtr = g.sequenceLength + 1 := by
    intro
    unfold Stream.start
    split_ifs with hen
    · exact hI.transfers hen
    · simp [Globals.sampleSize]
  cases hs
  case initialBegin => exact hstart
  case startBegin => exact hstart
  case rowBegin => exact hstart
  all_goals exact hI.transfers

theorem samples_main (hI : Bookkept h s) (hs : MainCase m s s') : s'.convertedValue.Assigned := by
  cases hs <;> exact hI.samples

theorem main (hI : Bookkept h s) (hs : MainCase m s s') : Bookkept ((s, .main) :: h) s' where
  frameCount := hI.frameCount.main hs
  samples := hI.samples_main hs
  transfers := hI.transfers_main hs
  rows := hI.rows_main hs
  contents := hI.contents_main hs
  recovery := hI.recovery_main hs
  average := hI.average_main hs

/-- An interrupt touches the sample buffer, the stream and `flag` only. -/
theorem interrupt (hI : Bookkept h s) {e : Event} (hs : StepCase m s e s') (he : e ≠ .main) :
    Bookkept ((s, e) :: h) s' := by
  have hstores : roundStores ((s, e) :: h) = roundStores h :=
    roundStores_quiet (fun hst => he hst.1) fun hpr => he hpr.1
  have hsame := hs.undisturbed he
  refine ⟨by rw [hsame.pc, hsame.frameCount]; exact hI.frameCount, ?_, ?_,
    by rw [hstores, hsame.pc, hsame.frameCount, hI.rows], ?_,
    by rw [hsame.pc, hsame.recovery]; exact hI.recovery, by rw [hsame.average]; exact hI.average⟩
  · cases hs with
    | main => exact absurd rfl he
    | key => exact hI.samples
    | sample => exact hI.samples.put _ _
    | complete => exact hI.samples.put _ _
  · intro hen
    cases hs with
    | main => exact absurd rfl he
    | key => exact hI.transfers hen
    | sample v hen' hmore =>
      obtain ⟨-, hsum⟩ := hI.transfers hen'
      exact ⟨by dsimp only; omega, by dsimp only; omega⟩
    | complete => cases hen
  · rw [hstores, hsame.overlap, hsame.pc]
    exact hI.contents

theorem step (hI : Bookkept h s) {e : Event} (hs : StepCase m s e s') :
    Bookkept ((s, e) :: h) s' := by
  rcases hs.main_or_interrupt with ⟨rfl, hmain⟩ | he
  · exact hI.main hmain
  · exact hI.interrupt hs he

theorem initial (m : Setup g) : Bookkept [] (State.initial m) where
  frameCount := rfl
  samples := Buffer.assigned_fill 0
  transfers := nofun
  rows := rfl
  contents := nofun
  recovery := nofun
  average := fun _ => Buffer.assigned_fill 0

/-- The run lemma: the invariant holds after every run from the start. -/
theorem of_run (hrun : Run (Acquisition.step m) (State.initial m) h s) : Bookkept h s :=
  Run.invariant Bookkept (initial m) (fun _ _ _ _ _ hI hs => hI.step (step_cases hs)) hrun

/-- With the invariant, `main` can always take its next step, unless memory for
the result of `calculate` is missing or the frame list leaves the matrix. -/
theorem mainStep_ensures (hI : Bookkept h s) (hmalloc : s.pc = .calculate →
      s.heap.malloc (4 * (g.sequenceLength * g.sequenceLength)) ≠ none)
    (htotal : s.pc = .average → g.totalFrame < g.sequenceLength) :
    Ensures (mainStep m s) fun _ => True := by
  have hL := g.one_le_sequenceLength
  have hcount := hI.frameCount
  unfold mainStep
  split
  case h_4 hpc =>
    exact (productSendSequence_ensures le_rfl hL m.pPrbs_assigned _).bind fun _ _ => .ok trivial
  case h_9 hpc =>
    split_ifs with htest
    · exact (getOverlopSignal_ensures htest.1 (by omega) hI.samples _).bind fun _ _ => .ok trivial
    · exact .ok trivial
  case h_10 hpc =>
    rw [hpc] at hcount
    obtain ⟨hlow, hhigh⟩ := hcount
    exact (productSendSequence_ensures (by omega) hhigh m.pPrbs_assigned _).bind
      fun _ _ => .ok trivial
  case h_12 hpc =>
    split_ifs with htest
    · exact (getOverlopSignal_ensures (by omega) htest.le hI.samples _).bind
        fun _ _ => .ok trivial
    · exact .ok trivial
  case h_13 hpc =>
    exact (transposingMatrix_square (hI.overlap_assigned (.inl hpc))).bind fun _ _ => .ok trivial
  case h_14 hpc =>
    cases hgrant : s.heap.malloc (4 * (g.sequenceLength * g.sequenceLength)) with
    | none => exact absurd hgrant (hmalloc hpc)
    | some p =>
      simp only [callCalculate, hgrant]
      refine (calculate_ensures _ (hI.overlap_assigned (.inr hpc)) m.pPrbsTemp_assigned).bind ?_
      rintro _ ⟨r, rfl, -⟩
      exact .ok trivial
  case h_15 hpc =>
    exact (transposingMatrix_square (hI.recovery (.inl hpc))).bind fun _ _ => .ok trivial
  case h_16 hpc =>
    exact (Precision.getAverageSignal_ensures g.averageNumber g.errFrameNumber_le (htotal hpc)
      (hI.recovery (.inr hpc)) (hI.average (htotal hpc))).bind fun _ _ => .ok trivial
  all_goals exact .ok trivial

end Bookkept

/-- After every run of key presses, transfers, completions and steps of `main`:
between two passes of the loop `frameCount` is at most the sequence length; the
calls of `productSendSequence` and `getOverlopSignal` get a row of the matrix; no
access of the loop leaves its block or reads unassigned memory, except for a frame
list as long as the matrix; a transfer stays inside the sample buffer; and since
the last processing of a round the rows have been stored once each and in order, up
to the last one when a round is processed, whose matrix then holds, transposed,
exactly the frames of these stores. -/
theorem frameCount_bookkeeping (m : Setup g) {h : List (State g.sequenceLength × Event)}
    {s : State g.sequenceLength} (hrun : Run (step m) (State.initial m) h s) :
    (s.pc = .switch → s.frameCount ≤ g.sequenceLength) ∧
    (∀ f, loadArgument s = some f → 1 ≤ f ∧ f ≤ g.sequenceLength) ∧
    (IsStore s .main → 2 ≤ s.frameCount ∧ s.frameCount ≤ g.sequenceLength + 1) ∧
    (∀ f, mainStep m s = .error f →
      s.pc = .calculate ∧ f = .nullPointer ∨ s.pc = .average ∧ g.sequenceLength ≤ g.totalFrame) ∧
    (s.stream.en = true → s.stream.next < g.sequenceLength + 2) ∧
    (∃ k ≤ g.sequenceLength, (roundStores h).map storeRow = List.range k) ∧
    (s.pc = .calculate → (roundStores h).map storeRow = List.range g.sequenceLength ∧
      ∀ r t, (roundStores h)[r]? = some t → ∀ i < g.sequenceLength,
        s.pOverlapSignal.cell (i * g.sequenceLength + r) =
          .set ((t.convertedValue.value (i + 1)).toNat : MatrixElementType)) := by
  have hI := Bookkept.of_run hrun
  have hcount := hI.frameCount
  have hL := g.one_le_sequenceLength
  refine ⟨fun hpc => ?_, fun f hf => ?_, IsStore.range, fun f hf => ?_, fun hen => ?_,
    ⟨_, ?_, hI.rows⟩, fun hpc => ⟨?_, fun r t ht i hi => ?_⟩⟩
  · rwa [hpc] at hcount
  · unfold loadArgument at hf
    split at hf
    · cases hf
      exact ⟨le_rfl, hL⟩
    · cases hf
      rename_i hpc
      rw [hpc] at hcount
      exact ⟨(show 1 ≤ 2 by omega).trans hcount.1, hcount.2⟩
    · cases hf
  · by_cases hcalc : s.pc = .calculate
    · refine .inl ⟨hcalc, ?_⟩
      cases hmalloc : s.heap.malloc (4 * (g.sequenceLength * g.sequenceLength)) with
      | none =>
        rw [mainStep, hcalc] at hf
        change callCalculate m s = _ at hf
        rw [callCalculate_of_malloc_none m hmalloc] at hf
        cases hf
        rfl
      | some p =>
        exact absurd hf (hI.mainStep_ensures (fun _ => by rw [hmalloc]; exact nofun)
          fun hav => by rw [hcalc] at hav; cases hav).ne_error
    · refine .inr (Classical.byContradiction fun hnot => ?_)
      exact absurd hf (hI.mainStep_ensures (fun h => absurd h hcalc)
        fun hav => Nat.lt_of_not_le fun hle => hnot ⟨hav, hle⟩).ne_error
  · obtain ⟨hpos, hsum⟩ := hI.transfers hen
    omega
  · cases hpc : s.pc <;> simp only [hpc, FrameCountAt, storedRows] at hcount ⊢ <;> omega
  · rw [hI.rows, hpc]
    rfl
  · have hcell := hI.contents r t ht i hi
    rwa [overlapCell, if_pos hpc] at hcell

/-- The first round of order four. -/
theorem frameCount_bookkeeping_first_round :
    ∃ h s, Run (step setupFour) (State.initial setupFour) h s ∧ s.pc = .calculate ∧
      (roundStores h).map storeRow = [0, 1, 2] := by
  obtain ⟨h, s, hrun, hpc⟩ := exists_run_of_exec (step setupFour) (State.initial setupFour)
    firstRoundFour (fun _ s => s.pc = .calculate) (by decide +kernel)
  obtain ⟨-, -, -, -, -, -, hround⟩ := frameCount_bookkeeping setupFour hrun
  exact ⟨h, s, hrun, hpc, (hround hpc).1⟩

end HadamardIMS.Acquisition
