import HadamardIMS.Completions
import HadamardIMS.HeapUse

/-!
# What `main` does while nobody presses the key

A request to start a frame, the frame that the stream collects and the frame that `main`
handles are carried on by steps that need no key. Each of them gets nearer to the end of a
round, whatever the order of the steps, and a round hands nothing over to the next one. So
without the key the loop comes to rest, and it does so where it began.
-/
namespace HadamardIMS.Acquisition

open Buffers Runs Signals

variable {L : ℕ} {g : Globals} {m : Setup g}

/-- The step is not a pass of the loop that finds `flag` neither 0 nor 2. -/
def Busy (s : State L) (e : Event) : Prop :=
  ¬(e = .main ∧ s.pc = .switch ∧ s.flag ≠ 0 ∧ s.flag ≠ 2)

instance (s : State L) (e : Event) : Decidable (Busy s e) := inferInstanceAs (Decidable (¬_))

/-- Nobody presses the key. -/
def Unpressed (_ : State L) (e : Event) : Prop := e ≠ .key

instance (s : State L) (e : Event) : Decidable (Unpressed s e) :=
  inferInstanceAs (Decidable (_ ≠ _))

/-! ## The frames under way -/

/-- At these places the next step of `main` overwrites `flag`. -/
def Resets (pc : Pc) : Prop := pc = .startReset ∨ pc = .doneReset

instance (pc : Pc) : Decidable (Resets pc) := inferInstanceAs (Decidable (_ ∨ _))

/-- The frame that `main` starts, counts, stores or processes here. -/
def handled (L : ℕ) (pc : Pc) (frameCount : ℕ) : ℕ :=
  match pc with
  | .switch => 0
  | .rowTest => if frameCount = 1 then 0 else 1
  | .roundTest => if frameCount = L + 1 then 1 else 0
  | _ => 1

/-- The request or the completion that `flag` holds. -/
def requested (pc : Pc) (flag : ℕ) : ℕ :=
  if Resets pc then 0 else if flag = 0 ∨ flag = 2 then 1 else 0

/-- The frames under way: one with `main`, one in `flag` and one with the stream at most. -/
def underWay (s : State L) : ℕ :=
  handled L s.pc s.frameCount + requested s.pc s.flag + s.stream.en.toNat

/-- The frames that are counted until none is under way: each but the last one of a round
brings on the next. -/
def framesLeft (s : State L) : ℕ := L * underWay s + 1 - s.frameCount

/-- The steps that `main` needs from here to the next place at which the stream or `flag`
carries the frame, or to the end of the round. -/
def placeSteps (L : ℕ) (pc : Pc) (frameCount : ℕ) : ℕ :=
  match pc with
  | .initialBegin => L + 5
  | .switch => 0
  | .startReset => L + 7
  | .startLoad => L + 6
  | .startBegin => L + 5
  | .doneReset => 2
  | .doneCount => 1
  | .firstTest => L + 11
  | .rowTest => if frameCount = 1 then 2 else L + 8
  | .rowLoad => L + 7
  | .rowBegin => L + 6
  | .roundTest => if frameCount = L + 1 then 7 else 1
  | .transposeOverlap => 6
  | .calculate => 5
  | .transposeRecovery => 4
  | .average => 3
  | .report => 2
  | .restart => 1

def flagSteps (L : ℕ) (pc : Pc) (flag : ℕ) : ℕ :=
  if Resets pc then 0 else if flag = 0 then L + 8 else if flag = 2 then 3 else 0

def streamSteps (t : Stream) : ℕ := if t.en then 3 + t.ndtr else 0

def stepsLeft (s : State L) : ℕ :=
  placeSteps L s.pc s.frameCount + flagSteps L s.pc s.flag + streamSteps s.stream

/-- The work that is left until nothing is under way. -/
def work (s : State L) : ℕ := (L + 11) * framesLeft s + stepsLeft s

theorem work_lt {s s' : State L} (hframes : framesLeft s' ≤ framesLeft s)
    (hsteps : stepsLeft s' < stepsLeft s) : work s' < work s :=
  Nat.add_lt_add_of_le_of_lt (Nat.mul_le_mul_left _ hframes) hsteps

/-- The increment of the counter pays for the way to the next frame. -/
theorem work_lt_of_count {s s' : State L} (hframes : framesLeft s' < framesLeft s)
    (hsteps : stepsLeft s' < stepsLeft s + (L + 11)) : work s' < work s := by
  have hmul : (L + 11) * (framesLeft s' + 1) ≤ (L + 11) * framesLeft s :=
    Nat.mul_le_mul_left _ hframes
  rw [Nat.mul_succ] at hmul
  unfold work
  omega

theorem framesLeft_le {s s' : State L} (hunder : underWay s' ≤ underWay s)
    (hcount : s'.frameCount = s.frameCount) : framesLeft s' ≤ framesLeft s := by
  have hmul := Nat.mul_le_mul_left L hunder
  unfold framesLeft
  omega

@[simp] theorem start_en (t : Stream) (number : ℕ) : (t.start number).en = true := by
  unfold Stream.start
  split_ifs with hen
  · exact hen
  · rfl

/-- A stream that is enabled already keeps its count. -/
theorem streamSteps_start_le (t : Stream) (number : ℕ) :
    streamSteps (t.start number) ≤ streamSteps t + (3 + number) := by
  unfold Stream.start
  split_ifs
  · exact Nat.le_add_right _ _
  · exact Nat.le_add_left _ _

section Step

variable {s s' : State g.sequenceLength} {e : Event}

/-- What a step without the key does to the frames under way and the steps left. -/
inductive Advances (s s' : State L) : Prop
  | nearer (hframes : s'.frameCount = s.frameCount) (hunder : underWay s' ≤ underWay s)
      (hsteps : stepsLeft s' < stepsLeft s)
  | counted (hpc : s.pc = .doneCount) (hframes : s'.frameCount = s.frameCount + 1)
      (hunder : underWay s' = underWay s) (hsteps : stepsLeft s' < stepsLeft s + (L + 11))
  | completed (hpc : s.pc = .restart) (hframes : s'.frameCount = 1)
      (hunder : underWay s' + 1 = underWay s) (hsteps : stepsLeft s' < stepsLeft s)

theorem MainCase.advances (h : MainCase m s s')
    (hcount : FrameCountAt g.sequenceLength s.pc s.frameCount) (hbusy : Busy s .main) :
    Advances s s' := by
  have hL := g.one_le_sequenceLength
  cases h with
  | switchIdle hpc hstart hdone => exact absurd ⟨rfl, hpc, hstart, hdone⟩ hbusy
  | doneCount hpc =>
    refine .counted hpc rfl ?_ ?_
    · simp [underWay, handled, requested, Resets, hpc]
    · simp [stepsLeft, placeSteps, flagSteps, Resets, hpc]
      omega
  | restart hpc =>
    refine .completed hpc rfl ?_ ?_
    · simp [underWay, handled, requested, Resets, hpc]
      omega
    · simp [stepsLeft, placeSteps, flagSteps, Resets, hpc]
  | initialBegin hpc | startBegin hpc =>
    have hstream := streamSteps_start_le s.stream (g.sequenceLength + 1)
    refine .nearer rfl ?_ ?_
    · simp [underWay, handled, requested, Resets, hpc]
      omega
    · simp [stepsLeft, placeSteps, flagSteps, Resets, Globals.sampleSize, hpc]
      omega
  | rowBegin hpc =>
    have hstream := streamSteps_start_le s.stream (g.sequenceLength + 1)
    simp only [FrameCountAt, hpc] at hcount
    have hopen : s.frameCount ≠ g.sequenceLength + 1 := by omega
    refine .nearer rfl ?_ ?_
    · simp [underWay, handled, requested, Resets, hpc, hopen]
      omega
    · simp [stepsLeft, placeSteps, flagSteps, Resets, Globals.sampleSize, hpc, hopen]
      omega
  | firstFrame hpc hone =>
    refine .nearer rfl ?_ ?_
    · simp [underWay, handled, requested, Resets, hpc, hone]
    · simp [stepsLeft, placeSteps, flagSteps, Resets, hpc, hone]
      omega
  | rowSkip hpc hskip =>
    simp only [FrameCountAt, hpc] at hcount
    refine .nearer rfl ?_ ?_
    all_goals
      simp [underWay, handled, requested, stepsLeft, placeSteps, flagSteps, Resets, hpc]
    all_goals split_ifs <;> omega
  | rowLoad hpc | rowStore hpc =>
    refine .nearer rfl ?_ ?_
    all_goals
      simp [underWay, handled, requested, stepsLeft, placeSteps, flagSteps, Resets, hpc]
    all_goals split_ifs <;> omega
  | _ =>
    refine .nearer rfl ?_ ?_
    all_goals
      simp [underWay, handled, requested, stepsLeft, placeSteps, flagSteps, Resets, *]

/-- A transfer, and the completion that hands the frame over to `flag`. -/
theorem StepCase.advances (h : StepCase m s e s')
    (hcount : FrameCountAt g.sequenceLength s.pc s.frameCount) (hkey : e ≠ .key)
    (hbusy : Busy s e) : Advances s s' := by
  cases h with
  | main h => exact h.advances hcount hbusy
  | key => exact absurd rfl hkey
  | sample v hen hmore hroom =>
    refine .nearer rfl ?_ ?_
    · simp [underWay, hen]
    · simp [stepsLeft, streamSteps, hen]
      omega
  | complete v hen hlast hroom =>
    refine .nearer rfl ?_ ?_
    · simp only [underWay, requested, hen, Bool.toNat_true, Bool.toNat_false]
      split_ifs <;> omega
    · simp [stepsLeft, streamSteps, flagSteps, hen, hlast]
      split_ifs <;> omega

/-- With nothing under way `main` is at the beginning of a round. -/
def RestsAtStart (s : State L) : Prop := underWay s = 0 → s.pc = .switch ∧ s.frameCount = 1

theorem handled_le_one (L : ℕ) (pc : Pc) (frameCount : ℕ) : handled L pc frameCount ≤ 1 := by
  unfold handled
  split
  case h_1 => exact Nat.zero_le 1
  case h_2 => split_ifs <;> omega
  case h_3 => split_ifs <;> omega
  case h_4 => exact le_rfl

theorem requested_le_one (pc : Pc) (flag : ℕ) : requested pc flag ≤ 1 := by
  unfold requested
  split_ifs <;> omega

/-- A request is under way from the interrupt that raises it on. -/
theorem underWay_ne_zero_of_flag (hflag : s.flag = 0 ∨ s.flag = 2) : underWay s ≠ 0 := by
  by_cases hresets : Resets s.pc
  · rcases hresets with hpc | hpc <;> simp [underWay, handled, hpc]
  · simp [underWay, requested, hresets, hflag]

theorem underWay_ne_zero_of_en (hen : s.stream.en = true) : underWay s ≠ 0 := by
  simp [underWay, hen]

/-- Whatever the order of the steps, the key included, a frame that is under way is carried on,
or it ends a round. -/
theorem StepCase.carries (hs : StepCase m s e s')
    (hcount : FrameCountAt g.sequenceLength s.pc s.frameCount) (hnone : underWay s' = 0) :
    underWay s = 0 ∨ s.pc = .restart ∧ s'.pc = .switch ∧ s'.frameCount = 1 := by
  cases hs with
  | main hs =>
    cases hs with
    | restart hpc => exact .inr ⟨hpc, rfl, rfl⟩
    | switchIdle hpc => exact .inl <| hnone ▸ by simp [underWay, hpc]
    | roundOpen hpc hopen =>
      exact .inl <| hnone ▸ by simp [underWay, handled, requested, Resets, hpc, hopen]
    | rowSkip hpc hskip =>
      simp only [FrameCountAt, hpc] at hcount
      have hL := Nat.one_le_iff_ne_zero.mp g.one_le_sequenceLength
      have hone : s.frameCount = 1 ∨ s.frameCount = g.sequenceLength + 1 := by omega
      rcases hone with hone | hone
      · exact .inl <| hnone ▸ by simp [underWay, handled, requested, Resets, hpc, hone, hL]
      · simp [underWay, handled, hone] at hnone
    | firstFrame => exact absurd hnone (underWay_ne_zero_of_flag (.inl rfl))
    | initialBegin | startBegin | rowBegin =>
      exact absurd hnone (underWay_ne_zero_of_en (start_en _ _))
    | _ => simp [underWay, handled, *] at hnone
  | key => exact absurd hnone (underWay_ne_zero_of_flag (.inl rfl))
  | sample => exact absurd hnone (underWay_ne_zero_of_en rfl)
  | complete => exact absurd hnone (underWay_ne_zero_of_flag (.inr rfl))

theorem RestsAtStart.step (h : RestsAtStart s) (hs : StepCase m s e s')
    (hcount : FrameCountAt g.sequenceLength s.pc s.frameCount) : RestsAtStart s' := by
  intro hnone
  rcases hs.carries hcount hnone with hzero | ⟨-, hpc, hone⟩
  · obtain ⟨hpc, hone⟩ := h hzero
    cases hs with
    | main hs =>
      cases hs with
      | switchIdle => exact ⟨rfl, hone⟩
      | _ => simp_all [underWay, handled]
    | key => exact absurd hnone (underWay_ne_zero_of_flag (.inl rfl))
    | sample => exact absurd hnone (underWay_ne_zero_of_en rfl)
    | complete => exact absurd hnone (underWay_ne_zero_of_flag (.inr rfl))
  · exact ⟨hpc, hone⟩

/-- The way through the processing branch ends a round and takes a frame with it, and the
increment of the counter pays for the way to the next one. -/
theorem Advances.work_lt (h : Advances s s')
    (hcount : FrameCountAt g.sequenceLength s.pc s.frameCount) : work s' < work s := by
  cases h with
  | nearer hframes hunder hsteps =>
    exact Acquisition.work_lt (framesLeft_le hunder hframes) hsteps
  | counted hpc hframes hunder hsteps =>
    refine work_lt_of_count ?_ hsteps
    simp only [hpc, FrameCountAt] at hcount
    have hone : 1 ≤ underWay s := by
      simp [underWay, handled, hpc]
      omega
    have hmul := Nat.mul_le_mul_left g.sequenceLength hone
    rw [framesLeft, framesLeft, hframes, hunder]
    omega
  | completed hpc hframes hunder hsteps =>
    refine Acquisition.work_lt (le_of_eq ?_) hsteps
    simp only [hpc, FrameCountAt] at hcount
    rw [framesLeft, framesLeft, hframes, hcount, ← hunder, Nat.mul_succ]
    omega

end Step

section Run

variable {h : List (State g.sequenceLength × Event)} {s s' : State g.sequenceLength}

theorem RestsAtStart.of_run (hrun : Run (Acquisition.step m) (State.initial m) h s) :
    RestsAtStart s := by
  refine hrun.invariant (fun _ s => RestsAtStart s) ?_ ?_
  · simp [RestsAtStart, underWay, handled, State.initial]
  · intro h s e s' hrun hrest hs
    exact hrest.step (step_cases hs) (Bookkept.of_run hrun).frameCount

/-- Some run from the start reaches the state. -/
def Reached (m : Setup g) (s : State g.sequenceLength) : Prop :=
  ∃ h, Run (step m) (State.initial m) h s

/-- A pass of the loop that finds nothing to do changes nothing. -/
theorem eq_of_not_busy {e : Event} (hs : step m s e = some s') (hidle : ¬Busy s e) : s' = s := by
  obtain ⟨rfl, hpc, hstart, hdone⟩ := not_not.mp hidle
  have hread : step m s .main = some { s with pc := .switch } := by
    simp [step, mainStep, hpc, hstart, hdone, Except.toOption]
  rw [hread, ← hpc] at hs
  exact (Option.some.inj hs).symm

/-- Without the key each step but an idle one lowers the work. -/
theorem works (m : Setup g) : Works (step m) (Reached m) Unpressed Busy work where
  invariant := fun s e s' ⟨h, hrun⟩ _ hs => ⟨_, hrun.next hs⟩
  lt := fun s e s' ⟨h, hrun⟩ hkey hs hbusy => by
    have hcount := (Bookkept.of_run hrun).frameCount
    exact ((step_cases hs).advances hcount hkey hbusy).work_lt hcount
  le := fun s e s' ⟨h, hrun⟩ hkey hs => by
    have hcount := (Bookkept.of_run hrun).frameCount
    by_cases hbusy : Busy s e
    · exact (((step_cases hs).advances hcount hkey hbusy).work_lt hcount).le
    · exact (eq_of_not_busy hs hbusy ▸ le_rfl)

theorem placeSteps_le (L : ℕ) (pc : Pc) (frameCount : ℕ) : placeSteps L pc frameCount ≤ L + 11 := by
  cases pc <;> simp only [placeSteps] <;> (try split_ifs) <;> omega

/-- In no state is there more work left than this. -/
theorem work_le (hrun : Run (step m) (State.initial m) h s) :
    work s ≤ (g.sequenceLength + 1) * (3 * g.sequenceLength + 34) := by
  have hunder : underWay s ≤ 3 :=
    Nat.add_le_add (Nat.add_le_add (handled_le_one _ _ _) (requested_le_one _ _)) (Bool.toNat_le _)
  have hframes : framesLeft s ≤ 3 * g.sequenceLength + 1 := by
    have hmul := Nat.mul_le_mul_left g.sequenceLength hunder
    unfold framesLeft
    omega
  have hflag : flagSteps g.sequenceLength s.pc s.flag ≤ g.sequenceLength + 8 := by
    unfold flagSteps
    split_ifs <;> omega
  have hstream : streamSteps s.stream ≤ g.sequenceLength + 4 := by
    unfold streamSteps
    split_ifs with hen
    · have htransfers := (Bookkept.of_run hrun).transfers hen
      omega
    · exact Nat.zero_le _
  have hplace := placeSteps_le g.sequenceLength s.pc s.frameCount
  calc work s ≤ (g.sequenceLength + 11) * (3 * g.sequenceLength + 1) +
        (3 * g.sequenceLength + 23) := by
        refine Nat.add_le_add (Nat.mul_le_mul_left _ hframes) ?_
        unfold stepsLeft
        omega
    _ = (g.sequenceLength + 1) * (3 * g.sequenceLength + 34) := by ring

/-- `main` waits for the key at the beginning of a round. -/
structure AwaitsKey (s : State L) : Prop where
  pc : s.pc = .switch
  start : s.flag ≠ 0
  done : s.flag ≠ 2
  frameCount : s.frameCount = 1
  idle : s.stream.en = false

/-- There is no memory for the result of `calculate`, or the frame list leaves the matrix. -/
def Fails (s : State g.sequenceLength) : Prop :=
  s.pc = .calculate ∧ s.heap.malloc (4 * (g.sequenceLength * g.sequenceLength)) = none ∨
    s.pc = .average ∧ g.sequenceLength ≤ g.totalFrame

/-- A stream that is enabled can move a value. -/
theorem exists_transfer (hI : Bookkept h s) (hen : s.stream.en = true) :
    ∃ e, e ≠ .key ∧ e ≠ .main ∧ (step m s e).isSome := by
  obtain ⟨hpos, hsum⟩ := hI.transfers hen
  have hroom : s.stream.next < g.sequenceLength + 2 := by omega
  have htransfer : transfer 0 s = .ok { s with
      convertedValue := s.convertedValue.put s.stream.next 0
      stream := ⟨s.stream.en, s.stream.ndtr - 1, s.stream.next + 1⟩ } := by
    rw [transfer, Buffer.write_of_lt _ _ hroom, Loops.ok_bind]
  rcases hpos.eq_or_lt with hlast | hmore
  · refine ⟨.complete 0, by simp, by simp, ?_⟩
    rw [step, if_pos ⟨hen, hlast.symm⟩, htransfer]
    rfl
  · refine ⟨.sample 0, by simp, by simp, ?_⟩
    rw [step, if_pos ⟨hen, hmore⟩, htransfer]
    rfl

/-- Where nothing is left to do without the key. -/
theorem awaitsKey_of_settled (hrun : Run (step m) (State.initial m) h s)
    (hsettled : Settled (step m) Unpressed Busy s) : AwaitsKey s ∨ Fails s := by
  have hI := Bookkept.of_run hrun
  have hen : s.stream.en = false := by
    by_contra hen
    rw [Bool.not_eq_false] at hen
    obtain ⟨e, hkey, hmain, hs⟩ := exists_transfer (m := m) hI hen
    obtain ⟨s', hs⟩ := Option.isSome_iff_exists.mp hs
    exact hsettled e s' hkey hs fun hidle => hmain hidle.1
  by_cases hfails : Fails s
  · exact .inr hfails
  · left
    obtain ⟨t, ht, -⟩ := hI.mainStep_ensures (m := m)
      (fun hpc hnone => hfails (.inl ⟨hpc, hnone⟩))
      fun hpc => Nat.lt_of_not_le fun hle => hfails (.inr ⟨hpc, hle⟩)
    have hidle := hsettled .main t (by simp [Unpressed]) (step_main ht)
    obtain ⟨-, hpc, hstart, hdone⟩ := not_not.mp hidle
    have hnone : underWay s = 0 := by simp [underWay, handled, requested, hpc, hstart, hdone, hen]
    exact ⟨hpc, hstart, hdone, (RestsAtStart.of_run hrun hnone).2, hen⟩

theorem AwaitsKey.settled (h : AwaitsKey s) : Settled (step m) Unpressed Busy s := by
  intro e s' hkey hs hbusy
  refine hbusy ⟨?_, h.pc, h.start, h.done⟩
  cases step_cases hs with
  | main => rfl
  | key => exact absurd rfl hkey
  | sample v hen | complete v hen => exact absurd (h.idle.symm.trans hen) Bool.false_ne_true

/-- In whatever order `main`, the transfers and the completions take their turns, a run without
the key takes a bounded number of steps other than idle passes of the loop. It can always be
continued until nothing else is left, and then `main` waits for the key at the beginning of a
round, unless `calculate` or `getAverageSignal` fails. -/
theorem keyless_run_returns (m : Setup g) {h₀ h : List (State g.sequenceLength × Event)}
    {s t : State g.sequenceLength} (hreached : Run (step m) (State.initial m) h₀ s)
    (hrun : Run (step m) s h t) (hkeyless : ∀ p ∈ h, Unpressed p.1 p.2) :
    h.countP (fun p => Busy p.1 p.2) ≤ (g.sequenceLength + 1) * (3 * g.sequenceLength + 34) ∧
      (∃ u, Leads (step m) Unpressed t u ∧ Settled (step m) Unpressed Busy u) ∧
      (Settled (step m) Unpressed Busy t → AwaitsKey t ∨ Fails t) := by
  obtain ⟨⟨h', hrun'⟩, hwork⟩ := (works m).countP_le ⟨h₀, hreached⟩ hrun hkeyless
  refine ⟨?_, (works m).exists_settled ⟨h', hrun'⟩, awaitsKey_of_settled hrun'⟩
  have hle := work_le hreached
  omega

/-- The first round of order four, up to the call of `calculate`. -/
theorem keyless_run_returns_first_round :
    ∃ h t, Run (step setupFour) (State.initial setupFour) h t ∧ t.pc = .calculate ∧
      h.countP (fun p => Busy p.1 p.2) ≤ 172 ∧
      ∃ u, Leads (step setupFour) Unpressed t u ∧ Settled (step setupFour) Unpressed Busy u := by
  obtain ⟨h, t, hrun, hpc, hkeyless⟩ := exists_run_of_exec (step setupFour)
    (State.initial setupFour) firstRoundFour
    (fun h t => t.pc = .calculate ∧ ∀ p ∈ h, Unpressed p.1 p.2) (by decide +kernel)
  obtain ⟨hbusy, hsettles, -⟩ := keyless_run_returns setupFour .start hrun hkeyless
  exact ⟨h, t, hrun, hpc, hbusy, hsettles⟩

/-! ## One press, one round -/

/-- The round that a press has started. -/
inductive OneRound (h : List (State L × Event)) (s : State L) : Prop
  | collecting (hunder : underWay s = 1) (hreset : s.pc = .startReset → s.flag ≠ 2)
      (hcount : completions h + 1 = s.frameCount + pendingCompletions s)
      (hrounds : completedRounds h = 0)
  | done (hawaits : AwaitsKey s) (hcount : completions h = L) (hrounds : completedRounds h = 1)

theorem completions_cons (s : State L) (e : Event) (h : List (State L × Event)) :
    completions ((s, e) :: h) = completions h + if IsCompletion e then 1 else 0 :=
  List.countP_cons

theorem completedRounds_cons (s : State L) (e : Event) (h : List (State L × Event)) :
    completedRounds ((s, e) :: h) =
      completedRounds h + if e = .main ∧ s.pc = .restart then 1 else 0 := by
  simp [completedRounds, List.countP_cons]

/-- The counter moves in one place, but for the end of a round. -/
theorem StepCase.frameCount_eq {e : Event} (hs : StepCase m s e s') (hpc : s.pc ≠ .restart) :
    s'.frameCount = s.frameCount + if IsIncrement s e then 1 else 0 := by
  cases hs with
  | main hs => cases hs <;> simp_all [IsIncrement]
  | key | sample | complete => simp [IsIncrement]

/-- A frame that is alone under way is not lost. -/
theorem not_overwrites {e : Event} (hs : StepCase m s e s') (hkey : e ≠ .key)
    (hunder : underWay s = 1) (hreset : s.pc = .startReset → s.flag ≠ 2) :
    Overwrites s e = false := by
  cases hs with
  | main =>
    refine decide_eq_false ?_
    rintro ⟨hflag, hpc | ⟨hpc, hone⟩⟩
    · exact hreset hpc hflag
    · simp [underWay, handled, requested, Resets, hpc, hflag] at hunder
      omega
  | key => exact absurd rfl hkey
  | sample => rfl
  | complete v hen =>
    refine decide_eq_false ?_
    have hother : handled g.sequenceLength s.pc s.frameCount + requested s.pc s.flag = 0 := by
      simpa [underWay, hen] using hunder
    rintro (hflag | hpc)
    · refine underWay_ne_zero_of_flag (s := { s with stream.en := false }) (.inr hflag) ?_
      simpa [underWay] using hother
    · simp [handled, hpc] at hother

theorem OneRound.step {e : Event} (hreached : Run (Acquisition.step m) (State.initial m) h s)
    {h' : List (State g.sequenceLength × Event)} (hI : OneRound h' s) (hkey : e ≠ .key)
    (hs : Acquisition.step m s e = some s') : OneRound ((s, e) :: h') s' := by
  have hcase := step_cases hs
  have hframes := (Bookkept.of_run hreached).frameCount
  cases hI with
  | done hawaits hcount hrounds =>
    have hidle := hawaits.settled e s' hkey hs
    obtain rfl := eq_of_not_busy hs hidle
    obtain ⟨rfl, -⟩ := not_not.mp hidle
    refine .done hawaits ?_ ?_
    · rw [completions_cons, hcount]
      rfl
    · rw [completedRounds_cons, hrounds, if_neg (by simp [hawaits.pc])]
  | collecting hunder hreset hcount hrounds =>
    have hpending := completions_step hcase
    rw [not_overwrites hcase hkey hunder hreset] at hpending
    by_cases hrestart : s.pc = .restart
    · -- The round ends here.
      cases hcase with
      | main hmain =>
        rw [hrestart] at hframes
        have hlast : s.frameCount = g.sequenceLength + 1 := hframes
        have hflag : ¬(s.flag = 0 ∨ s.flag = 2) := by
          rintro hflag
          simp [underWay, handled, requested, Resets, hrestart, hflag] at hunder
          omega
        obtain ⟨hstart, hdone⟩ := not_or.mp hflag
        have hen : s.stream.en = false := by
          simpa [underWay, handled, requested, Resets, hrestart, hflag] using hunder
        cases hmain with
        | restart =>
          refine .done ⟨rfl, hstart, hdone, rfl, hen⟩ ?_ ?_
          · have hnone : pendingCompletions s = 0 := by
              simp [pendingCompletions, hrestart, hdone]
            rw [completions_cons]
            simp only [IsCompletion, Bool.false_eq_true, if_false]
            omega
          · rw [completedRounds_cons, hrounds, if_pos ⟨rfl, hrestart⟩]
        | _ => simp_all
      | key => exact absurd rfl hkey
      | sample v hen | complete v hen => simp [underWay, handled, hrestart, hen] at hunder
    · have hle : underWay s' ≤ 1 := by
        by_cases hbusy : Busy s e
        · cases hcase.advances hframes hkey hbusy with
          | nearer _ hle => exact hunder ▸ hle
          | counted _ _ heq => exact (heq.trans hunder).le
          | completed hpc => exact absurd hpc hrestart
        · rw [eq_of_not_busy hs hbusy]
          exact hunder.le
      have hne : underWay s' ≠ 0 := fun hnone =>
        (hcase.carries hframes hnone).elim (fun hzero => by omega) fun hpc => hrestart hpc.1
      refine .collecting (by omega) ?_ ?_ ?_
      · intro hpc
        cases hcase with
        | main hmain => cases hmain <;> simp_all
        | key => exact absurd rfl hkey
        | sample => exact hreset hpc
        | complete v hen =>
          have hpc : s.pc = .startReset := hpc
          simp [underWay, handled, hpc, hen] at hunder
      · rw [completions_cons, hcase.frameCount_eq hrestart]
        simp only [Bool.false_eq_true, if_false] at hpending
        omega
      · rw [completedRounds_cons, hrounds, if_neg fun hlast => hrestart hlast.2]

theorem OneRound.start (hs : RoundStart s) : OneRound [] s := by
  refine .collecting ?_ ?_ ?_ rfl
  · simp [underWay, handled, requested, Resets, hs.pc, hs.flag, hs.idle]
  · simp [hs.pc]
  · simp [completions, pendingCompletions, hs.pc, hs.flag, hs.frameCount]

/-- With one frame under way a completion that is still to be counted leaves room for it. -/
theorem frameCount_add_pending_le (hunder : underWay s = 1)
    (hcount : FrameCountAt g.sequenceLength s.pc s.frameCount) :
    s.frameCount + pendingCompletions s ≤ g.sequenceLength + 1 := by
  have hL := g.one_le_sequenceLength
  cases hpc : s.pc <;>
    grind [underWay, handled, requested, Resets, pendingCompletions, FrameCountAt]

/-- No more completions than rows, and no more than one round. -/
theorem OneRound.bounds {h' : List (State g.sequenceLength × Event)} (hI : OneRound h' s)
    (hcount : FrameCountAt g.sequenceLength s.pc s.frameCount) :
    completions h' ≤ g.sequenceLength ∧ completedRounds h' ≤ 1 := by
  cases hI with
  | done _ hcompletions hrounds => exact ⟨hcompletions.le, hrounds.le⟩
  | collecting hunder _ hcompletions hrounds =>
    have hle := frameCount_add_pending_le hunder hcount
    exact ⟨by omega, by omega⟩

/-- A press of the key at the beginning of a round starts this round and no other: whatever the
order of the steps that follow without the key, at most as many frames complete as the matrix
has rows and the round is processed at most once; and when nothing is left to do, exactly as
many frames have completed, the round has been processed, and `main` waits for the key again,
unless `calculate` or `getAverageSignal` fails. -/
theorem press_starts_one_round (m : Setup g) {h₀ h : List (State g.sequenceLength × Event)}
    {s t : State g.sequenceLength} (hreached : Run (step m) (State.initial m) h₀ s)
    (hstart : RoundStart s) (hrun : Run (step m) s h t)
    (hkeyless : ∀ p ∈ h, Unpressed p.1 p.2) :
    h.countP (fun p => Busy p.1 p.2) ≤
        g.sequenceLength * g.sequenceLength + 12 * g.sequenceLength + 8 ∧
      completions h ≤ g.sequenceLength ∧ completedRounds h ≤ 1 ∧
      (Settled (step m) Unpressed Busy t → Fails t ∨
        AwaitsKey t ∧ completions h = g.sequenceLength ∧ completedRounds h = 1) := by
  have hround : OneRound h t := by
    refine hrun.invariant_of_guarded OneRound Unpressed (.start hstart) ?_ hkeyless
    intro h s e s' hrun hI hkey hs
    exact hI.step (hreached.trans hrun) hkey hs
  have hreached' := hreached.trans hrun
  have hbounds := hround.bounds (Bookkept.of_run hreached').frameCount
  refine ⟨?_, hbounds.1, hbounds.2, fun hsettled => ?_⟩
  · obtain ⟨-, hwork⟩ := (works m).countP_le ⟨h₀, hreached⟩ hrun hkeyless
    have hstarted : work s =
        g.sequenceLength * g.sequenceLength + 12 * g.sequenceLength + 8 := by
      simp [work, framesLeft, stepsLeft, underWay, handled, requested, placeSteps, flagSteps,
        streamSteps, Resets, hstart.pc, hstart.flag, hstart.frameCount, hstart.idle]
      ring
    omega
  · rcases awaitsKey_of_settled hreached' hsettled with hawaits | hfails
    · cases hround with
      | done _ hcount hrounds => exact .inr ⟨hawaits, hcount, hrounds⟩
      | collecting hunder =>
        have hnone : underWay t = 0 := by
          simp [underWay, handled, requested, hawaits.pc, hawaits.start, hawaits.done,
            hawaits.idle]
        omega
    · exact .inl hfails

/-- The first round of order four, up to the place where `main` waits again. -/
theorem press_starts_one_round_first_round :
    ∃ s h t, Run (step setupFour) s h t ∧ RoundStart s ∧ AwaitsKey t ∧ completions h = 3 ∧
      completedRounds h = 1 := by
  obtain ⟨h₀, s, h, t, hreached, hrun, hstart, hawaits, hkeyless⟩ := exists_runs_of_exec
    (step setupFour) (State.initial setupFour) (firstRoundFour.take 11)
    (firstRoundFour.drop 11 ++ .replicate 5 .main)
    (fun _ s h t => (s.pc = .switch ∧ s.flag = 0 ∧ s.frameCount = 1 ∧ s.stream.en = false) ∧
      (t.pc = .switch ∧ t.flag ≠ 0 ∧ t.flag ≠ 2 ∧ t.frameCount = 1 ∧ t.stream.en = false) ∧
      ∀ p ∈ h, Unpressed p.1 p.2) (by decide +kernel)
  have hstart : RoundStart s := ⟨hstart.1, hstart.2.1, hstart.2.2.1, hstart.2.2.2⟩
  obtain ⟨hpc, hflag, hdone, hone, hidle⟩ := hawaits
  have hawaits : AwaitsKey t := ⟨hpc, hflag, hdone, hone, hidle⟩
  obtain ⟨-, -, -, hround⟩ := press_starts_one_round setupFour hreached hstart hrun hkeyless
  rcases hround hawaits.settled with hfails | ⟨-, hcompletions, hrounds⟩
  · rcases hfails with ⟨hpc', -⟩ | ⟨hpc', -⟩ <;> simp [hpc] at hpc'
  · exact ⟨s, h, t, hrun, hstart, hawaits, hcompletions, hrounds⟩

end Run

end HadamardIMS.Acquisition
