import HadamardIMS.Pairing

/-!
# Every round can be run

From the beginning of a round, with no frame on its way, there is a run without a
key press that collects any given frames row by row and arrives at the call of
`calculate`; with memory for the result it goes on to the report and to the next
round. Statements about what some run does are obtained from these.
-/
namespace HadamardIMS.Acquisition

open Loops Buffers Runs Hadamard Signals Heaps

variable {g : Globals} {m : Setup g}

/-- The place at which a round begins. -/
structure RoundStart {L : ℕ} (s : State L) : Prop where
  pc : s.pc = .switch
  flag : s.flag = 0
  frameCount : s.frameCount = 1
  idle : s.stream.en = false

/-- A step while frames are collected: not the key, not one of the steps that
process a round, and a completion leaves the frame of a loaded row. -/
structure Collects (m : Setup g) (samples : ℕ → ℕ → UInt16) (s : State g.sequenceLength)
    (e : Event) : Prop where
  noKey : e ≠ .key
  collecting : s.pc ≠ .calculate ∧ s.pc ≠ .average ∧ s.pc ≠ .report
  frame : ∀ v, e = .complete v → ∃ r < g.sequenceLength, RowLoaded m r s.sendSequence ∧
    ∀ i ≤ g.sequenceLength, (s.convertedValue.put s.stream.next v).value i = samples r i

theorem step_main {s s' : State g.sequenceLength} (h : mainStep m s = .ok s') :
    step m s .main = some s' := toOption_eq_some.mpr h

variable {samples : ℕ → ℕ → UInt16} {s : State g.sequenceLength}

/-- A step of `main` in a place where frames are collected. -/
theorem main_leads {s' : State g.sequenceLength} (h : mainStep m s = .ok s')
    (hpc : s.pc ≠ .calculate ∧ s.pc ≠ .average ∧ s.pc ≠ .report) :
    Leads (step m) (Collects m samples) s s' :=
  .head (step_main h) ⟨nofun, hpc, nofun⟩ (.refl s')

/-- The first `k` transfers of a frame. -/
theorem transfers_lead (samples : ℕ → ℕ → UInt16) (hpc : s.pc = .switch) (values : ℕ → UInt16)
    (hstream : s.stream = ⟨true, g.sequenceLength + 1, 0⟩) (hassigned : s.convertedValue.Assigned)
    {k : ℕ} (hk : k ≤ g.sequenceLength) :
    ∃ b, b.Assigned ∧ b.FilledTo k values ∧ Leads (step m) (Collects m samples) s
      { s with convertedValue := b, stream := ⟨true, g.sequenceLength + 1 - k, k⟩ } := by
  induction k with
  | zero =>
    refine ⟨s.convertedValue, hassigned, Buffer.filledTo_zero _ _, ?_⟩
    rw [Nat.sub_zero, ← hstream]
    exact .refl s
  | succ k ih =>
    obtain ⟨b, hb, hfilled, hlead⟩ := ih (by omega)
    refine ⟨b.put k (values k), hb.put _ _, hfilled.put, hlead.trans (.head (e := .sample (values k))
      ?_ ⟨nofun, by simp [hpc], nofun⟩ (.refl _))⟩
    have hready : 1 < g.sequenceLength + 1 - k := by omega
    have hroom : k < g.sequenceLength + 2 := by omega
    simp [step, transfer, hready, Buffer.write_of_lt b _ hroom, bind, Except.bind, Except.toOption,
      Nat.sub_sub]

/-- A whole frame of the loaded row. -/
theorem frame_leads (samples : ℕ → ℕ → UInt16) {r : ℕ} (hr : r < g.sequenceLength)
    (hpc : s.pc = .switch) (hstream : s.stream = ⟨true, g.sequenceLength + 1, 0⟩)
    (hassigned : s.convertedValue.Assigned)
    (hloaded : RowLoaded m r s.sendSequence) :
    ∃ b, b.Assigned ∧ Leads (step m) (Collects m samples) s
      { s with convertedValue := b, flag := 2, stream := ⟨false, 0, g.sequenceLength + 1⟩ } := by
  obtain ⟨b, hb, hfilled, hlead⟩ := transfers_lead (m := m) samples hpc (samples r) hstream
    hassigned le_rfl
  refine ⟨b.put g.sequenceLength (samples r g.sequenceLength), hb.put _ _, hlead.trans (.head
    (e := .complete (samples r g.sequenceLength)) ?_ ⟨nofun, by simp [hpc], ?_⟩ (.refl _))⟩
  · have hroom : g.sequenceLength < g.sequenceLength + 2 := by omega
    simp [step, transfer, Buffer.write_of_lt b _ hroom, bind, Except.bind, Except.toOption,
      dmaInterrupt]
  · intro v hv
    cases hv
    refine ⟨r, hr, hloaded, fun i hi => ?_⟩
    have hcell := hfilled.put i (by omega)
    simp only [Buffer.value] at hcell ⊢
    rw [hcell, Cell.value_set]

/-- The frame of row `f - 1` has just been started, and nothing but the sample
buffers and the row has changed since `s₀`. -/
structure RowStarted (m : Setup g) (s₀ : State g.sequenceLength) (f : ℕ)
    (s : State g.sequenceLength) : Prop where
  pc : s.pc = .switch
  flag : s.flag = 10
  frameCount : s.frameCount = f
  stream : s.stream = ⟨true, g.sequenceLength + 1, 0⟩
  loaded : RowLoaded m (f - 1) s.sendSequence
  assigned : s.convertedValue.Assigned
  heap : s.heap = s₀.heap
  average : s.pAverageResult = s₀.pAverageResult

/-- `case 0` at the beginning of a round starts the frame of row 0. -/
theorem start_leads (hs : RoundStart s) (hassigned : s.convertedValue.Assigned) :
    ∃ s', Leads (step m) (Collects m samples) s s' ∧ RowStarted m s 1 s' := by
  obtain ⟨q, hq, hloaded⟩ := productSendSequence_ensures le_rfl g.one_le_sequenceLength
    m.pPrbs_assigned s.sendSequence
  have hread : mainStep m s = .ok { s with pc := .startReset } := by
    simp [mainStep, hs.pc, hs.flag]
  have hreset : mainStep m { s with pc := .startReset } =
      .ok { s with pc := .startLoad, flag := 10 } := rfl
  have hload : mainStep m { s with pc := .startLoad, flag := 10 } =
      .ok { s with pc := .startBegin, flag := 10, sendSequence := q } := by
    simp [mainStep, hq, bind, Except.bind]
  have hbegin : mainStep m { s with pc := .startBegin, flag := 10, sendSequence := q } =
      .ok { s with
        pc := .switch, flag := 10, sendSequence := q, stream := s.stream.start g.sampleSize } := rfl
  refine ⟨_, (main_leads hread (by simp [hs.pc])).trans <| (main_leads hreset (by simp)).trans <|
    (main_leads hload (by simp)).trans (main_leads hbegin (by simp)), ?_⟩
  exact ⟨rfl, rfl, hs.frameCount, by simp [Stream.start, hs.idle, Globals.sampleSize], hloaded,
    hassigned, rfl, rfl⟩

/-- `case 2` of a later frame, up to the test for a row. -/
theorem count_leads (samples : ℕ → ℕ → UInt16) (hpc : s.pc = .switch) (hflag : s.flag = 2)
    (hcount : 1 ≤ s.frameCount) :
    Leads (step m) (Collects m samples) s
      { s with pc := .rowTest, flag := 10, frameCount := s.frameCount + 1 } := by
  have hread : mainStep m s = .ok { s with pc := .doneReset } := by
    simp [mainStep, hpc, hflag]
  have hreset : mainStep m { s with pc := .doneReset } =
      .ok { s with pc := .doneCount, flag := 10 } := rfl
  have hincrement : mainStep m { s with pc := .doneCount, flag := 10 } =
      .ok { s with pc := .firstTest, flag := 10, frameCount := s.frameCount + 1 } := rfl
  have hlater : mainStep m { s with
        pc := .firstTest, flag := 10, frameCount := s.frameCount + 1 } =
      .ok { s with pc := .rowTest, flag := 10, frameCount := s.frameCount + 1 } := by
    have hne : s.frameCount ≠ 0 := by omega
    simp [mainStep, hne]
  exact (main_leads hread (by simp [hpc])).trans <| (main_leads hreset (by simp)).trans <|
    (main_leads hincrement (by simp)).trans (main_leads hlater (by simp))

/-- The completed frame becomes a row, and the frame of the next row is started. -/
theorem row_leads (samples : ℕ → ℕ → UInt16) {f : ℕ} (hpc : s.pc = .rowTest)
    (hcount : s.frameCount = f + 1) (hf : 1 ≤ f) (hfL : f < g.sequenceLength)
    (hassigned : s.convertedValue.Assigned) :
    ∃ A q, RowLoaded m f q ∧ Leads (step m) (Collects m samples) s
      { s with
        pc := .switch, sendSequence := q, pOverlapSignal := A
        stream := s.stream.start g.sampleSize } := by
  obtain ⟨A, hA, -⟩ := getOverlopSignal_ensures (show 2 ≤ s.frameCount by omega) (by omega)
    hassigned s.pOverlapSignal
  obtain ⟨q, hq, hloaded⟩ := productSendSequence_ensures (show 1 ≤ s.frameCount by omega) (by omega)
    m.pPrbs_assigned s.sendSequence
  rw [hcount, Nat.add_sub_cancel] at hloaded
  have hstore : mainStep m s = .ok { s with pc := .rowLoad, pOverlapSignal := A } := by
    have htest : 1 < s.frameCount ∧ s.frameCount ≤ g.sequenceLength := by omega
    simp [mainStep, hpc, htest, hA, bind, Except.bind]
  have hload : mainStep m { s with pc := .rowLoad, pOverlapSignal := A } =
      .ok { s with pc := .rowBegin, sendSequence := q, pOverlapSignal := A } := by
    simp [mainStep, hq, bind, Except.bind]
  have hbegin : mainStep m { s with pc := .rowBegin, sendSequence := q, pOverlapSignal := A } =
      .ok { s with
        pc := .roundTest, sendSequence := q, pOverlapSignal := A
        stream := s.stream.start g.sampleSize } := rfl
  have hopen : mainStep m { s with
        pc := .roundTest, sendSequence := q, pOverlapSignal := A
        stream := s.stream.start g.sampleSize } =
      .ok { s with
        pc := .switch, sendSequence := q, pOverlapSignal := A
        stream := s.stream.start g.sampleSize } := by
    have hne : s.frameCount ≠ g.sequenceLength + 1 := by omega
    simp [mainStep, hne]
  exact ⟨A, q, hloaded, (main_leads hstore (by simp [hpc])).trans <|
    (main_leads hload (by simp)).trans <| (main_leads hbegin (by simp)).trans
      (main_leads hopen (by simp))⟩

/-- One frame and the step from its row to the next one. -/
theorem next_row_leads {s₀ : State g.sequenceLength} {f : ℕ} (hf : 1 ≤ f)
    (hfL : f < g.sequenceLength) (hs : RowStarted m s₀ f s) :
    ∃ s', Leads (step m) (Collects m samples) s s' ∧ RowStarted m s₀ (f + 1) s' := by
  obtain ⟨b, hb, hframe⟩ := frame_leads (m := m) samples (show f - 1 < g.sequenceLength by omega)
    hs.pc hs.stream hs.assigned hs.loaded
  have hcount : 1 ≤ s.frameCount := by
    rw [hs.frameCount]
    exact hf
  obtain ⟨A, q, hloaded, hrow⟩ := row_leads (m := m) samples
    (s := { s with
      pc := .rowTest, flag := 10, frameCount := s.frameCount + 1, convertedValue := b
      stream := ⟨false, 0, g.sequenceLength + 1⟩ })
    rfl (congrArg (· + 1) hs.frameCount) hf hfL hb
  have hdone := count_leads (m := m) samples
    (s := { s with convertedValue := b, flag := 2, stream := ⟨false, 0, g.sequenceLength + 1⟩ })
    hs.pc rfl hcount
  refine ⟨_, hframe.trans (hdone.trans hrow), ?_⟩
  exact ⟨rfl, rfl, congrArg (· + 1) hs.frameCount, rfl, hloaded, hb, hs.heap, hs.average⟩

/-- All rows but the last. -/
theorem rows_lead (samples : ℕ → ℕ → UInt16) (hs : RoundStart s)
    (hassigned : s.convertedValue.Assigned) {f : ℕ} (hf : 1 ≤ f) (hfL : f ≤ g.sequenceLength) :
    ∃ s', Leads (step m) (Collects m samples) s s' ∧ RowStarted m s f s' := by
  induction f, hf using Nat.le_induction with
  | base => exact start_leads hs hassigned
  | succ f hf ih =>
    obtain ⟨s', hlead, hrow⟩ := ih (by omega)
    obtain ⟨s'', hnext, hrow'⟩ := next_row_leads hf (by omega) hrow
    exact ⟨s'', hlead.trans hnext, hrow'⟩

/-- The place at which a round is processed. -/
structure RoundCollected {L : ℕ} (s₀ s : State L) : Prop where
  pc : s.pc = .calculate
  flag : s.flag = 10
  frameCount : s.frameCount = L + 1
  idle : s.stream.en = false
  heap : s.heap = s₀.heap
  average : s.pAverageResult = s₀.pAverageResult

/-- From the beginning of a round that some run reaches, the round can be collected
with any samples. -/
theorem round_leads (samples : ℕ → ℕ → UInt16) {h : List (State g.sequenceLength × Event)}
    (hrun : Run (step m) (State.initial m) h s) (hs : RoundStart s) :
    ∃ s', Leads (step m) (Collects m samples) s s' ∧ RoundCollected s s' := by
  have hL := g.one_le_sequenceLength
  obtain ⟨t, hrows, ht⟩ := rows_lead samples hs (Bookkept.of_run hrun).samples hL le_rfl
  obtain ⟨b, hb, hframe⟩ := frame_leads (m := m) samples
    (show g.sequenceLength - 1 < g.sequenceLength by omega) ht.pc ht.stream ht.assigned ht.loaded
  have hcount : t.frameCount = g.sequenceLength := ht.frameCount
  have hdone := count_leads (m := m) samples
    (s := { t with convertedValue := b, flag := 2, stream := ⟨false, 0, g.sequenceLength + 1⟩ })
    ht.pc rfl (by dsimp only; omega)
  obtain ⟨A, hA, -⟩ := getOverlopSignal_ensures (show 2 ≤ t.frameCount + 1 by omega) (by omega) hb
    t.pOverlapSignal
  have hskip : mainStep m { t with
        pc := .rowTest, flag := 10, frameCount := t.frameCount + 1, convertedValue := b
        stream := ⟨false, 0, g.sequenceLength + 1⟩ } =
      .ok { t with
        pc := .roundTest, flag := 10, frameCount := t.frameCount + 1, convertedValue := b
        stream := ⟨false, 0, g.sequenceLength + 1⟩ } := by
    simp [mainStep, hcount]
  have hstore : mainStep m { t with
        pc := .roundTest, flag := 10, frameCount := t.frameCount + 1, convertedValue := b
        stream := ⟨false, 0, g.sequenceLength + 1⟩ } =
      .ok { t with
        pc := .transposeOverlap, flag := 10, frameCount := t.frameCount + 1, convertedValue := b
        pOverlapSignal := A, stream := ⟨false, 0, g.sequenceLength + 1⟩ } := by
    rw [hcount] at hA
    simp [mainStep, hcount, hA, bind, Except.bind]
  have hstored := hrows.trans <| hframe.trans <| hdone.trans <|
    (main_leads hskip (by simp)).trans (main_leads hstore (by simp))
  -- That the transposition does not fault rests on the rows stored before.
  obtain ⟨h', hrun'⟩ := hstored.exists_run
  have hassigned := (Bookkept.of_run (hrun.trans hrun')).overlap_assigned (.inl rfl)
  obtain ⟨T, hT, -⟩ := transposingMatrix_square hassigned
  have htranspose : mainStep m { t with
        pc := .transposeOverlap, flag := 10, frameCount := t.frameCount + 1, convertedValue := b
        pOverlapSignal := A, stream := ⟨false, 0, g.sequenceLength + 1⟩ } =
      .ok { t with
        pc := .calculate, flag := 10, frameCount := t.frameCount + 1, convertedValue := b
        pOverlapSignal := T, stream := ⟨false, 0, g.sequenceLength + 1⟩ } := by
    dsimp only at hT
    simp [mainStep, hT, bind, Except.bind]
  exact ⟨_, hstored.trans (main_leads htranspose (by simp)),
    ⟨rfl, rfl, congrArg (· + 1) hcount, rfl, ht.heap, ht.average⟩⟩

/-- The steps of `main` that are left to the call of `getAverageSignal`, in a pass in
which the last frame of a round has been counted. -/
def stepsToAverage : Pc → Option ℕ
  | .firstTest => some 6
  | .rowTest => some 5
  | .roundTest => some 4
  | .transposeOverlap => some 3
  | .calculate => some 2
  | .transposeRecovery => some 1
  | .average => some 0
  | _ => none

theorem processing_step {h : List (State g.sequenceLength × Event)}
    (hrun : Run (step m) (State.initial m) h s) {n : ℕ} (hn : stepsToAverage s.pc = some (n + 1))
    (hcount : s.frameCount = g.sequenceLength + 1)
    (hmalloc : 1 ≤ n → s.heap.malloc (4 * (g.sequenceLength * g.sequenceLength)) ≠ none) :
    ∃ t, mainStep m s = .ok t ∧ stepsToAverage t.pc = some n ∧
      t.frameCount = g.sequenceLength + 1 ∧ (2 ≤ n → t.heap = s.heap) := by
  have hL := g.one_le_sequenceLength
  obtain ⟨t, ht, -⟩ := (Bookkept.of_run hrun).mainStep_ensures (m := m)
    (fun hpc => hmalloc (by simp [stepsToAverage, hpc] at hn; omega))
    fun hpc => by simp [stepsToAverage, hpc] at hn
  refine ⟨t, ht, ?_⟩
  cases mainStep_cases ht <;> simp_all [stepsToAverage]

/-- With memory for the result, nothing stops `main` between the count of the last
frame and the call of `getAverageSignal`. -/
theorem processing_leads {h : List (State g.sequenceLength × Event)}
    (hrun : Run (step m) (State.initial m) h s) {n : ℕ} (hn : stepsToAverage s.pc = some n)
    (hcount : s.frameCount = g.sequenceLength + 1)
    (hmalloc : 2 ≤ n → s.heap.malloc (4 * (g.sequenceLength * g.sequenceLength)) ≠ none) :
    ∃ t, Leads (step m) (fun _ e => e = .main) s t ∧ t.pc = .average := by
  induction n generalizing h s with
  | zero =>
    refine ⟨s, .refl s, ?_⟩
    cases hpc : s.pc <;> simp_all [stepsToAverage]
  | succ n ih =>
    obtain ⟨t, ht, hn', hcount', hheap⟩ :=
      processing_step hrun hn hcount fun hone => hmalloc (by omega)
    obtain ⟨u, hlead, hpc⟩ := ih (hrun.next (step_main ht)) hn' hcount' fun htwo => by
      rw [hheap htwo]
      exact hmalloc (by omega)
    exact ⟨u, .head (step_main ht) rfl hlead, hpc⟩

/-- With memory for the result and a frame list inside the matrix, a collected
round is processed up to the report. -/
theorem process_steps {h : List (State g.sequenceLength × Event)} {s₀ : State g.sequenceLength}
    (hrun : Run (step m) (State.initial m) h s) (hs : RoundCollected s₀ s)
    (hmalloc : s.heap.malloc (4 * (g.sequenceLength * g.sequenceLength)) ≠ none)
    (htotal : g.totalFrame < g.sequenceLength) :
    ∃ t₁ t₂ t₃, Run (step m) s [(t₁, .main), (s, .main)] t₂ ∧ step m t₂ .main = some t₃ ∧
      t₁.pc = .transposeRecovery ∧ t₂.pc = .average ∧ t₃.pc = .report ∧
      t₃.stream.en = false := by
  obtain ⟨t₁, h₁, -⟩ := (Bookkept.of_run hrun).mainStep_ensures (m := m) (fun _ => hmalloc)
    fun _ => htotal
  have hnext₁ : t₁.pc = .transposeRecovery ∧ t₁.stream = s.stream := by
    have hpc := hs.pc
    cases mainStep_cases h₁ <;> simp_all
  have hrun₁ := hrun.next (step_main h₁)
  obtain ⟨t₂, h₂, -⟩ := (Bookkept.of_run hrun₁).mainStep_ensures (m := m)
    (fun hpc => by simp [hnext₁.1] at hpc) fun _ => htotal
  have hnext₂ : t₂.pc = .average ∧ t₂.stream = t₁.stream := by
    have hpc := hnext₁.1
    cases mainStep_cases h₂ <;> simp_all
  have hrun₂ := hrun₁.next (step_main h₂)
  obtain ⟨t₃, h₃, -⟩ := (Bookkept.of_run hrun₂).mainStep_ensures (m := m)
    (fun hpc => by simp [hnext₂.1] at hpc) fun _ => htotal
  have hnext₃ : t₃.pc = .report ∧ t₃.stream = t₂.stream := by
    have hpc := hnext₂.1
    cases mainStep_cases h₃ <;> simp_all
  refine ⟨t₁, t₂, t₃, (Run.start.next (step_main h₁)).next (step_main h₂), step_main h₃, hnext₁.1,
    hnext₂.1, hnext₃.1, ?_⟩
  rw [hnext₃.2, hnext₂.2, hnext₁.2, hs.idle]

/-- After the report `main` is ready for the next press of the key. -/
theorem restart_run (hpc : s.pc = .report) (hidle : s.stream.en = false) :
    Run (step m) s [({ s with pc := .switch, frameCount := 1 }, .key),
        ({ s with pc := .restart }, .main), (s, .main)]
      { s with pc := .switch, flag := 0, frameCount := 1 } ∧
    RoundStart { s with pc := .switch, flag := 0, frameCount := 1 } := by
  have hreport : mainStep m s = .ok { s with pc := .restart } := by simp [mainStep, hpc]
  have hrestart : mainStep m { s with pc := .restart } =
      .ok { s with pc := .switch, frameCount := 1 } := rfl
  exact ⟨((Run.start.next (step_main hreport)).next (step_main hrestart)).next rfl,
    rfl, rfl, rfl, hidle⟩

/-- The step is none of those that process a round. -/
def Unprocessed {L : ℕ} (s : State L) (_ : Event) : Prop :=
  s.pc ≠ .calculate ∧ s.pc ≠ .average ∧ s.pc ≠ .report

theorem Collects.unprocessed {e : Event} (h : Collects m samples s e) : Unprocessed s e :=
  h.collecting

/-- `case 2` of the frame that is thrown away. -/
theorem first_frame_leads (hpc : s.pc = .switch) (hflag : s.flag = 2) (hcount : s.frameCount = 0) :
    Leads (step m) Unprocessed s { s with pc := .switch, flag := 0, frameCount := 1 } := by
  have hL := g.one_le_sequenceLength
  have hread : mainStep m s = .ok { s with pc := .doneReset } := by
    simp [mainStep, hpc, hflag]
  have hreset : mainStep m { s with pc := .doneReset } =
      .ok { s with pc := .doneCount, flag := 10 } := rfl
  have hincrement : mainStep m { s with pc := .doneCount, flag := 10 } =
      .ok { s with pc := .firstTest, flag := 10, frameCount := 1 } := by
    simp [mainStep, hcount]
  have hfirst : mainStep m { s with pc := .firstTest, flag := 10, frameCount := 1 } =
      .ok { s with pc := .rowTest, flag := 0, frameCount := 1 } := rfl
  have hskip : mainStep m { s with pc := .rowTest, flag := 0, frameCount := 1 } =
      .ok { s with pc := .roundTest, flag := 0, frameCount := 1 } := by
    simp [mainStep]
  have hopen : mainStep m { s with pc := .roundTest, flag := 0, frameCount := 1 } =
      .ok { s with pc := .switch, flag := 0, frameCount := 1 } := by
    simp [mainStep, show g.sequenceLength ≠ 0 by omega]
  exact .head (step_main hread) (by simp [Unprocessed, hpc]) <|
    .head (step_main hreset) (by simp [Unprocessed]) <|
    .head (step_main hincrement) (by simp [Unprocessed]) <|
    .head (step_main hfirst) (by simp [Unprocessed]) <|
    .head (step_main hskip) (by simp [Unprocessed]) <|
    .head (step_main hopen) (by simp [Unprocessed]) (.refl _)

/-- The frame that is thrown away brings `main` to the beginning of the first round. -/
theorem first_round_leads (m : Setup g) :
    ∃ s, Leads (step m) Unprocessed (State.initial m) s ∧ RoundStart s ∧ s.heap = m.heap := by
  have hbegin : mainStep m (State.initial m) = .ok { State.initial m with
      pc := .switch, stream := ⟨true, g.sequenceLength + 1, 0⟩ } := rfl
  obtain ⟨b, hb, -, h, hrun, hcollect⟩ := transfers_lead (m := m) (fun _ _ => 0)
    (s := { State.initial m with pc := .switch, stream := ⟨true, g.sequenceLength + 1, 0⟩ })
    rfl (fun _ => 0) rfl (Buffer.assigned_fill 0) le_rfl
  have hcomplete : step m { State.initial m with
        pc := .switch, convertedValue := b
        stream := ⟨true, g.sequenceLength + 1 - g.sequenceLength, g.sequenceLength⟩ } (.complete 0) =
      some { State.initial m with
        pc := .switch, flag := 2, convertedValue := b.put g.sequenceLength 0
        stream := ⟨false, 0, g.sequenceLength + 1⟩ } := by
    have hroom : g.sequenceLength < g.sequenceLength + 2 := by omega
    simp [step, transfer, Buffer.write_of_lt b _ hroom, bind, Except.bind, Except.toOption,
      dmaInterrupt]
  have hsampled : Leads (step m) Unprocessed (State.initial m) { State.initial m with
      pc := .switch, flag := 2, convertedValue := b.put g.sequenceLength 0
      stream := ⟨false, 0, g.sequenceLength + 1⟩ } :=
    .head (step_main hbegin) (by simp [Unprocessed, State.initial]) <|
      .trans ⟨h, hrun, fun p hp => (hcollect p hp).unprocessed⟩ <|
      .head hcomplete (by simp [Unprocessed]) (.refl _)
  exact ⟨_, hsampled.trans (first_frame_leads rfl rfl rfl), ⟨rfl, rfl, rfl, rfl⟩, rfl⟩

end HadamardIMS.Acquisition
