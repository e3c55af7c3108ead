import HadamardIMS.Bookkeeping

/-!
# Which sequence a stored row was sampled under

A frame belongs to row `r` when one call of `beginSample` found the stream idle
and started it, and row `r` of the sequence matrix stayed loaded from there to the
completion. What can go wrong is `case 0`: it reloads row 0 and restarts, whatever
frame is on its way. As long as it runs only for the frame that is thrown away, or
at the beginning of a round with no frame on its way, every stored row belongs to
its own sequence.
-/
namespace HadamardIMS.Acquisition

open Loops Buffers Runs Signals

variable {g : Globals} {m : Setup g}

/-- `sendSequence` holds the bits of row `r`. -/
def RowLoaded (m : Setup g) (r : ℕ) (b : Buffer UInt8 g.sequenceLength) : Prop :=
  b.Stores fun i => sendBit (m.pPrbs.value (r * g.sequenceLength + i))

instance (m : Setup g) (r : ℕ) (b : Buffer UInt8 g.sequenceLength) : Decidable (RowLoaded m r b) :=
  inferInstanceAs (Decidable (∀ i < _, _ = _))

/-- The step is a call of `beginSample`. -/
def IsBegin {L : ℕ} (s : State L) (e : Event) : Prop :=
  e = .main ∧ (s.pc = .initialBegin ∨ s.pc = .startBegin ∨ s.pc = .rowBegin)

/-- The step moves the value `v` to cell `i` of the sample buffer. -/
def Transfers {L : ℕ} (s : State L) (e : Event) (i : ℕ) (v : UInt16) : Prop :=
  s.stream.next = i ∧ (e = .sample v ∨ e = .complete v)

/-- A frame of row `r` up to now: the entry `start` is a call of `beginSample` that
found the stream idle, `during` is what happened since, with neither another call
nor a completion, and row `r` was loaded all the time. -/
structure FrameOf (m : Setup g) (r : ℕ) (during : List (State g.sequenceLength × Event))
    (start : State g.sequenceLength × Event) : Prop where
  begins : IsBegin start.1 start.2
  idle : start.1.stream.en = false
  single : ∀ p ∈ during, ¬IsBegin p.1 p.2
  unfinished : ∀ p ∈ during, IsCompletion p.2 = false
  loaded : ∀ p ∈ during ++ [start], RowLoaded m r p.1.sendSequence

/-- The frame on its way belongs to row `r`, and the transfers since its start have
filled the buffer up to the next cell. -/
def InFlight (m : Setup g) (r : ℕ) (h : List (State g.sequenceLength × Event))
    (s : State g.sequenceLength) : Prop :=
  RowLoaded m r s.sendSequence ∧ ∃ during start before, h = during ++ start :: before ∧
    FrameOf m r during start ∧
    ∀ i < s.stream.next, ∃ p ∈ during, Transfers p.1 p.2 i (s.convertedValue.value i)

/-- The last completed frame belongs to row `r`: all its samples `values` were
transferred between its start and its completion, and nothing after. -/
def PairedFrame (m : Setup g) (r : ℕ) (h : List (State g.sequenceLength × Event))
    (values : ℕ → UInt16) : Prop :=
  ∃ after last v during start before,
    h = after ++ (last, .complete v) :: (during ++ start :: before) ∧
    FrameOf m r during start ∧ RowLoaded m r last.sendSequence ∧
    (∀ p ∈ after, ∀ i v, ¬Transfers p.1 p.2 i v) ∧
    values = (last.convertedValue.put last.stream.next v).value ∧
    ∀ i ≤ g.sequenceLength, ∃ p ∈ (last, .complete v) :: during, Transfers p.1 p.2 i (values i)

variable {h h₀ : List (State g.sequenceLength × Event)} {s s' : State g.sequenceLength} {r : ℕ}

/-- A call of `beginSample` on an idle stream starts a frame of the loaded row. -/
theorem inFlight_of_begin (hbegin : IsBegin s .main) (hidle : s.stream.en = false)
    (hloaded : RowLoaded m r s.sendSequence) (hstream : s'.stream.next = 0)
    (hsequence : s'.sendSequence = s.sendSequence) : InFlight m r ((s, .main) :: h) s' := by
  refine ⟨by rwa [hsequence], [], (s, .main), h, rfl, ⟨hbegin, hidle,
    List.forall_mem_nil _, List.forall_mem_nil _, ?_⟩, ?_⟩
  · intro p hp
    rw [List.nil_append, List.mem_singleton] at hp
    rwa [hp]
  · intro i hi
    omega

/-- A step that is neither a transfer nor a call of `beginSample` and that leaves
the loaded row alone continues the frame. -/
theorem InFlight.quiet (hI : InFlight m r h s) {e : Event} (hbegin : ¬IsBegin s e)
    (hunfinished : IsCompletion e = false) (hsequence : s'.sendSequence = s.sendSequence)
    (hvalues : s'.convertedValue = s.convertedValue) (hstream : s'.stream = s.stream) :
    InFlight m r ((s, e) :: h) s' := by
  obtain ⟨hloaded, during, start, before, rfl, hframe, hfilled⟩ := hI
  refine ⟨by rwa [hsequence], (s, e) :: during, start, before, rfl,
    ⟨hframe.begins, hframe.idle, List.forall_mem_cons.mpr ⟨hbegin, hframe.single⟩,
      List.forall_mem_cons.mpr ⟨hunfinished, hframe.unfinished⟩, ?_⟩, ?_⟩
  · rw [List.cons_append]
    exact List.forall_mem_cons.mpr ⟨hloaded, hframe.loaded⟩
  · intro i hi
    rw [hstream] at hi
    obtain ⟨p, hp, ht⟩ := hfilled i hi
    exact ⟨p, List.mem_cons_of_mem _ hp, by rwa [hvalues]⟩

/-- A further transfer fills the next cell. -/
theorem InFlight.sample (hI : InFlight m r h s) {v : UInt16} :
    InFlight m r ((s, .sample v) :: h) { s with
      convertedValue := s.convertedValue.put s.stream.next v
      stream := ⟨true, s.stream.ndtr - 1, s.stream.next + 1⟩ } := by
  obtain ⟨hloaded, during, start, before, rfl, hframe, hfilled⟩ := hI
  refine ⟨hloaded, (s, .sample v) :: during, start, before, rfl,
    ⟨hframe.begins, hframe.idle, List.forall_mem_cons.mpr ⟨by simp [IsBegin], hframe.single⟩,
      List.forall_mem_cons.mpr ⟨rfl, hframe.unfinished⟩, ?_⟩, ?_⟩
  · rw [List.cons_append]
    exact List.forall_mem_cons.mpr ⟨hloaded, hframe.loaded⟩
  · intro i hi
    by_cases hnext : i = s.stream.next
    · refine ⟨_, List.mem_cons_self, hnext.symm, .inl ?_⟩
      simp [Buffer.value, hnext]
    · have hlt : i < s.stream.next + 1 := hi
      obtain ⟨p, hp, ht⟩ := hfilled i (by omega)
      refine ⟨p, List.mem_cons_of_mem _ hp, ?_⟩
      simpa [Buffer.value, hnext] using ht

/-- The last transfer completes the frame. -/
theorem InFlight.complete (hI : InFlight m r h s) {v : UInt16}
    (hlast : s.stream.next = g.sequenceLength) :
    PairedFrame m r ((s, .complete v) :: h) (s.convertedValue.put s.stream.next v).value := by
  obtain ⟨hloaded, during, start, before, rfl, hframe, hfilled⟩ := hI
  refine ⟨[], s, v, during, start, before, rfl, hframe, hloaded,
    List.forall_mem_nil _, rfl, ?_⟩
  intro i hi
  by_cases hnext : i = s.stream.next
  · refine ⟨_, List.mem_cons_self, hnext.symm, .inr ?_⟩
    simp [Buffer.value, hnext]
  · obtain ⟨p, hp, ht⟩ := hfilled i (by omega)
    refine ⟨p, List.mem_cons_of_mem _ hp, ?_⟩
    simpa [Buffer.value, hnext] using ht

/-- Anything but a transfer keeps a completed frame. -/
theorem PairedFrame.quiet {values : ℕ → UInt16} (hI : PairedFrame m r h values) {e : Event}
    (htransfer : ∀ i v, ¬Transfers s e i v) : PairedFrame m r ((s, e) :: h) values := by
  obtain ⟨after, last, v, during, start, before, rfl, hframe, hloaded, hafter, hvalues, hfilled⟩ := hI
  exact ⟨(s, e) :: after, last, v, during, start, before, rfl, hframe, hloaded,
    List.forall_mem_cons.mpr ⟨htransfer, hafter⟩, hvalues, hfilled⟩

/-! ## The runs in which every stored row is paired -/

/-- What `main` may rely on for the frame of row `r`: on its way it belongs to
`r`, and a completion that has not been read is the one of such a frame. -/
structure Sound (m : Setup g) (r : ℕ) (h : List (State g.sequenceLength × Event))
    (s : State g.sequenceLength) : Prop where
  inFlight : s.stream.en = true → InFlight m r h s
  done : s.flag = 2 → s.stream.en = false ∧ PairedFrame m r h s.convertedValue.value

/-- No frame is on its way and no completion waits to be read. -/
structure Quiet {L : ℕ} (s : State L) : Prop where
  idle : s.stream.en = false
  flag : s.flag ≠ 2

instance {L : ℕ} (s : State L) : Decidable (Quiet s) :=
  decidable_of_iff (s.stream.en = false ∧ s.flag ≠ 2) ⟨fun h => ⟨h.1, h.2⟩, fun h => ⟨h.1, h.2⟩⟩

/-- `case 0` runs for the frame that is thrown away, or at the beginning of a
round with no frame on its way and none unread. -/
def StartsInOrder {L : ℕ} (s : State L) (e : Event) : Prop :=
  e = .main → s.pc = .startLoad → s.frameCount = 0 ∨ s.frameCount = 1 ∧ Quiet s

instance {L : ℕ} (s : State L) (e : Event) : Decidable (StartsInOrder s e) :=
  inferInstanceAs (Decidable (_ → _ → _))

/-- The invariant of such runs, place by place. -/
def Paired (m : Setup g) (h : List (State g.sequenceLength × Event)) (s : State g.sequenceLength) :
    Prop :=
  match s.pc with
  | .initialBegin => s.frameCount = 0 ∧ Quiet s
  | .switch =>
    s.frameCount = 0 ∧ (s.flag = 2 → s.stream.en = true → InFlight m 0 h s) ∨
      1 ≤ s.frameCount ∧ Sound m (s.frameCount - 1) h s
  | .startReset | .startLoad =>
    s.frameCount = 0 ∧ (s.flag = 2 → s.stream.en = false) ∨
      1 ≤ s.frameCount ∧ Sound m (s.frameCount - 1) h s
  | .startBegin =>
    RowLoaded m 0 s.sendSequence ∧ (s.frameCount = 0 ∧ (s.flag = 2 → s.stream.en = false) ∨
      s.frameCount = 1 ∧ Quiet s)
  | .doneReset =>
    s.frameCount = 0 ∧ (s.stream.en = true → InFlight m 0 h s) ∨
      1 ≤ s.frameCount ∧ s.stream.en = false ∧
        PairedFrame m (s.frameCount - 1) h s.convertedValue.value
  | .doneCount =>
    s.frameCount = 0 ∧ Sound m 0 h s ∨
      1 ≤ s.frameCount ∧ Quiet s ∧ PairedFrame m (s.frameCount - 1) h s.convertedValue.value
  | .firstTest | .rowTest =>
    s.frameCount = 1 ∧ Sound m 0 h s ∨
      2 ≤ s.frameCount ∧ Quiet s ∧ PairedFrame m (s.frameCount - 2) h s.convertedValue.value
  | .rowLoad => Quiet s
  | .rowBegin => Quiet s ∧ RowLoaded m (s.frameCount - 1) s.sendSequence
  | .roundTest =>
    s.frameCount ≤ g.sequenceLength ∧ Sound m (s.frameCount - 1) h s ∨
      s.frameCount = g.sequenceLength + 1 ∧ Quiet s ∧
        PairedFrame m (s.frameCount - 2) h s.convertedValue.value
  | _ => Quiet s

/-! ### Interrupts -/

/-- With the stream idle, the key is the only interrupt. -/
theorem StepCase.eq_key {e : Event} (hs : StepCase m s e s') (he : e ≠ .main)
    (hidle : s.stream.en = false) : e = .key ∧ s' = { s with flag := 0 } := by
  cases hs with
  | main => exact absurd rfl he
  | key => exact ⟨rfl, rfl⟩
  | sample v hen => simp [hidle] at hen
  | complete v hen => simp [hidle] at hen

/-- No interrupt starts the stream. -/
theorem StepCase.en_of_interrupt {e : Event} (hs : StepCase m s e s') (he : e ≠ .main)
    (hen : s'.stream.en = true) : s.stream.en = true := by
  cases hs with
  | main => exact absurd rfl he
  | key => exact hen
  | sample v hready => exact hready
  | complete v hready => exact hready

theorem InFlight.interrupt (hI : InFlight m r h s) {e : Event} (hs : StepCase m s e s')
    (he : e ≠ .main) (hen : s'.stream.en = true) : InFlight m r ((s, e) :: h) s' := by
  cases hs with
  | main => exact absurd rfl he
  | key => exact hI.quiet (by simp [IsBegin]) rfl rfl rfl rfl
  | sample v => exact hI.sample
  | complete => cases hen

theorem PairedFrame.interrupt {values : ℕ → UInt16} (hI : PairedFrame m r h values) {e : Event}
    (hs : StepCase m s e s') (he : e ≠ .main) (hidle : s.stream.en = false) :
    PairedFrame m r ((s, e) :: h) values := by
  obtain ⟨rfl, -⟩ := hs.eq_key he hidle
  exact hI.quiet (by simp [Transfers])

theorem Quiet.interrupt (hI : Quiet s) {e : Event} (hs : StepCase m s e s') (he : e ≠ .main) :
    Quiet s' ∧ s'.convertedValue = s.convertedValue := by
  obtain ⟨-, rfl⟩ := hs.eq_key he hI.idle
  exact ⟨⟨hI.idle, by simp⟩, rfl⟩

/-- The completion of a sound frame is the completion of a frame of its row. -/
theorem Sound.interrupt (hI : Sound m r h s) (hbook : Bookkept h₀ s) {e : Event}
    (hs : StepCase m s e s') (he : e ≠ .main) : Sound m r ((s, e) :: h) s' := by
  refine ⟨fun hen => ?_, fun hflag => ?_⟩
  · exact (hI.inFlight (hs.en_of_interrupt he hen)).interrupt hs he hen
  · cases hs with
    | main => exact absurd rfl he
    | key => cases hflag
    | sample v hen => simp [(hI.done hflag).1] at hen
    | complete v hen hlast =>
      have hsum := (hbook.transfers hen).2
      exact ⟨rfl, (hI.inFlight hen).complete (by omega)⟩

/-- No interrupt breaks the invariant. -/
theorem Paired.interrupt (hI : Paired m h s) (hbook : Bookkept h₀ s) {e : Event}
    (hs : StepCase m s e s') (he : e ≠ .main) : Paired m ((s, e) :: h) s' := by
  have hsame := hs.undisturbed he
  -- A frame that is thrown away may be on its way, but not while a completion is unread.
  have hunread : (s.flag = 2 → s.stream.en = false) → s'.flag = 2 → s'.stream.en = false := by
    intro hold hflag
    cases hs with
    | main => exact absurd rfl he
    | key => cases hflag
    | sample v hen => simp [hold hflag] at hen
    | complete => rfl
  have hread : ∀ {r}, s.stream.en = false ∧ PairedFrame m r h s.convertedValue.value →
      s'.stream.en = false ∧ PairedFrame m r ((s, e) :: h) s'.convertedValue.value := by
    rintro r ⟨hidle, hframe⟩
    have hkey := (hs.eq_key he hidle).2
    refine ⟨by rw [hkey]; exact hidle, ?_⟩
    rw [show s'.convertedValue = s.convertedValue by rw [hkey]]
    exact hframe.interrupt hs he hidle
  have hquiet : ∀ {r}, Quiet s ∧ PairedFrame m r h s.convertedValue.value →
      Quiet s' ∧ PairedFrame m r ((s, e) :: h) s'.convertedValue.value := by
    rintro r ⟨hquiet, hframe⟩
    exact ⟨(hquiet.interrupt hs he).1, (hread ⟨hquiet.idle, hframe⟩).2⟩
  unfold Paired at hI ⊢
  rw [hsame.pc, hsame.frameCount, hsame.sendSequence]
  cases hcase : s.pc <;> simp only [hcase] at hI ⊢
  case switch =>
    refine hI.imp (fun ⟨hzero, hfirst⟩ => ⟨hzero, fun hflag hen => ?_⟩)
      fun ⟨hpos, hsound⟩ => ⟨hpos, hsound.interrupt hbook hs he⟩
    refine InFlight.interrupt ?_ hs he hen
    cases hs with
    | main => exact absurd rfl he
    | key => cases hflag
    | sample v hready => exact hfirst hflag hready
    | complete => cases hen
  case startReset | startLoad =>
    exact hI.imp (fun ⟨hzero, hold⟩ => ⟨hzero, hunread hold⟩)
      fun ⟨hpos, hsound⟩ => ⟨hpos, hsound.interrupt hbook hs he⟩
  case startBegin =>
    exact hI.imp_right fun hI => hI.imp (fun ⟨hzero, hold⟩ => ⟨hzero, hunread hold⟩)
      fun ⟨hone, hquiet⟩ => ⟨hone, (hquiet.interrupt hs he).1⟩
  case doneReset =>
    refine hI.imp (fun ⟨hzero, hfirst⟩ => ⟨hzero, fun hen => ?_⟩)
      fun ⟨hpos, hframe⟩ => ⟨hpos, hread hframe⟩
    exact (hfirst (hs.en_of_interrupt he hen)).interrupt hs he hen
  case doneCount | firstTest | rowTest | roundTest =>
    exact hI.imp (fun ⟨hlow, hsound⟩ => ⟨hlow, hsound.interrupt hbook hs he⟩)
      fun ⟨hhigh, hframe⟩ => ⟨hhigh, hquiet hframe⟩
  case rowBegin => exact ⟨(hI.1.interrupt hs he).1, hI.2⟩
  case initialBegin => exact ⟨hI.1, (hI.2.interrupt hs he).1⟩
  all_goals exact (hI.interrupt hs he).1

/-! ### Steps of `main` -/

theorem PairedFrame.main {values : ℕ → UInt16} (hI : PairedFrame m r h values) :
    PairedFrame m r ((s, .main) :: h) values := hI.quiet (by simp [Transfers])

/-- A step of `main` that does not touch the frame and does not write 2 to `flag`. -/
theorem Sound.main (hI : Sound m r h s) (hbegin : ¬IsBegin s .main)
    (hsequence : s'.sendSequence = s.sendSequence) (hvalues : s'.convertedValue = s.convertedValue)
    (hstream : s'.stream = s.stream) (hflag : s'.flag = 2 → s.flag = 2) :
    Sound m r ((s, .main) :: h) s' := by
  refine ⟨fun hen => ?_, fun hdone => ?_⟩
  · rw [hstream] at hen
    exact (hI.inFlight hen).quiet hbegin rfl hsequence hvalues hstream
  · obtain ⟨hidle, hframe⟩ := hI.done (hflag hdone)
    rw [hstream, hvalues]
    exact ⟨hidle, hframe.main⟩

/-- With nothing on its way and nothing unread, starting the stream is sound. -/
theorem Quiet.begin (hI : Quiet s) (hbegin : IsBegin s .main)
    (hloaded : RowLoaded m r s.sendSequence) (hsequence : s'.sendSequence = s.sendSequence)
    (hstream : s'.stream = s.stream.start g.sampleSize) (hflag : s'.flag = s.flag) :
    Sound m r ((s, .main) :: h) s' := by
  refine ⟨fun _ => inFlight_of_begin hbegin hI.idle hloaded ?_ hsequence, fun hdone => ?_⟩
  · simp [hstream, Stream.start, hI.idle]
  · exact absurd (hflag ▸ hdone) hI.flag

/-- The step lemma: `main` keeps the invariant where `case 0` runs in order. -/
theorem Paired.main (hI : Paired m h s) (hbook : Bookkept h₀ s) (hs : MainCase m s s')
    (hguard : StartsInOrder s .main) : Paired m ((s, .main) :: h) s' := by
  have hL := g.one_le_sequenceLength
  have hcount := hbook.frameCount
  cases hs
  case initialBegin hpc =>
    simp only [Paired, hpc] at hI ⊢
    exact .inl ⟨hI.1, fun hflag => absurd hflag hI.2.flag⟩
  case switchStart hpc hflag =>
    simp only [Paired, hpc] at hI ⊢
    refine hI.imp (fun hI => ⟨hI.1, fun htwo => ?_⟩)
      fun hI => ⟨hI.1, hI.2.main (by simp [IsBegin, hpc]) rfl rfl rfl id⟩
    rw [hflag] at htwo
    cases htwo
  case switchDone hpc hflag =>
    simp only [Paired, hpc] at hI ⊢
    refine hI.imp (fun hI => ⟨hI.1, fun hen => ?_⟩) fun hI => ⟨hI.1, ?_⟩
    · exact (hI.2 hflag hen).quiet (by simp [IsBegin, hpc]) rfl rfl rfl rfl
    · exact ⟨(hI.2.done hflag).1, (hI.2.done hflag).2.main⟩
  case switchIdle hpc hstart hdone =>
    simp only [Paired, hpc] at hI ⊢
    exact hI.imp (fun hI => ⟨hI.1, fun hflag => absurd hflag hdone⟩)
      fun hI => ⟨hI.1, hI.2.main (by simp [IsBegin, hpc]) rfl rfl rfl id⟩
  case startReset hpc =>
    simp only [Paired, hpc] at hI ⊢
    exact hI.imp (fun hI => ⟨hI.1, nofun⟩)
      fun hI => ⟨hI.1, hI.2.main (by simp [IsBegin, hpc]) rfl rfl rfl nofun⟩
  case startLoad b hpc hload =>
    simp only [Paired, hpc] at hI ⊢
    refine ⟨(productSendSequence_ensures le_rfl hL m.pPrbs_assigned _).of_eq_ok hload, ?_⟩
    refine (hguard rfl hpc).imp (fun hzero => ⟨hzero, ?_⟩) fun hone => ⟨hone.1, hone.2.1, hone.2.2⟩
    rcases hI with hI | hI
    · exact hI.2
    · omega
  case startBegin hpc =>
    simp only [Paired, hpc] at hI ⊢
    have hbegin : IsBegin s .main := ⟨rfl, .inr (.inl hpc)⟩
    refine hI.2.imp (fun hzero => ⟨hzero.1, fun hflag _ => ?_⟩) fun hone => ⟨hone.1.ge, ?_⟩
    · have hidle := hzero.2 hflag
      exact inFlight_of_begin hbegin hidle hI.1 (by simp [Stream.start, hidle]) rfl
    · rw [hone.1]
      exact hone.2.begin hbegin hI.1 rfl rfl rfl
  case doneReset hpc =>
    simp only [Paired, hpc] at hI ⊢
    refine hI.imp (fun hI => ⟨hI.1, fun hen => ?_, nofun⟩)
      fun hI => ⟨hI.1, ⟨hI.2.1, by simp⟩, hI.2.2.main⟩
    exact (hI.2 hen).quiet (by simp [IsBegin, hpc]) rfl rfl rfl rfl
  case doneCount hpc =>
    simp only [Paired, hpc] at hI ⊢
    refine hI.imp (fun hI => ⟨by omega, hI.2.main (by simp [IsBegin, hpc]) rfl rfl rfl id⟩)
      fun hI => ⟨by omega, ⟨hI.2.1.idle, hI.2.1.flag⟩, ?_⟩
    exact hI.2.2.main
  case firstFrame hpc hone =>
    simp only [Paired, hpc] at hI ⊢
    refine hI.imp (fun hI => ⟨hI.1, ?_⟩) fun hI => by omega
    exact hI.2.main (by simp [IsBegin, hpc]) rfl rfl rfl nofun
  case laterFrame hpc hlater =>
    simp only [Paired, hpc] at hI ⊢
    exact hI.imp (fun hI => absurd hI.1 hlater)
      fun hI => ⟨hI.1, ⟨hI.2.1.idle, hI.2.1.flag⟩, hI.2.2.main⟩
  case rowStore b hpc hlow hhigh hstore =>
    simp only [Paired, hpc] at hI ⊢
    rcases hI with hI | hI
    · omega
    · exact ⟨hI.2.1.idle, hI.2.1.flag⟩
  case rowSkip hpc hskip =>
    rw [hpc] at hcount
    simp only [Paired, hpc] at hI ⊢
    refine hI.imp (fun hI => ⟨by omega, ?_⟩) fun hI => ⟨?_, ⟨hI.2.1.idle, hI.2.1.flag⟩, hI.2.2.main⟩
    · rw [hI.1]
      exact hI.2.main (by simp [IsBegin, hpc]) rfl rfl rfl id
    · have hle := hcount.2
      omega
  case rowLoad b hpc hload =>
    rw [hpc] at hcount
    obtain ⟨hlow, hhigh⟩ := hcount
    simp only [Paired, hpc] at hI ⊢
    exact ⟨⟨hI.idle, hI.flag⟩,
      (productSendSequence_ensures (by omega) hhigh m.pPrbs_assigned _).of_eq_ok hload⟩
  case rowBegin hpc =>
    rw [hpc] at hcount
    simp only [Paired, hpc] at hI ⊢
    exact .inl ⟨hcount.2, hI.1.begin ⟨rfl, .inr (.inr hpc)⟩ hI.2 rfl rfl rfl⟩
  case lastStore b hpc hlast hstore =>
    simp only [Paired, hpc] at hI ⊢
    rcases hI with hI | hI
    · omega
    · exact ⟨hI.2.1.idle, hI.2.1.flag⟩
  case roundOpen hpc hopen =>
    rw [hpc] at hcount
    simp only [Paired, hpc] at hI ⊢
    rcases hI with hI | hI
    · exact .inr ⟨hcount.1, hI.2.main (by simp [IsBegin, hpc]) rfl rfl rfl id⟩
    · exact absurd hI.1 hopen
  case restart hpc =>
    simp only [Paired, hpc] at hI ⊢
    refine .inr ⟨le_rfl, fun hen => ?_, fun hflag => absurd hflag hI.flag⟩
    simp [hI.idle] at hen
  case transposeOverlap hpc _ | transposeRecovery hpc _ | average hpc _ =>
    simp only [Paired, hpc] at hI ⊢
    exact ⟨hI.idle, hI.flag⟩
  case calculate hpc _ _ =>
    simp only [Paired, hpc] at hI ⊢
    exact ⟨hI.idle, hI.flag⟩
  case report hpc =>
    simp only [Paired, hpc] at hI ⊢
    exact ⟨hI.idle, hI.flag⟩

theorem Paired.step (hI : Paired m h s) (hbook : Bookkept h₀ s) {e : Event}
    (hs : StepCase m s e s') (hguard : StartsInOrder s e) : Paired m ((s, e) :: h) s' := by
  rcases hs.main_or_interrupt with ⟨rfl, hmain⟩ | he
  · exact hI.main hbook hmain hguard
  · exact hI.interrupt hbook hs he

/-- The row that is stored next was sampled under its own sequence. -/
theorem Paired.store (hI : Paired m h s) (hst : IsStore s .main) :
    PairedFrame m (storeRow s) h s.convertedValue.value := by
  have hL := g.one_le_sequenceLength
  rcases hst.2 with ⟨hpc, hlow, hhigh⟩ | ⟨hpc, hlast⟩
  · simp only [Paired, hpc] at hI
    rcases hI with hI | hI
    · omega
    · exact hI.2.2
  · simp only [Paired, hpc] at hI
    rcases hI with hI | hI
    · omega
    · exact hI.2.2

/-- Where `main` waits with no frame on its way and none unread, nothing of the past matters. -/
theorem Paired.of_quiet (hpc : s.pc = .switch) (hquiet : Quiet s) : Paired m [] s := by
  rw [Paired, hpc]
  rcases Nat.eq_zero_or_pos s.frameCount with hzero | hpos
  · exact .inl ⟨hzero, fun hflag => absurd hflag hquiet.flag⟩
  · exact .inr ⟨hpos, fun hen => absurd (hquiet.idle.symm.trans hen) Bool.false_ne_true,
      fun hflag => absurd hflag hquiet.flag⟩

/-- The run lemma, from any reachable state in which the invariant holds. -/
theorem Paired.of_run {s₀ : State g.sequenceLength}
    (hreached : Run (Acquisition.step m) (State.initial m) h₀ s₀) (hstart : Paired m [] s₀)
    (hrun : Run (Acquisition.step m) s₀ h s) (hguard : ∀ p ∈ h, StartsInOrder p.1 p.2) :
    Paired m h s := by
  have hI := hrun.invariant_of_guarded (fun h s => Bookkept (h ++ h₀) s ∧ Paired m h s)
    StartsInOrder ⟨Bookkept.of_run hreached, hstart⟩ ?_ hguard
  · exact hI.2
  · rintro h s e s' - ⟨hbook, hI⟩ hguard hs
    exact ⟨hbook.step (step_cases hs), hI.step hbook (step_cases hs) hguard⟩

/-- From the start, or from any moment on at which `main` waits with no frame on its way and
none unread: as long as `case 0` runs in order, whenever `getOverlopSignal` is about to write a
row, all the samples it copies were transferred after one call of `beginSample`, with that row
loaded from there to the completion of the frame. -/
theorem stored_rows_paired (m : Setup g) {s₀ : State g.sequenceLength}
    (hreached : Run (step m) (State.initial m) h₀ s₀)
    (hstart : s₀ = State.initial m ∨ s₀.pc = .switch ∧ Quiet s₀)
    {h : List (State g.sequenceLength × Event)} {s : State g.sequenceLength}
    (hrun : Run (step m) s₀ h s) (hguard : ∀ p ∈ h, StartsInOrder p.1 p.2)
    (hst : IsStore s .main) : PairedFrame m (s.frameCount - 2) h s.convertedValue.value := by
  have hpaired : Paired m [] s₀ := by
    rcases hstart with rfl | ⟨hpc, hquiet⟩
    · exact ⟨rfl, rfl, by simp [State.initial]⟩
    · exact .of_quiet hpc hquiet
  exact (hpaired.of_run hreached hrun hguard).store hst

/-- The last completion of the past is the one of the frame. -/
theorem PairedFrame.loaded_of_find {values : ℕ → UInt16} (hI : PairedFrame m r h values)
    {p : State g.sequenceLength × Event} (hp : h.find? (fun p => IsCompletion p.2) = some p) :
    RowLoaded m r p.1.sendSequence := by
  obtain ⟨after, last, v, during, start, before, rfl, hframe, hloaded, hafter, -⟩ := hI
  have hnone : after.find? (fun p => IsCompletion p.2) = none := by
    refine List.find?_eq_none.mpr fun q hq hcompletion => ?_
    obtain ⟨t, e⟩ := q
    cases e with
    | complete v => exact hafter _ hq t.stream.next v ⟨rfl, .inr rfl⟩
    | _ => cases hcompletion
  rw [List.find?_append, hnone, Option.none_or, List.find?_cons_of_pos rfl] at hp
  cases hp
  exact hloaded

/-- A key press while the frame of row 1 is on its way: `case 0` loads row 0 under
it, and `frameCount` goes on as if nothing had happened. -/
theorem not_every_stored_row_paired :
    ¬ ∀ (g : Globals) (m : Setup g) (h : List (State g.sequenceLength × Event))
      (s : State g.sequenceLength), 2 ≤ g.sequenceLength → Run (step m) (State.initial m) h s →
      IsStore s .main → PairedFrame m (s.frameCount - 2) h s.convertedValue.value := by
  intro hall
  obtain ⟨h, s, hrun, hst, hrow, hfind⟩ := exists_run_of_exec (step setupFour)
    (State.initial setupFour)
    (.flatten [[.main], frameFour 0 0 0 0, .replicate 10 .main, frameFour 9 1 2 3,
      .replicate 8 .main, [.sample 9, .key], .replicate 4 .main,
      [.sample 4, .sample 5, .complete 6], .replicate 4 .main])
    (fun h s => IsStore s .main ∧ s.frameCount - 2 = 1 ∧
      (h.find? fun p => IsCompletion p.2).any
        fun p => decide (p.1.sendSequence.cell 0 = .set 1)) (by decide +kernel)
  have hframe := hall _ setupFour h s (by decide) hrun hst
  obtain ⟨p, hp, hsent⟩ := (Option.any_eq_true _ _).mp hfind
  have hloaded := hframe.loaded_of_find hp 0 (by decide)
  rw [of_decide_eq_true hsent, hrow] at hloaded
  exact absurd hloaded (by decide +kernel)

/-- The last row of the first round, and the first row of a round that follows one which a key
press has spoilt. -/
theorem stored_rows_paired_last_row :
    (∃ h s, Run (step setupFour) (State.initial setupFour) h s ∧ s.frameCount = 4 ∧
      PairedFrame setupFour 2 h s.convertedValue.value) ∧
    ∃ h₀ s₀ h s, Run (step setupFour) (State.initial setupFour) h₀ s₀ ∧
      (¬ ∀ p ∈ h₀, StartsInOrder p.1 p.2) ∧ Run (step setupFour) s₀ h s ∧
      PairedFrame setupFour 0 h s.convertedValue.value := by
  refine ⟨?_, ?_⟩
  · obtain ⟨h, s, hrun, hst, hcount, hguard⟩ := exists_run_of_exec (step setupFour)
      (State.initial setupFour) (firstRoundFour.dropLast.dropLast)
      (fun h s => IsStore s .main ∧ s.frameCount = 4 ∧ ∀ p ∈ h, StartsInOrder p.1 p.2)
      (by decide +kernel)
    have hframe := stored_rows_paired setupFour .start (.inl rfl) hrun hguard hst
    rw [hcount] at hframe
    exact ⟨h, s, hrun, hcount, hframe⟩
  · obtain ⟨h₀, s₀, h, s, hreached, hrun, hspoilt, hquiet, hst, hcount, hguard⟩ :=
      exists_runs_of_exec (step setupFour) (State.initial setupFour)
        (.flatten [[.main], frameFour 0 0 0 0, .replicate 10 .main, frameFour 9 1 2 3,
          .replicate 8 .main, [.sample 9, .key], .replicate 4 .main,
          [.sample 4, .sample 5, .complete 6], .replicate 8 .main, frameFour 9 7 8 9,
          .replicate 12 .main])
        ([.key] ++ .replicate 4 .main ++ frameFour 9 1 2 3 ++ .replicate 4 .main)
        (fun h₀ s₀ h s => (¬ ∀ p ∈ h₀, StartsInOrder p.1 p.2) ∧ (s₀.pc = .switch ∧ Quiet s₀) ∧
          IsStore s .main ∧ s.frameCount = 2 ∧ ∀ p ∈ h, StartsInOrder p.1 p.2) (by decide +kernel)
    have hframe := stored_rows_paired setupFour hreached (.inr hquiet) hrun hguard hst
    rw [hcount] at hframe
    exact ⟨h₀, s₀, h, s, hreached, hspoilt, hrun, hframe⟩

end HadamardIMS.Acquisition
