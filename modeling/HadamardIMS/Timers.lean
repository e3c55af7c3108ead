import HadamardIMS.Acquisition
import HadamardIMS.Bursts

/-!
# The two timers of a frame

In each of its periods TIM1 puts one bit of `sendSequence` on its output and TIM8
starts one conversion. Both keep counting between two frames, so the restart
branch of `beginSample` may meet their updates anywhere. A raised interrupt is
served before anything else happens, and a write to CCR1 takes effect at the next
update.
-/
namespace HadamardIMS.Timers

open Signals Bursts Acquisition

/-- The period of TIM1, in counts. -/
def sequencePeriod : ℕ := 100 - 1

/-- The period of TIM8, in counts. -/
def adcPeriod : ℕ := 100 - 1

/-- The compare value at which TIM8 triggers a conversion. -/
def adcLowTime : ℕ := 80

/-- The macro of `bsp_time.h`, which the handler of TIM1 uses in place of
`sequencePeriod`. -/
def SEQUENCE_PERIOD : ℕ := 200 - 1

/-! ## The handlers -/

/-- `TIM_ClearFlag` and `TIM_ClearITPendingBit`, which write the same bit. -/
def clearITPendingBit (t : Timer) : Timer := ⟨false, t.uie, t.ccr1⟩

/-- `TIM_ITConfig` for the update interrupt. -/
def itConfig (newState : Bool) (t : Timer) : Timer := ⟨t.uif, newState, t.ccr1⟩

/-- `TIM_GetITStatus` for the update interrupt. -/
def getITStatus (t : Timer) : Bool := t.uif && t.uie

/-- A write to `CCR1`. -/
def setCCR1 (value : ℕ) (t : Timer) : Timer := ⟨t.uif, t.uie, value⟩

/-- `SENIOR_TIM_INT_FUNCTION`, the handler of TIM1. -/
def seniorTimIntFunction (sequenceLength : ℕ) (sendSequence : ℕ → UInt8) (c : Channel) :
    Channel :=
  if getITStatus c.timer then
    let sequenceCount := c.count
    let t := clearITPendingBit c.timer
    let t := if sendSequence sequenceCount = 1 then setCCR1 0 t
      else setCCR1 (SEQUENCE_PERIOD + 1) t
    let t := if sequenceCount = sequenceLength then setCCR1 (SEQUENCE_PERIOD + 1) t else t
    let t := if sequenceCount = sequenceLength + 1 then
      itConfig false (setCCR1 (SEQUENCE_PERIOD + 1) t) else t
    ⟨t, sequenceCount + 1, t.ccr1 :: c.runs, c.periods⟩
  else c

/-- `TIM_ADC1_IRQHandler`, the handler of TIM8. -/
def timAdc1IRQHandler (sequenceLength : ℕ) (c : Channel) : Channel :=
  if getITStatus c.timer then
    let adcSequenceCount := c.count
    let t := setCCR1 adcLowTime (clearITPendingBit c.timer)
    let t := if adcSequenceCount = sequenceLength + 1 then
      itConfig false (clearITPendingBit (setCCR1 (adcPeriod + 1) t)) else t
    ⟨t, adcSequenceCount + 1, t.ccr1 :: c.runs, c.periods⟩
  else c

/-- What a run of the handler of TIM1 with the given counter leaves in `CCR1`. -/
def seniorValue (sequenceLength : ℕ) (sendSequence : ℕ → UInt8) (sequenceCount : ℕ) : ℕ :=
  if sequenceCount = sequenceLength ∨ sequenceCount = sequenceLength + 1 then SEQUENCE_PERIOD + 1
  else if sendSequence sequenceCount = 1 then 0 else SEQUENCE_PERIOD + 1

/-- What a run of the handler of TIM8 with the given counter leaves in `CCR1`. -/
def adcValue (sequenceLength adcSequenceCount : ℕ) : ℕ :=
  if adcSequenceCount = sequenceLength + 1 then adcPeriod + 1 else adcLowTime

theorem getITStatus_iff (c : Channel) : getITStatus c.timer = true ↔ c.Pending :=
  Bool.and_eq_true _ _ ▸ Iff.rfl

/-- The handler of TIM1 is a burst of `sequenceLength + 2` runs. -/
theorem seniorTimIntFunction_eq (L : ℕ) (sendSequence : ℕ → UInt8) (c : Channel) :
    seniorTimIntFunction L sendSequence c = c.serve (seniorValue L sendSequence) (L + 1) := by
  unfold seniorTimIntFunction Channel.serve
  by_cases hc : c.Pending
  · rw [if_pos ((getITStatus_iff c).mpr hc), if_pos hc]
    have huie := hc.2
    rcases c with ⟨⟨uif, uie, ccr1⟩, count, runs, periods⟩
    obtain rfl : uie = true := huie
    by_cases hlast : count = L + 1
    · subst hlast
      by_cases hbit : sendSequence (L + 1) = 1 <;>
        simp [seniorValue, clearITPendingBit, itConfig, setCCR1, hbit]
    · by_cases hL : count = L
      · subst hL
        by_cases hbit : sendSequence count = 1 <;>
          simp [seniorValue, clearITPendingBit, setCCR1, hbit]
      · by_cases hbit : sendSequence count = 1 <;>
          simp [seniorValue, clearITPendingBit, setCCR1, hlast, hL, hbit]
  · rw [if_neg (mt (getITStatus_iff c).mp hc), if_neg hc]

/-- The handler of TIM8 is a burst of the same length. -/
theorem timAdc1IRQHandler_eq (L : ℕ) (c : Channel) :
    timAdc1IRQHandler L c = c.serve (adcValue L) (L + 1) := by
  unfold timAdc1IRQHandler Channel.serve
  by_cases hc : c.Pending
  · rw [if_pos ((getITStatus_iff c).mpr hc), if_pos hc]
    have huie := hc.2
    rcases c with ⟨⟨uif, uie, ccr1⟩, count, runs, periods⟩
    obtain rfl : uie = true := huie
    by_cases hlast : count = L + 1 <;>
      simp [adcValue, clearITPendingBit, itConfig, setCCR1, hlast]
  · rw [if_neg (mt (getITStatus_iff c).mp hc), if_neg hc]

/-! ## The board -/

/-- TIM1 and TIM8. -/
inductive Tim where
  | senior
  | adc
  deriving Repr, DecidableEq

/-- What the restart branch and the two handlers work on. The bytes of
`sendSequence` are numbered past its end too. -/
structure Board where
  sendSequence : ℕ → UInt8
  senior : Channel
  adc : Channel
  stream : Stream
  ovr : Bool
  dma : Bool
  cen : Bool

/-- The statements of the restart branch of `beginSample`, from the two counters
that are reset before it to the enabling of TIM1 after it. -/
inductive Statement where
  | resetCount (t : Tim)
  | clearFlag (t : Tim)
  | clearITPendingBit (t : Tim)
  | loadNDTR (number : ℕ)
  | dmaCmd
  | clearOverrun
  | adcDMACmd
  | itConfig (t : Tim)
  | timCmd
  deriving Repr, DecidableEq

/-- `beginSample` when `frameCount` is not zero. -/
def restartBranch (number : ℕ) : List Statement :=
  [.resetCount .senior, .resetCount .adc,
    .clearFlag .adc, .clearITPendingBit .adc, .clearFlag .senior, .clearITPendingBit .senior,
    .loadNDTR number, .dmaCmd, .clearOverrun, .adcDMACmd,
    .itConfig .adc, .itConfig .senior, .timCmd]

/-- A statement of `main`, an update of one timer or of both at the same instant,
and the filling of `sendSequence` between two frames. -/
inductive Event where
  | statement (s : Statement)
  | update (senior adc : Bool)
  | load (sendSequence : ℕ → UInt8)

namespace Board

/-- One of the two timers with its counter. -/
def channel (b : Board) : Tim → Channel
  | .senior => b.senior
  | .adc => b.adc

/-- A change of one of the two timers. -/
def modify (b : Board) (t : Tim) (act : Channel → Channel) : Board :=
  match t with
  | .senior => { b with senior := act b.senior }
  | .adc => { b with adc := act b.adc }

/-- The effect of one statement. An enabled stream ignores writes to its
registers. -/
def execute (b : Board) : Statement → Board
  | .resetCount t => b.modify t (·.apply .reset)
  | .clearFlag t => b.modify t (·.apply .clear)
  | .clearITPendingBit t => b.modify t (·.apply .clear)
  | .loadNDTR number =>
    { b with stream := if b.stream.en then b.stream else ⟨false, number, b.stream.next⟩ }
  | .dmaCmd => { b with stream := if b.stream.en then b.stream else ⟨true, b.stream.ndtr, 0⟩ }
  | .clearOverrun => { b with ovr := false }
  | .adcDMACmd => { b with dma := true }
  | .itConfig t => b.modify t (·.apply .enable)
  | .timCmd => { b with cen := true }

/-- The effect of an event before the interrupts are served. -/
def apply (b : Board) : Event → Board
  | .statement s => b.execute s
  | .update senior adc =>
    { b with
      senior := if senior then b.senior.apply .update else b.senior
      adc := if adc then b.adc.apply .update else b.adc }
  | .load sendSequence => { b with sendSequence }

/-- The interrupts that are raised are served. -/
def interrupts (sequenceLength : ℕ) (b : Board) : Board :=
  { b with
    senior := seniorTimIntFunction sequenceLength b.sendSequence b.senior
    adc := timAdc1IRQHandler sequenceLength b.adc }

/-- One event and the interrupts that it raises. -/
def step (sequenceLength : ℕ) (b : Board) (e : Event) : Board :=
  (b.apply e).interrupts sequenceLength

/-- A sequence of events. -/
def exec (sequenceLength : ℕ) (b : Board) (es : List Event) : Board :=
  es.foldl (step sequenceLength) b

/-- The board with nothing in the records of its timers. -/
def fresh (b : Board) : Board := { b with senior := b.senior.fresh, adc := b.adc.fresh }

end Board

/-- The values that the runs of a handler write. -/
def value (sequenceLength : ℕ) (sendSequence : ℕ → UInt8) : Tim → ℕ → ℕ
  | .senior => seniorValue sequenceLength sendSequence
  | .adc => adcValue sequenceLength

/-- What a statement is to one of the timers. -/
def command (t : Tim) : Statement → Option Bursts.Event
  | .resetCount t' => if t' = t then some .reset else none
  | .clearFlag t' => if t' = t then some .clear else none
  | .clearITPendingBit t' => if t' = t then some .clear else none
  | .itConfig t' => if t' = t then some .enable else none
  | _ => none

/-- The component of a pair that belongs to a timer. -/
def pick {α : Type} (t : Tim) (p : α × α) : α :=
  match t with
  | .senior => p.1
  | .adc => p.2

/-- What an event is to one of the timers. -/
def view (t : Tim) : Event → Option Bursts.Event
  | .statement s => command t s
  | .update senior adc => if pick t (senior, adc) then some .update else none
  | .load _ => none

/-- The event does not change `sendSequence`. -/
def KeepsSequence : Event → Prop
  | .load _ => False
  | _ => True

/-! ## Each timer by itself -/

variable {L : ℕ} {b : Board} {e : Event}

theorem channel_interrupts (b : Board) (t : Tim) :
    (b.interrupts L).channel t = (b.channel t).serve (value L b.sendSequence t) (L + 1) := by
  cases t with
  | senior => exact seniorTimIntFunction_eq L b.sendSequence b.senior
  | adc => exact timAdc1IRQHandler_eq L b.adc

/-- An event reaches a timer as the event it is to that timer. -/
theorem channel_apply (b : Board) (e : Event) (t : Tim) :
    (b.apply e).channel t = ((view t e).elim (b.channel t) (b.channel t).apply) := by
  cases e with
  | load sendSequence => cases t <;> rfl
  | update senior adc => cases t <;> cases senior <;> cases adc <;> rfl
  | statement s =>
    cases s with
    | resetCount t' => cases t <;> cases t' <;> rfl
    | clearFlag t' => cases t <;> cases t' <;> rfl
    | clearITPendingBit t' => cases t <;> cases t' <;> rfl
    | itConfig t' => cases t <;> cases t' <;> rfl
    | _ => cases t <;> rfl

theorem sendSequence_apply (he : KeepsSequence e) : (b.apply e).sendSequence = b.sendSequence := by
  cases e with
  | load sendSequence => exact he.elim
  | update senior adc => rfl
  | statement s =>
    cases s with
    | resetCount t | clearFlag t | clearITPendingBit t | itConfig t => cases t <;> rfl
    | _ => rfl

/-- During a frame each timer goes through the events that concern it, however they
are interleaved with the others. -/
theorem channel_exec (t : Tim) (hb : ¬(b.channel t).Pending) {es : List Event}
    (hes : ∀ e ∈ es, KeepsSequence e) :
    (b.exec L es).channel t =
      (b.channel t).exec (value L b.sendSequence t) (L + 1) (es.filterMap (view t)) := by
  induction es generalizing b with
  | nil => rfl
  | cons e es ih =>
    obtain ⟨he, hes⟩ := List.forall_mem_cons.mp hes
    have hseq : (b.step L e).sendSequence = b.sendSequence := sendSequence_apply he
    have hstep : (b.step L e).channel t = (view t e).elim (b.channel t)
        ((b.channel t).step (value L b.sendSequence t) (L + 1)) := by
      rw [Board.step, channel_interrupts, channel_apply, sendSequence_apply he]
      cases view t e with
      | none => exact Channel.serve_of_not_pending hb
      | some e' => rfl
    have hb' : ¬((b.step L e).channel t).Pending := by
      rw [Board.step, channel_interrupts]
      exact Channel.not_pending_serve _
    have hrest := ih hb' hes
    rw [hseq, hstep] at hrest
    rw [List.filterMap_cons]
    cases hview : view t e with
    | none => rwa [hview] at hrest
    | some e' => rwa [hview] at hrest

/-- The idle value of a timer. -/
def idle : Tim → ℕ
  | .senior => SEQUENCE_PERIOD + 1
  | .adc => adcPeriod + 1

theorem value_last (L : ℕ) (sendSequence : ℕ → UInt8) (t : Tim) :
    value L sendSequence t (L + 1) = idle t := by
  cases t with
  | senior => exact if_pos (.inr rfl)
  | adc => exact if_pos rfl

theorem seniorValue_of_le {i : ℕ} (sendSequence : ℕ → UInt8) (hi : i ≤ L + 1) :
    seniorValue L sendSequence i =
      if i < L ∧ sendSequence i = 1 then 0 else SEQUENCE_PERIOD + 1 := by
  unfold seniorValue
  by_cases hend : i = L ∨ i = L + 1
  · rw [if_pos hend, if_neg (by omega)]
  · have hlt : i < L := by omega
    rw [if_neg hend]
    simp only [hlt, true_and]

theorem adcValue_of_lt {i : ℕ} (hi : i < L + 1) : adcValue L i = adcLowTime :=
  if_neg (by omega)

/-- Whatever happens to a timer, it is idle when its interrupt is off. -/
theorem rested_exec (t : Tim) (hb : (b.channel t).Rested (idle t)) (es : List Event) :
    ((b.exec L es).channel t).Rested (idle t) := by
  induction es generalizing b with
  | nil => exact hb
  | cons e es ih =>
    refine ih ?_
    rw [Board.step, channel_interrupts, channel_apply]
    apply Channel.Rested.serve (value_last L _ t)
    cases view t e with
    | none => exact hb
    | some e' => exact hb.apply e'

/-- The board behind the branch of `beginSample` for the frame that is thrown away:
`TIM1_GPIO_Config` and `TIM8_ADC_Config` have set the compare values and enabled
both update interrupts. -/
def firstFrame (number : ℕ) (sendSequence : ℕ → UInt8) : Board where
  sendSequence
  senior := ⟨⟨false, true, sequencePeriod + 1⟩, 0, [], []⟩
  adc := ⟨⟨false, true, adcLowTime⟩, 0, [], []⟩
  stream := ⟨true, number, 0⟩
  ovr := false
  dma := true
  cen := true

/-- The boards of all runs: statements, updates and fillings of `sendSequence` in any
order. -/
def Reached (L : ℕ) (b : Board) : Prop :=
  ∃ number sendSequence es, b = (firstFrame number sendSequence).exec L es

/-! ## One frame -/

/-- The statement that an event executes. -/
def statement? : Event → Option Statement
  | .statement s => some s
  | _ => none

/-- Updates of one timer or both, in the order in which they come. -/
def updates (us : List (Bool × Bool)) : List Event := us.map fun u => .update u.1 u.2

theorem filterMap_updates (t : Tim) (us : List (Bool × Bool)) :
    (updates us).filterMap (view t) = .replicate (us.countP (pick t)) .update := by
  induction us with
  | nil => rfl
  | cons u us ih =>
    rw [updates, List.map_cons, List.filterMap_cons, ← updates, ih, view]
    cases hu : pick t (u.1, u.2) with
    | false =>
      have hu : ¬pick t u = true := by simpa using hu
      rw [List.countP_cons_of_neg hu]
      rfl
    | true =>
      rw [List.countP_cons_of_pos hu]
      rfl

theorem keepsSequence_updates (us : List (Bool × Bool)) : ∀ e ∈ updates us, KeepsSequence e := by
  intro e he
  obtain ⟨u, -, rfl⟩ := List.mem_map.mp he
  trivial

theorem statements_updates (us : List (Bool × Bool)) : (updates us).filterMap statement? = [] := by
  rw [List.filterMap_eq_nil_iff]
  intro e he
  obtain ⟨u, -, rfl⟩ := List.mem_map.mp he
  rfl

/-- The commands of a frame reach a timer in the order of the source. -/
theorem filter_view (t : Tim) {es : List Event} {statements : List Statement}
    (hes : es.filterMap statement? = statements) :
    (es.filterMap (view t)).filter (· ≠ .update) = statements.filterMap (command t) := by
  have hnotUpdate : ∀ s c, command t s = some c → c ≠ .update := by
    intro s c hc
    cases s <;> simp only [command, reduceCtorEq, Option.ite_none_right_eq_some] at hc <;>
      (obtain ⟨-, hc⟩ := hc; cases hc; decide)
  subst hes
  rw [List.filter_filterMap, List.filterMap_filterMap]
  apply List.filterMap_congr
  intro e _
  cases e with
  | load sendSequence => rfl
  | update senior adc => cases hp : pick t (senior, adc) <;> simp [view, statement?, hp]
  | statement s =>
    cases hs : command t s with
    | none => simp [view, statement?, hs]
    | some c => simp [view, statement?, hs, hnotUpdate s c hs]

/-- The commands of the restart branch to each of the timers. -/
def commands : List Bursts.Event := [.reset, .clear, .clear, .enable]

theorem filterMap_restartBranch (t : Tim) (number : ℕ) :
    (restartBranch number).filterMap (command t) = commands := by
  cases t <;> rfl

/-- The stream and the bits that the statements set outside the timers. -/
def Board.registers (b : Board) : Stream × Bool × Bool × Bool := (b.stream, b.ovr, b.dma, b.cen)

theorem registers_modify (b : Board) (t : Tim) (act : Channel → Channel) :
    (b.modify t act).registers = b.registers := by cases t <;> rfl

/-- The other registers see the statements alone. -/
theorem registers_exec {b' : Board} (hb : b.registers = b'.registers) (es : List Event) :
    (b.exec L es).registers = ((es.filterMap statement?).foldl Board.execute b').registers := by
  induction es generalizing b b' with
  | nil => exact hb
  | cons e es ih =>
    cases e with
    | load sendSequence => exact ih hb
    | update senior adc => exact ih hb
    | statement s =>
      have hstep : (b.execute s).registers = (b'.execute s).registers := by
        cases s with
        | resetCount t | clearFlag t | clearITPendingBit t | itConfig t =>
          exact (registers_modify b t _).trans (hb.trans (registers_modify b' t _).symm)
        | _ =>
          simp only [Board.registers, Prod.mk.injEq] at hb
          simp only [Board.execute, Board.registers, hb]
      exact ih hstep

/-- The restart branch starts the stream as `beginSample` of the acquisition does. -/
theorem restartBranch_registers (b : Board) (number : ℕ) :
    ((restartBranch number).foldl Board.execute b).registers =
      (b.stream.start number, false, true, true) := by
  cases hen : b.stream.en <;>
    simp [restartBranch, Board.execute, Board.registers, Board.modify, Stream.start, hen]

/-- Both update interrupts are off, and both timers are idle. -/
structure Resting (b : Board) : Prop where
  uie : ∀ t, (b.channel t).timer.uie = false
  senior : sequencePeriod < b.senior.timer.ccr1
  adc : adcPeriod < b.adc.timer.ccr1

/-- What a frame that began at `b` and ended at `b'` has put on the outputs. -/
structure Emitted (g : Globals) (b b' : Board) : Prop where
  senior_runs : ∃ idle, sequencePeriod < idle ∧
    b'.senior.runs.reverse = (List.range (g.sequenceLength + 2)).map fun i =>
      if i < g.sequenceLength ∧ b.sendSequence i = 1 then 0 else idle
  adc_runs : b'.adc.runs.length = g.sequenceLength + 2
  triggers : b'.adc.periods.count adcLowTime = g.sequenceLength + 1
  transfers : g.sampleSize = g.sequenceLength + 1 ∧ b'.stream = b.stream.start g.sampleSize
  resting : Resting b'

theorem Resting.dormant (hb : Resting b) (t : Tim) :
    Dormant (b.channel t).timer.ccr1 0 (b.fresh.channel t) := by
  cases t with
  | senior => exact ⟨hb.uie .senior, rfl, rfl, rfl⟩
  | adc => exact ⟨hb.uie .adc, rfl, rfl, rfl⟩

/-- A reached board is at rest whenever both update interrupts are off. -/
theorem Reached.resting (hb : Reached L b) (hoff : ∀ t, (b.channel t).timer.uie = false) :
    Resting b := by
  obtain ⟨number, sendSequence, es, rfl⟩ := hb
  have hrested : ∀ t, (((firstFrame number sendSequence).exec L es).channel t).timer.ccr1 =
      idle t :=
    fun t => rested_exec t (by cases t <;> exact nofun) es (hoff t)
  refine ⟨hoff, (hrested .senior).symm ▸ ?_, (hrested .adc).symm ▸ ?_⟩
  · decide
  · decide

/-- Each of the two timers runs its burst to the end. -/
theorem Resting.started (hb : Resting b) (t : Tim) {number : ℕ} {es : List Event}
    (hes : es.filterMap statement? = restartBranch number) (hkeep : ∀ e ∈ es, KeepsSequence e)
    {us : List (Bool × Bool)} (hus : L + 2 ≤ us.countP (pick t)) :
    ∃ k m, L + 1 ≤ m ∧ Started (value L b.sendSequence t) (L + 1) (b.channel t).timer.ccr1 k m
      ((b.fresh.exec L (es ++ updates us)).channel t) := by
  have hdormant := hb.dormant t
  have hkeep' : ∀ e ∈ es ++ updates us, KeepsSequence e := by
    intro e he
    rcases List.mem_append.mp he with he | he
    · exact hkeep e he
    · exact keepsSequence_updates us e he
  have hcommands := filter_view t hes
  rw [filterMap_restartBranch] at hcommands
  have := hdormant.start (f := value L b.sendSequence t) (k := 2) hcommands hus
  rw [channel_exec t hdormant.not_pending hkeep', List.filterMap_append, filterMap_updates]
  exact this

/-- One frame. However the updates of the two timers fall between the statements of
the restart branch, TIM1 puts out the loaded bits and then rests, TIM8 triggers as
many conversions as the stream has been loaded for, and the next frame finds what
this one has found. -/
theorem frame_emits_sequence (g : Globals) (hb : Resting b) {es : List Event}
    (hes : es.filterMap statement? = restartBranch g.sampleSize)
    (hkeep : ∀ e ∈ es, KeepsSequence e) {us : List (Bool × Bool)}
    (hsenior : g.sequenceLength + 2 ≤ us.countP Prod.fst)
    (hadc : g.sequenceLength + 2 ≤ us.countP Prod.snd) :
    Emitted g b (b.fresh.exec g.sequenceLength (es ++ updates us)) := by
  obtain ⟨ks, ms, hms, hs⟩ := hb.started .senior hes hkeep hsenior
  obtain ⟨ka, ma, hma, ha⟩ := hb.started .adc hes hkeep hadc
  have hstream : (b.fresh.exec g.sequenceLength (es ++ updates us)).stream =
      b.stream.start g.sampleSize := by
    have hregisters := registers_exec (b := b.fresh) (L := g.sequenceLength) rfl (es ++ updates us)
    rw [List.filterMap_append, hes, statements_updates, List.append_nil,
      restartBranch_registers] at hregisters
    exact congrArg Prod.fst hregisters
  generalize b.fresh.exec g.sequenceLength (es ++ updates us) = b' at *
  have hidle : b'.senior.timer.ccr1 = idle .senior ∧ b'.adc.timer.ccr1 = idle .adc :=
    ⟨(hs.ccr1_eq hms).trans (value_last _ _ .senior), (ha.ccr1_eq hma).trans (value_last _ _ .adc)⟩
  refine ⟨⟨idle .senior, by decide, ?_⟩, ?_, ?_, ⟨rfl, hstream⟩, ?_⟩
  · refine (hs.runs_reverse hms).trans (List.map_congr_left fun i hi => ?_)
    exact seniorValue_of_le _ (Nat.le_of_lt_succ (List.mem_range.mp hi))
  · have := congrArg List.length (ha.runs_reverse hma)
    rwa [List.length_reverse, List.length_map, List.length_range] at this
  · have hentry : adcPeriod < (b.channel .adc).timer.ccr1 := hb.adc
    refine ha.count_periods hma ?_ ?_ fun i hi => adcValue_of_lt hi
    · exact (lt_trans (by decide) hentry).ne'
    · rw [value_last]
      decide
  · refine ⟨fun t => ?_, by rw [hidle.1]; decide, by rw [hidle.2]; decide⟩
    cases t with
    | senior => exact hs.uie_eq_false hms
    | adc => exact ha.uie_eq_false hma

/-- The board after the first frame of order four, with the bits 1, 0, 1 loaded. -/
def betweenFrames : Board :=
  (firstFrame 4 fun i => if i = 1 then 0 else 1).exec 3 (updates (.replicate 5 (true, true)))

theorem betweenFrames_off (t : Tim) : (betweenFrames.channel t).timer.uie = false := by
  cases t <;> decide

/-- A frame with an update of TIM8 between the two commands that enable the
interrupts. -/
theorem frame_emits_sequence_three_bits :
    Emitted orderFour betweenFrames (betweenFrames.fresh.exec 3
      (((restartBranch 4).take 11).map .statement ++
        .update false true :: ((restartBranch 4).drop 11).map .statement ++
        updates (.replicate 6 (true, true)))) :=
  frame_emits_sequence orderFour ⟨betweenFrames_off, by decide, by decide⟩ rfl
    (by simp [restartBranch, KeepsSequence]) (by decide) (by decide)

/-! ## The phase of the updates -/

/-- The restart branch with one update of both timers before the statement at
position `p`; beyond the last position the update comes after the call. -/
def restart (number p : ℕ) : List Event :=
  ((restartBranch number).take p).map .statement ++
    .update true true :: ((restartBranch number).drop p).map .statement

/-- The update comes when the flag of TIM8 has been cleared for the last time and the
flag of TIM1 has not. -/
def BetweenClears (number p : ℕ) : Prop :=
  .clearITPendingBit .adc ∈ (restartBranch number).take p ∧
    .clearITPendingBit .senior ∉ (restartBranch number).take p

/-- The level of TIM1 with the given compare value: high from the compare value to
the end of the period. -/
def level (ccr1 : ℕ) : Bool := decide (ccr1 ≤ sequencePeriod)

/-- The levels of TIM1 in the periods in which TIM8 triggers a conversion, the first
one first. -/
def triggers (b : Board) : List Bool :=
  ((b.adc.periods.reverse.zip b.senior.periods.reverse).filter (·.1 = adcLowTime)).map
    fun p => level p.2

/-- How many of the statements before position `p` are commands to a timer. -/
def commandsBefore (number p : ℕ) (t : Tim) : ℕ :=
  (((restartBranch number).take p).filterMap (command t)).length

theorem commandsBefore_mono (number : ℕ) (t : Tim) {p q : ℕ} (h : p ≤ q) :
    commandsBefore number p t ≤ commandsBefore number q t :=
  ((List.take_prefix_take_left h).sublist.filterMap (command t)).length_le

theorem clear_mem_restartBranch (number : ℕ) (t : Tim) :
    .clearITPendingBit t ∈ restartBranch number := by
  cases t <;> simp [restartBranch]

/-- The third command to a timer is the last clearing of its flag. -/
theorem three_le_commandsBefore (number p : ℕ) (t : Tim) :
    3 ≤ commandsBefore number p t ↔
      .clearITPendingBit t ∈ (restartBranch number).take p := by
  rw [List.mem_take_iff_idxOf_lt (clear_mem_restartBranch number t)]
  have htwo : commandsBefore number ((restartBranch number).idxOf (.clearITPendingBit t)) t = 2 := by
    cases t <;> rfl
  have hthree :
      commandsBefore number ((restartBranch number).idxOf (.clearITPendingBit t) + 1) t = 3 := by
    cases t <;> rfl
  constructor
  · intro h
    by_contra hp
    have := commandsBefore_mono number t (Nat.le_of_not_lt hp)
    omega
  · intro hp
    rw [← hthree]
    exact commandsBefore_mono number t hp

/-- What the call and the update are to one timer. -/
theorem filterMap_restart (number p : ℕ) (t : Tim) :
    (restart number p).filterMap (view t) =
      commands.take (commandsBefore number p t) ++
        .update :: commands.drop (commandsBefore number p t) := by
  have hsplit : ((restartBranch number).take p).filterMap (command t) ++
      ((restartBranch number).drop p).filterMap (command t) = commands := by
    rw [← List.filterMap_append, List.take_append_drop, filterMap_restartBranch]
  have hview : ∀ statements : List Statement,
      (statements.map Event.statement).filterMap (view t) = statements.filterMap (command t) :=
    fun statements => List.filterMap_map
  have hupdate : view t (.update true true) = some .update := by cases t <;> rfl
  rw [← hsplit, commandsBefore, List.take_left, List.drop_left, restart, List.filterMap_append,
    List.filterMap_cons, hupdate, hview, hview]

/-- The first run of the handler comes with this update, counted from one. -/
def firstRun (k : ℕ) : ℕ := if 3 ≤ k then 1 else 2

theorem firstRun_le (k : ℕ) : firstRun k ≤ 2 := by
  unfold firstRun
  split_ifs <;> omega

/-- The burst of a timer that meets the update after `k` of its commands. -/
theorem started_restart (f : ℕ → ℕ) (last : ℕ) {v k : ℕ} {c : Channel} (hc : Dormant v 0 c)
    (hk : k ≤ 4) (n : ℕ) :
    Started f last v (firstRun k) (n + 2 - firstRun k) (c.exec f last
      (commands.take k ++ .update :: commands.drop k ++ .replicate (n + 1) .update)) := by
  match k, hk with
  | 0, _ =>
    exact hc.burst [.update, .reset, .clear] (by decide) (by decide) (Nat.zero_le 1)
      (Nat.zero_add (n + 1))
  | 1, _ =>
    exact hc.burst [.reset, .update, .clear] (by decide) (by decide) (Nat.zero_le 1)
      (Nat.zero_add (n + 1))
  | 2, _ =>
    exact hc.burst [.reset, .clear, .update] (by decide) (by decide) (Nat.zero_le 1)
      (Nat.zero_add (n + 1))
  | 3, _ =>
    exact hc.burst [.reset, .clear] (by decide) (by decide) (Nat.le_refl 1)
      (Nat.add_comm 1 (n + 1))
  | 4, _ =>
    exact hc.burst [.reset, .clear] (by decide) (by decide) (Nat.zero_le 1)
      (Nat.zero_add (n + 2))

theorem commandsBefore_le (number p : ℕ) (t : Tim) : commandsBefore number p t ≤ 4 := by
  have hsub := (List.take_sublist p (restartBranch number)).filterMap (command t)
  rw [filterMap_restartBranch] at hsub
  exact hsub.length_le

theorem keepsSequence_restart (number p : ℕ) : ∀ e ∈ restart number p, KeepsSequence e := by
  intro e he
  rw [restart, List.mem_append, List.mem_cons] at he
  rcases he with he | rfl | he
  · obtain ⟨s, -, rfl⟩ := List.mem_map.mp he
    trivial
  · trivial
  · obtain ⟨s, -, rfl⟩ := List.mem_map.mp he
    trivial

/-- The records of a timer that meets the update in the restart branch. -/
theorem Resting.started_restart (hb : Resting b) (number p n : ℕ) (t : Tim) :
    Started (value L b.sendSequence t) (L + 1) (b.channel t).timer.ccr1
      (firstRun (commandsBefore number p t)) (n + 2 - firstRun (commandsBefore number p t))
      ((b.fresh.exec L (restart number p ++ updates (.replicate (n + 1) (true, true)))).channel
        t) := by
  have hdormant := hb.dormant t
  have hkeep : ∀ e ∈ restart number p ++ updates (.replicate (n + 1) (true, true)),
      KeepsSequence e := by
    intro e he
    rcases List.mem_append.mp he with he | he
    · exact keepsSequence_restart number p e he
    · exact keepsSequence_updates _ e he
  have hcount : (List.replicate (n + 1) (true, true)).countP (pick t) = n + 1 := by
    cases t <;> simp [pick, List.countP_replicate]
  rw [channel_exec t hdormant.not_pending hkeep, List.filterMap_append, filterMap_updates, hcount,
    filterMap_restart]
  exact Timers.started_restart _ _ hdormant (commandsBefore_le number p t) n

/-- The levels at the conversions, given the updates at which the two bursts began. -/
theorem triggers_eq {L : ℕ} {seq : ℕ → UInt8} {vs va ks ka n : ℕ} {b' : Board}
    (hs : Started (value L seq .senior) (L + 1) vs ks (n + 2 - ks) b'.senior)
    (ha : Started (value L seq .adc) (L + 1) va ka (n + 2 - ka) b'.adc)
    (hks : ks ≤ n + 2) (hka : ka + (L + 1) ≤ n + 2) (hva : va ≠ adcLowTime) :
    triggers b' = (List.range (L + 1)).map fun j =>
      level (wave (value L seq .senior) (L + 1) vs ks (ka + j)) := by
  have hfilter := filter_wave (f := value L seq .adc) (b := ka) hva
    (by rw [value_last]; decide) (fun i hi => adcValue_of_lt hi) hka
  rw [triggers, ha.periods_reverse, hs.periods_reverse, Nat.add_sub_cancel' hks,
    Nat.add_sub_cancel' (by omega), List.zip_map', List.filter_map, List.map_map]
  have hfirst : ((fun x : ℕ × ℕ => decide (x.1 = adcLowTime)) ∘ fun i =>
      (wave (value L seq .adc) (L + 1) va ka i, wave (value L seq .senior) (L + 1) vs ks i)) =
      fun i => decide (wave (value L seq .adc) (L + 1) va ka i = adcLowTime) := rfl
  rw [hfirst, hfilter, List.map_map]
  rfl

/-- A bit that is one is a high level; everything else is low. -/
theorem level_seniorValue (seq : ℕ → UInt8) {i : ℕ} (hi : i ≤ L + 1) :
    level (seniorValue L seq i) = decide (i < L ∧ seq i = 1) := by
  rw [seniorValue_of_le seq hi]
  split_ifs with hbit
  · rw [decide_eq_true hbit]
    rfl
  · rw [decide_eq_false hbit]
    rfl

/-- The levels that the conversions are meant to meet: the bits, then the idle level. -/
def alignedLevels (L : ℕ) (seq : ℕ → UInt8) : List Bool :=
  (List.range (L + 1)).map fun j => decide (j < L ∧ seq j = 1)

/-- With both bursts beginning at one update, conversion `j` meets bit `j`. -/
theorem levels_of_same_start (L : ℕ) (seq : ℕ → UInt8) (v k : ℕ) :
    ((List.range (L + 1)).map fun j => level (wave (value L seq .senior) (L + 1) v k (k + j))) =
      alignedLevels L seq := by
  refine List.map_congr_left fun j hj => ?_
  have hj : j < L + 1 := List.mem_range.mp hj
  rw [wave_add, Nat.min_eq_left hj.le]
  exact level_seniorValue seq hj.le

/-- When TIM8 begins one update before TIM1, conversion 0 meets the idle level and
conversion `j + 1` meets bit `j`; only without a one among the bits is that no
difference. -/
theorem levels_of_late_start (L : ℕ) (seq : ℕ → UInt8) {v : ℕ} (hv : sequencePeriod < v) (k : ℕ) :
    ((List.range (L + 1)).map fun j =>
        level (wave (value L seq .senior) (L + 1) v (k + 1) (k + j))) = alignedLevels L seq ↔
      ∀ j < L, seq j ≠ 1 := by
  have hzero : level (wave (value L seq .senior) (L + 1) v (k + 1) (k + 0)) = false := by
    rw [wave_of_lt (by omega)]
    exact decide_eq_false (by omega)
  have hsucc : ∀ j ≤ L, level (wave (value L seq .senior) (L + 1) v (k + 1) (k + (j + 1))) =
      decide (j < L ∧ seq j = 1) := by
    intro j hj
    rw [show k + (j + 1) = k + 1 + j by omega, wave_add, Nat.min_eq_left (by omega)]
    exact level_seniorValue seq (by omega)
  rw [alignedLevels, List.map_inj_left]
  constructor
  · -- Each bit equals the one before, and the first one the idle level.
    intro hsame j
    induction j with
    | zero =>
      intro hj hone
      have hbit := hsame 0 (List.mem_range.mpr (by omega))
      rw [hzero, decide_eq_true ⟨hj, hone⟩] at hbit
      exact Bool.false_ne_true hbit
    | succ j ih =>
      intro hj hone
      have hbit := hsame (j + 1) (List.mem_range.mpr (by omega))
      rw [hsucc j (by omega), decide_eq_true (p := j + 1 < L ∧ seq (j + 1) = 1) ⟨hj, hone⟩] at hbit
      exact ih (by omega) (of_decide_eq_true hbit).2
  · intro hlow j hj
    have hj : j < L + 1 := List.mem_range.mp hj
    rw [decide_eq_false fun hone => hlow j hone.1 hone.2]
    cases j with
    | zero => exact hzero
    | succ j =>
      rw [hsucc j (by omega)]
      exact decide_eq_false fun hone => hlow j hone.1 hone.2

/-- The flag of TIM8 is cleared before that of TIM1. -/
theorem clear_adc_of_clear_senior {number p : ℕ}
    (h : .clearITPendingBit .senior ∈ (restartBranch number).take p) :
    .clearITPendingBit .adc ∈ (restartBranch number).take p := by
  rw [List.mem_take_iff_idxOf_lt (clear_mem_restartBranch number _)] at h ⊢
  have horder : (restartBranch number).idxOf (.clearITPendingBit .adc) <
      (restartBranch number).idxOf (.clearITPendingBit .senior) := show 3 < 5 by decide
  exact horder.trans h

/-- In every run and wherever the update falls in the restart branch, the conversions
of the frame meet the bits in order and then the idle level, if and only if the update
does not come between the clearing of the two flags, or there is no one to be sent. -/
theorem conversions_aligned_iff (hb : Reached L b) (hoff : ∀ t, (b.channel t).timer.uie = false)
    (number p : ℕ) {n : ℕ} (hn : L < n) :
    triggers (b.fresh.exec L (restart number p ++ updates (.replicate (n + 1) (true, true)))) =
        alignedLevels L b.sendSequence ↔
      ¬BetweenClears number p ∨ ∀ j < L, b.sendSequence j ≠ 1 := by
  have hrest := hb.resting hoff
  have hs := hrest.started_restart (L := L) number p n .senior
  have ha := hrest.started_restart (L := L) number p n .adc
  have hks := firstRun_le (commandsBefore number p .senior)
  have hka := firstRun_le (commandsBefore number p .adc)
  rw [triggers_eq hs ha (by omega) (by omega)
    ((show adcLowTime < adcPeriod by decide).trans hrest.adc).ne']
  by_cases hadc : .clearITPendingBit .adc ∈ (restartBranch number).take p
  · have hone : firstRun (commandsBefore number p .adc) = 1 :=
      if_pos ((three_le_commandsBefore number p .adc).mpr hadc)
    by_cases hsenior : .clearITPendingBit .senior ∈ (restartBranch number).take p
    · have hone' : firstRun (commandsBefore number p .senior) = 1 :=
        if_pos ((three_le_commandsBefore number p .senior).mpr hsenior)
      rw [hone, hone', levels_of_same_start]
      exact iff_of_true rfl (.inl fun hbetween => hbetween.2 hsenior)
    · have htwo : firstRun (commandsBefore number p .senior) = 2 :=
        if_neg (mt (three_le_commandsBefore number p .senior).mp hsenior)
      rw [hone, htwo]
      refine (levels_of_late_start L b.sendSequence hrest.senior 1).trans ?_
      exact ⟨.inr, fun h => h.resolve_left fun hnot => hnot ⟨hadc, hsenior⟩⟩
  · have hsenior : .clearITPendingBit .senior ∉ (restartBranch number).take p :=
      mt clear_adc_of_clear_senior hadc
    have htwo : ∀ t, .clearITPendingBit t ∉ (restartBranch number).take p →
        firstRun (commandsBefore number p t) = 2 :=
      fun t ht => if_neg (mt (three_le_commandsBefore number p t).mp ht)
    rw [htwo .adc hadc, htwo .senior hsenior, levels_of_same_start]
    exact iff_of_true rfl (.inl fun hbetween => hadc hbetween.1)

/-- An update between the two clearings lets TIM8 begin one period before TIM1. -/
theorem not_every_phase_aligned :
    ¬ ∀ (L : ℕ) (b : Board), Reached L b → (∀ t, (b.channel t).timer.uie = false) →
      ∀ number p n, L < n →
        triggers (b.fresh.exec L
          (restart number p ++ updates (.replicate (n + 1) (true, true)))) =
            alignedLevels L b.sendSequence := by
  intro hall
  have haligned := hall 3 betweenFrames ⟨_, _, _, rfl⟩ betweenFrames_off 4 4 4 (by decide)
  exact absurd haligned (by decide)

/-- An update between the two commands that enable the interrupts does no harm. -/
theorem conversions_aligned_between_enables :
    triggers (betweenFrames.fresh.exec 3
      (restart 4 11 ++ updates (.replicate 5 (true, true)))) = [true, false, true, false] :=
  (conversions_aligned_iff (L := 3) ⟨_, _, _, rfl⟩ betweenFrames_off 4 11 (by decide)).mpr
    (.inl fun hbetween => hbetween.2 (by decide))

end HadamardIMS.Timers
