import HadamardIMS.Timers

/-!
# The acquisition with its timers

`main` and its interrupts together with TIM1, TIM8 and the converter. A run begins between
two frames, behind the one that is thrown away. A call of `beginSample` is not one step any
more: its statements are executed one by one, and between any two of them the key may be
pressed and a timer may come to its update. TIM8 triggers a conversion in each period in which
`adcLowTime` is in effect, the conversion ends before the next update of TIM8, and then
the stream moves the result, unless no transfer awaits it.
-/
namespace HadamardIMS.Devices

open Buffers Signals Runs Bursts Timers Acquisition

variable {L : ℕ} {g : Globals}

/-- What the loop and the interrupts work on, the statements of `beginSample` that are
still to be executed, the two timers, the conversion under way and the number of results
that nobody fetched. -/
structure Device (L : ℕ) where
  state : State L
  statements : List Statement
  senior : Channel
  adc : Channel
  ovr : Bool
  dma : Bool
  cen : Bool
  conversion : Bool
  lost : ℕ

/-- A step of `main`, a press of the key, an update of one timer or of both at the same
instant, and the end of a conversion. -/
inductive Event where
  | main
  | key
  | update (senior adc : Bool)
  | convert (v : UInt16)
  deriving Repr, DecidableEq

namespace Device

/-- The part that the restart branch and the timers work on. -/
def board (d : Device L) : Board where
  sendSequence := d.state.sendSequence.value
  senior := d.senior
  adc := d.adc
  stream := d.state.stream
  ovr := d.ovr
  dma := d.dma
  cen := d.cen

def withBoard (d : Device L) (b : Board) : Device L :=
  { d with
    state := { d.state with stream := b.stream }
    senior := b.senior
    adc := b.adc
    ovr := b.ovr
    dma := b.dma
    cen := b.cen }

/-- An event of the board and the interrupts that it raises. -/
def react (d : Device L) (e : Timers.Event) : Device L := d.withBoard (d.board.step L e)

end Device

/-- `main` is at a call of `beginSample`. -/
def AtBegin (pc : Pc) : Prop := pc = .initialBegin ∨ pc = .startBegin ∨ pc = .rowBegin

instance (pc : Pc) : Decidable (AtBegin pc) := inferInstanceAs (Decidable (_ ∨ _))

/-- The place behind a call of `beginSample`. -/
def afterBegin (pc : Pc) : Pc := if pc = .rowBegin then .roundTest else .switch

/-- The next statement of `beginSample`; the last one returns to the loop. -/
def advance (d : Device L) (s : Statement) (rest : List Statement) : Device L :=
  let d := d.react (.statement s)
  let pc := if rest = [] then afterBegin d.state.pc else d.state.pc
  { d with state := { d.state with pc }, statements := rest }

/-- One step of `main`. The branch of `beginSample` for the frame that is thrown away is
left out. -/
def mainStep (m : Setup g) (d : Device g.sequenceLength) : Option (Device g.sequenceLength) :=
  match d.statements with
  | s :: rest => some (advance d s rest)
  | [] =>
    if AtBegin d.state.pc then
      if d.state.frameCount = 0 then none
      else some { d with statements := restartBranch g.sampleSize }
    else (Acquisition.mainStep m d.state).toOption.map fun state => { d with state }

/-- The device after an update. One of TIM8 starts a conversion if it puts `adcLowTime` into
effect. -/
def updated (senior adc : Bool) (d : Device L) : Device L :=
  { d.react (.update senior adc) with
    conversion := d.conversion || (adc && decide (d.adc.timer.ccr1 = adcLowTime)) }

/-- A transfer, with the completion interrupt that the last one raises. -/
def deliver (v : UInt16) (s : State L) : Except Fault (State L) := do
  let s' ← transfer v s
  .ok (if s.stream.ndtr = 1 then dmaInterrupt s' else s')

/-- The result `v` of a conversion is moved by the stream or lost. -/
def convert (v : UInt16) (d : Device L) : Option (Device L) :=
  if d.conversion then
    if d.state.stream.en ∧ 0 < d.state.stream.ndtr then
      (deliver v d.state).toOption.map fun state => { d with state, conversion := false }
    else some { d with conversion := false, lost := d.lost + 1 }
  else none

/-- The whole device: `none` where the event cannot happen or `main` faults. TIM8 has no
update while a conversion is under way. -/
def step (m : Setup g) (d : Device g.sequenceLength) : Event → Option (Device g.sequenceLength)
  | .main => mainStep m d
  | .key => some { d with state := keyInterrupt d.state }
  | .update senior adc => if adc ∧ d.conversion then none else some (updated senior adc d)
  | .convert v => convert v d

/-! ## What a step can do -/

/-- What a transfer leaves. -/
def delivered (v : UInt16) (s : State L) : State L :=
  let convertedValue := s.convertedValue.put s.stream.next v
  let stream : Stream := ⟨s.stream.en, s.stream.ndtr - 1, s.stream.next + 1⟩
  if s.stream.ndtr = 1 then dmaInterrupt { s with convertedValue, stream }
  else { s with convertedValue, stream }

theorem deliver_eq_ok {v : UInt16} {s s' : State L} (h : deliver v s = .ok s') :
    s.stream.next < L + 2 ∧ s' = delivered v s := by
  obtain ⟨t, ht, h⟩ := Loops.bind_eq_ok.mp h
  obtain ⟨hroom, rfl⟩ := transfer_eq_ok ht
  cases h
  exact ⟨hroom, rfl⟩

/-- The steps of the device, with the tests that lead to them. -/
inductive StepCase (m : Setup g) (d : Device g.sequenceLength) :
    Event → Device g.sequenceLength → Prop
  | begin (hstatements : d.statements = []) (hpc : AtBegin d.state.pc)
      (hcount : d.state.frameCount ≠ 0) :
      StepCase m d .main { d with statements := restartBranch g.sampleSize }
  | statement {s : Statement} {rest : List Statement} (hstatements : d.statements = s :: rest) :
      StepCase m d .main (advance d s rest)
  | main {state : State g.sequenceLength} (hstatements : d.statements = [])
      (hpc : ¬AtBegin d.state.pc) (hmain : Acquisition.mainStep m d.state = .ok state) :
      StepCase m d .main { d with state }
  | key : StepCase m d .key { d with state := keyInterrupt d.state }
  | update (senior adc : Bool) (hidle : ¬(adc ∧ d.conversion)) :
      StepCase m d (.update senior adc) (updated senior adc d)
  | move (v : UInt16) (hconversion : d.conversion = true) (hen : d.state.stream.en = true)
      (hmore : 0 < d.state.stream.ndtr) (hroom : d.state.stream.next < g.sequenceLength + 2) :
      StepCase m d (.convert v) { d with state := delivered v d.state, conversion := false }
  | lose (v : UInt16) (hconversion : d.conversion = true)
      (hnone : ¬(d.state.stream.en = true ∧ 0 < d.state.stream.ndtr)) :
      StepCase m d (.convert v) { d with conversion := false, lost := d.lost + 1 }

theorem step_cases {m : Setup g} {d d' : Device g.sequenceLength} {e : Event}
    (h : step m d e = some d') : StepCase m d e d' := by
  cases e with
  | main =>
    simp only [step, mainStep] at h
    split at h
    case h_1 s rest hstatements =>
      cases h
      exact .statement hstatements
    case h_2 hstatements =>
      split_ifs at h with hpc hcount
      · cases h
        exact .begin hstatements hpc hcount
      · obtain ⟨state, hmain, rfl⟩ := Option.map_eq_some_iff.mp h
        exact .main hstatements hpc (Loops.toOption_eq_some.mp hmain)
  | key =>
    cases h
    exact .key
  | update senior adc =>
    simp only [step] at h
    split_ifs at h with hidle
    cases h
    exact .update senior adc hidle
  | convert v =>
    simp only [step, convert] at h
    split_ifs at h with hconversion hready
    · obtain ⟨state, htransfer, rfl⟩ := Option.map_eq_some_iff.mp h
      obtain ⟨hroom, rfl⟩ := deliver_eq_ok (Loops.toOption_eq_some.mp htransfer)
      exact .move v hconversion hready.1 hready.2 hroom
    · cases h
      exact .lose v hconversion hready

/-! ## The effect on the timers and the stream -/

theorem react_adc (d : Device L) (e : Timers.Event) :
    (d.react e).adc = ((view .adc e).elim d.adc d.adc.apply).serve (adcValue L) (L + 1) := by
  have hserve := channel_interrupts (L := L) (d.board.apply e) .adc
  rw [channel_apply] at hserve
  exact hserve

theorem command_eq_enable {t : Tim} {s : Statement} :
    command t s = some .enable ↔ s = .itConfig t := by
  cases s <;> simp [command]

/-- While its interrupt stays off TIM8 does nothing but record the event. -/
theorem react_adc_of_off {d : Device L} {e : Timers.Event} (hoff : d.adc.timer.uie = false)
    (he : view .adc e ≠ some .enable) :
    (d.react e).adc = (view .adc e).elim d.adc d.adc.apply := by
  rw [react_adc]
  apply Channel.serve_of_not_pending
  rintro ⟨-, hon⟩
  cases hview : view .adc e with
  | none =>
    rw [hview] at hon
    exact Bool.false_ne_true (hoff.symm.trans hon)
  | some command =>
    rw [hview] at hon he
    cases command with
    | enable => exact he rfl
    | _ => exact Bool.false_ne_true (hoff.symm.trans hon)

theorem react_senior (d : Device L) {e : Timers.Event} (he : KeepsSequence e) :
    (d.react e).senior = ((view .senior e).elim d.senior d.senior.apply).serve
      (seniorValue L d.state.sendSequence.value) (L + 1) := by
  have hserve := channel_interrupts (L := L) (d.board.apply e) .senior
  rw [channel_apply, sendSequence_apply he] at hserve
  exact hserve

@[simp] theorem advance_adc (d : Device L) (s : Statement) (rest : List Statement) :
    (advance d s rest).adc = (d.react (.statement s)).adc := rfl

@[simp] theorem advance_conversion (d : Device L) (s : Statement) (rest : List Statement) :
    (advance d s rest).conversion = d.conversion := rfl

@[simp] theorem advance_statements (d : Device L) (s : Statement) (rest : List Statement) :
    (advance d s rest).statements = rest := rfl

@[simp] theorem advance_stream (d : Device L) (s : Statement) (rest : List Statement) :
    (advance d s rest).state.stream = (d.board.execute s).stream := rfl

/-! ## The phases of a frame -/

/-- A call of `beginSample` has not yet enabled the interrupt of TIM8. -/
structure Starting (d : Device L) : Prop where
  enable : .itConfig .adc ∈ d.statements
  uie : d.adc.timer.uie = false
  ccr1 : d.adc.timer.ccr1 = idle .adc
  conversion : d.conversion = false
  count : .resetCount .adc ∉ d.statements → d.adc.count = 0
  en : d.state.stream.en = decide (.dmaCmd ∉ d.statements)
  ndtr : .loadNDTR (L + 1) ∉ d.statements → d.state.stream.ndtr = L + 1
  next : .dmaCmd ∉ d.statements → d.state.stream.next = 0

/-- No frame is on its way. -/
structure AtRest (d : Device L) : Prop where
  enabled : .itConfig .adc ∉ d.statements
  uie : d.adc.timer.uie = false
  ccr1 : d.adc.timer.ccr1 = idle .adc
  conversion : d.conversion = false
  en : d.state.stream.en = false

/-- The handler of TIM8 has run `k` times, and from its second run on each has started a
conversion. -/
structure Sampling (k : ℕ) (d : Device L) : Prop where
  enabled : .itConfig .adc ∉ d.statements
  uif : d.adc.timer.uif = false
  uie : d.adc.timer.uie = true
  ccr1 : d.adc.timer.ccr1 = if k = 0 then idle .adc else adcLowTime
  count : d.adc.count = k
  le : k ≤ L + 1
  en : d.state.stream.en = true
  ndtr : d.state.stream.next + d.state.stream.ndtr = L + 1
  next : d.state.stream.next + d.conversion.toNat = k - 1

/-- TIM8 is done and the last conversion is under way. -/
structure Finishing (d : Device L) : Prop where
  enabled : .itConfig .adc ∉ d.statements
  uie : d.adc.timer.uie = false
  ccr1 : d.adc.timer.ccr1 = idle .adc
  conversion : d.conversion = true
  en : d.state.stream.en = true
  ndtr : d.state.stream.ndtr = 1
  next : d.state.stream.next = L

inductive Phase (d : Device L) : Prop
  | starting (h : Starting d)
  | atRest (h : AtRest d)
  | sampling (k : ℕ) (h : Sampling k d)
  | finishing (h : Finishing d)

variable {d d' : Device L}

section Congr

variable (hadc : d'.adc = d.adc) (hstream : d'.state.stream = d.state.stream)
  (hconversion : d'.conversion = d.conversion)

include hadc hstream hconversion

theorem Starting.congr (h : Starting d) (hstatements : d'.statements = d.statements) :
    Starting d' := by
  obtain ⟨h₁, h₂, h₃, h₄, h₅, h₆, h₇, h₈⟩ := h
  constructor <;> simpa only [hstatements, hadc, hstream, hconversion]

theorem AtRest.congr (h : AtRest d) (henabled : .itConfig .adc ∉ d'.statements) : AtRest d' :=
  ⟨henabled, hadc ▸ h.uie, hadc ▸ h.ccr1, hconversion ▸ h.conversion, hstream ▸ h.en⟩

theorem Sampling.congr {k : ℕ} (h : Sampling k d) (henabled : .itConfig .adc ∉ d'.statements) :
    Sampling k d' := by
  refine ⟨henabled, hadc ▸ h.uif, hadc ▸ h.uie, hadc ▸ h.ccr1, hadc ▸ h.count, h.le, ?_, ?_, ?_⟩
  · exact hstream ▸ h.en
  · exact hstream ▸ h.ndtr
  · rw [hstream, hconversion]
    exact h.next

theorem Finishing.congr (h : Finishing d) (henabled : .itConfig .adc ∉ d'.statements) :
    Finishing d' :=
  ⟨henabled, hadc ▸ h.uie, hadc ▸ h.ccr1, hconversion ▸ h.conversion, hstream ▸ h.en,
    hstream ▸ h.ndtr, hstream ▸ h.next⟩

/-- The phase is a matter of TIM8, the stream, the conversion and the statements. -/
theorem Phase.congr (h : Phase d) (hstatements : d'.statements = d.statements) : Phase d' := by
  cases h with
  | starting h => exact .starting (h.congr hadc hstream hconversion hstatements)
  | atRest h => exact .atRest (h.congr hadc hstream hconversion (hstatements ▸ h.enabled))
  | sampling k h => exact .sampling k (h.congr hadc hstream hconversion (hstatements ▸ h.enabled))
  | finishing h => exact .finishing (h.congr hadc hstream hconversion (hstatements ▸ h.enabled))

end Congr

/-- No update of TIM8 waits to be served. -/
theorem Phase.not_pending (h : Phase d) : ¬d.adc.Pending := by
  rintro ⟨huif, huie⟩
  cases h with
  | starting h => exact Bool.false_ne_true (h.uie.symm.trans huie)
  | atRest h => exact Bool.false_ne_true (h.uie.symm.trans huie)
  | sampling k h => exact Bool.false_ne_true (h.uif.symm.trans huif)
  | finishing h => exact Bool.false_ne_true (h.uie.symm.trans huie)

/-- What the order of the statements of the restart branch says about one of them. -/
structure Ordered (number : ℕ) (s : Statement) (rest : List Statement) : Prop where
  fresh : s ∉ rest
  number_eq : ∀ n, s = .loadNDTR n → n = number
  load : s = .loadNDTR number → .dmaCmd ∈ rest
  loaded : s = .dmaCmd → .loadNDTR number ∉ rest
  enable : s = .itConfig .adc → rest = [.itConfig .senior, .timCmd]
  before : .dmaCmd ∈ s :: rest → .itConfig .adc ∈ s :: rest
  late : .itConfig .adc ∉ s :: rest → s = .itConfig .senior ∨ s = .timCmd
  enable_senior : s = .itConfig .senior → rest = [.timCmd]
  last : s = .timCmd → rest = []
  clears : ∀ t, command t s = some .clear → .clearITPendingBit .senior ∈ s :: rest
  clears_adc : s = .clearITPendingBit .senior → .clearITPendingBit .adc ∉ rest

theorem ordered_of_suffix {number : ℕ} {s : Statement} {rest : List Statement}
    (h : s :: rest <:+ restartBranch number) : Ordered number s rest := by
  obtain ⟨before, hbefore⟩ := h
  have hlength := congrArg List.length hbefore
  rw [List.length_append, List.length_cons] at hlength
  have htotal : (restartBranch number).length = 13 := rfl
  have hdrop : s :: rest = (restartBranch number).drop before.length := by
    rw [← hbefore, List.drop_left]
  have hlt : before.length < 13 := by omega
  generalize before.length = p at hdrop hlt
  interval_cases p <;> cases hdrop <;> constructor <;> simp [command]

/-- Only two statements touch the stream. -/
theorem execute_stream {b : Board} {s : Statement} (hload : ∀ n, s ≠ .loadNDTR n)
    (hcmd : s ≠ .dmaCmd) : (b.execute s).stream = b.stream := by
  cases s with
  | loadNDTR n => exact absurd rfl (hload n)
  | dmaCmd => exact absurd rfl hcmd
  | resetCount t | clearFlag t | clearITPendingBit t | itConfig t => cases t <;> rfl
  | _ => rfl

section Statements

variable {s : Statement} {rest : List Statement}

/-- The stream in the course of a call: the count first, then the enable bit. -/
theorem Starting.advance_stream (h : Starting d) (hstatements : d.statements = s :: rest)
    (horder : Ordered (L + 1) s rest) :
    (advance d s rest).state.stream.en = decide (.dmaCmd ∉ rest) ∧
      (.loadNDTR (L + 1) ∉ rest → (advance d s rest).state.stream.ndtr = L + 1) ∧
      (.dmaCmd ∉ rest → (advance d s rest).state.stream.next = 0) := by
  obtain ⟨-, -, -, -, -, hen, hndtr, hnext⟩ := h
  simp only [hstatements, List.mem_cons, not_or] at hen hndtr hnext
  rw [Devices.advance_stream]
  by_cases hload : ∃ n, s = .loadNDTR n
  · obtain ⟨n, rfl⟩ := hload
    obtain rfl := horder.number_eq n rfl
    have hcmd : .dmaCmd ∈ rest := horder.load rfl
    have hoff : d.board.stream.en = false := hen.trans (decide_eq_false fun h => h.2 hcmd)
    have hstream : (d.board.execute (.loadNDTR (L + 1))).stream =
        ⟨false, L + 1, d.board.stream.next⟩ := if_neg (ne_true_of_eq_false hoff)
    rw [hstream]
    exact ⟨(decide_eq_false (not_not_intro hcmd)).symm, fun _ => rfl, fun h => absurd hcmd h⟩
  · have hload := not_exists.mp hload
    by_cases hcmd : s = .dmaCmd
    · subst hcmd
      have hoff : d.board.stream.en = false := hen.trans (decide_eq_false fun h => h.1 rfl)
      have hstream : (d.board.execute .dmaCmd).stream = ⟨true, d.board.stream.ndtr, 0⟩ :=
        if_neg (ne_true_of_eq_false hoff)
      rw [hstream]
      exact ⟨(decide_eq_true horder.fresh).symm, fun h => hndtr ⟨Ne.symm (hload _), h⟩,
        fun _ => rfl⟩
    · rw [execute_stream hload hcmd]
      exact ⟨hen.trans (decide_eq_decide.mpr (and_iff_right (Ne.symm hcmd))),
        fun h => hndtr ⟨Ne.symm (hload _), h⟩, fun h => hnext ⟨Ne.symm hcmd, h⟩⟩

/-- TIM8 enters its burst when its interrupt is enabled, at once if an update is pending. -/
theorem Starting.enable_adc (h : Starting d) (hstatements : d.statements = .itConfig .adc :: rest)
    (horder : Ordered (L + 1) (.itConfig .adc) rest) :
    Sampling d.adc.timer.uif.toNat (advance d (.itConfig .adc) rest) := by
  have hrest := horder.enable rfl
  have hstream := h.advance_stream hstatements horder
  have hcount : d.adc.count = 0 := h.count (by simp [hstatements, hrest])
  have hadc : (advance d (.itConfig .adc) rest).adc =
      (d.adc.apply .enable).serve (adcValue L) (L + 1) := react_adc d (.statement (.itConfig .adc))
  have henabled : .itConfig .adc ∉ rest := by simp [hrest]
  have hen := hstream.1.trans (decide_eq_true (p := .dmaCmd ∉ rest) (by simp [hrest]))
  have hndtr := hstream.2.1 (by simp [hrest])
  have hnext := hstream.2.2 (by simp [hrest])
  have hsum : (advance d (.itConfig .adc) rest).state.stream.next +
      (advance d (.itConfig .adc) rest).state.stream.ndtr = L + 1 := by
    rw [hndtr, hnext, Nat.zero_add]
  have hdone : (advance d (.itConfig .adc) rest).state.stream.next +
      (advance d (.itConfig .adc) rest).conversion.toNat = 0 := by
    rw [hnext, advance_conversion, h.conversion]
    rfl
  cases huif : d.adc.timer.uif with
  | false =>
    have hoff : ¬(d.adc.apply .enable).Pending :=
      fun hp => Bool.false_ne_true (huif.symm.trans hp.1)
    rw [Channel.serve_of_not_pending hoff] at hadc
    refine ⟨henabled, ?_, ?_, ?_, ?_, Nat.zero_le _, hen, hsum, hdone⟩ <;> rw [hadc]
    · exact huif
    · rfl
    · exact h.ccr1
    · exact hcount
  | true =>
    have hon : (d.adc.apply .enable).Pending := ⟨huif, rfl⟩
    have hzero : (d.adc.apply .enable).count = 0 := hcount
    rw [Channel.serve_of_pending hon, hzero] at hadc
    refine ⟨henabled, ?_, ?_, ?_, ?_, Nat.le_add_left 1 L, hen, hsum, hdone⟩ <;> rw [hadc]
    · exact decide_eq_true (Nat.succ_ne_zero L).symm
    · exact adcValue_of_lt (Nat.succ_pos L)
    · rfl

theorem apply_uie {c : Channel} {o : Option Bursts.Event} (ho : o ≠ some .enable) :
    (o.elim c c.apply).timer.uie = c.timer.uie := by
  cases o with
  | none => rfl
  | some e =>
    cases e with
    | enable => exact absurd rfl ho
    | _ => rfl

theorem apply_ccr1 (c : Channel) (o : Option Bursts.Event) :
    (o.elim c c.apply).timer.ccr1 = c.timer.ccr1 := by
  cases o with
  | none => rfl
  | some e => cases e <;> rfl

theorem apply_count {c : Channel} {o : Option Bursts.Event} (ho : o ≠ some .reset) :
    (o.elim c c.apply).count = c.count := by
  cases o with
  | none => rfl
  | some e =>
    cases e with
    | reset => exact absurd rfl ho
    | _ => rfl

theorem apply_uif {c : Channel} {o : Option Bursts.Event} (hclear : o ≠ some .clear)
    (hupdate : o ≠ some .update) : (o.elim c c.apply).timer.uif = c.timer.uif := by
  cases o with
  | none => rfl
  | some e =>
    cases e with
    | clear => exact absurd rfl hclear
    | update => exact absurd rfl hupdate
    | _ => rfl

theorem command_ne_update (t : Tim) (s : Statement) : command t s ≠ some .update := by
  cases s <;> simp [command]

theorem command_eq_reset {t : Tim} {s : Statement} :
    command t s = some .reset ↔ s = .resetCount t := by
  cases s <;> simp [command]

/-- A call before it enables the interrupt of TIM8. -/
theorem Starting.advance (h : Starting d) (hstatements : d.statements = s :: rest)
    (horder : Ordered (L + 1) s rest) (hs : s ≠ .itConfig .adc) :
    Starting (advance d s rest) := by
  obtain ⟨hen, hndtr, hnext⟩ := h.advance_stream hstatements horder
  have hnotEnable : command .adc s ≠ some .enable := mt command_eq_enable.mp hs
  have hadc : (Devices.advance d s rest).adc = (command .adc s).elim d.adc d.adc.apply :=
    react_adc_of_off h.uie hnotEnable
  have henable : .itConfig .adc ∈ rest := by
    have hmem := h.enable
    rw [hstatements, List.mem_cons] at hmem
    exact hmem.resolve_left (Ne.symm hs)
  refine ⟨henable, ?_, ?_, h.conversion, fun hreset => ?_, hen, hndtr, hnext⟩ <;> rw [hadc]
  · exact (apply_uie hnotEnable).trans h.uie
  · exact (apply_ccr1 _ _).trans h.ccr1
  · by_cases hs : s = .resetCount .adc
    · subst hs
      rfl
    · rw [apply_count (mt command_eq_reset.mp hs)]
      refine h.count ?_
      rw [hstatements, List.mem_cons, not_or]
      exact ⟨Ne.symm hs, hreset⟩

/-- What follows the enabling of TIM8 does not concern it. -/
theorem advance_late (h : ¬d.adc.Pending) (horder : Ordered (L + 1) s rest)
    (hmem : .itConfig .adc ∉ s :: rest) : .itConfig .adc ∉ rest ∧
      (advance d s rest).adc = d.adc ∧ (advance d s rest).state.stream = d.state.stream := by
  have hother : command .adc s = none ∧ (∀ n, s ≠ .loadNDTR n) ∧ s ≠ .dmaCmd := by
    rcases horder.late hmem with rfl | rfl <;> exact ⟨rfl, nofun, nofun⟩
  refine ⟨fun hrest => hmem (List.mem_cons_of_mem s hrest), ?_,
    execute_stream hother.2.1 hother.2.2⟩
  rw [advance_adc, react_adc, view, hother.1]
  exact Channel.serve_of_not_pending h

/-- A statement of `beginSample` keeps the phase or leads to the next one. -/
theorem Phase.advance (h : Phase d) (hstatements : d.statements = s :: rest)
    (horder : Ordered (L + 1) s rest) : Phase (Devices.advance d s rest) := by
  have hlate := advance_late h.not_pending horder
  cases h with
  | starting h =>
    by_cases hs : s = .itConfig .adc
    · subst hs
      exact .sampling _ (h.enable_adc hstatements horder)
    · exact .starting (h.advance hstatements horder hs)
  | atRest h =>
    obtain ⟨hrest, hadc, hstream⟩ := hlate (hstatements ▸ h.enabled)
    exact .atRest (h.congr hadc hstream rfl hrest)
  | sampling k h =>
    obtain ⟨hrest, hadc, hstream⟩ := hlate (hstatements ▸ h.enabled)
    exact .sampling k (h.congr hadc hstream rfl hrest)
  | finishing h =>
    obtain ⟨hrest, hadc, hstream⟩ := hlate (hstatements ▸ h.enabled)
    exact .finishing (h.congr hadc hstream rfl hrest)

end Statements

/-- One more run of the handler of TIM8. From the second run on it starts a conversion. -/
theorem Sampling.updated_adc {k : ℕ} (h : Sampling k d) (senior : Bool)
    (hidle : d.conversion = false) :
    (updated senior true d).adc = ⟨⟨false, decide (k ≠ L + 1), adcValue L k⟩, k + 1,
        adcValue L k :: d.adc.runs, d.adc.timer.ccr1 :: d.adc.periods⟩ ∧
      (updated senior true d).conversion = decide (k ≠ 0) := by
  have hpending : (d.adc.apply .update).Pending := ⟨rfl, h.uie⟩
  have hadc : (Devices.updated senior true d).adc =
      (d.adc.apply .update).serve (adcValue L) (L + 1) := react_adc d (.update senior true)
  have hcount : (d.adc.apply .update).count = k := h.count
  rw [Channel.serve_of_pending hpending, hcount] at hadc
  have hstarts : (updated senior true d).conversion =
      (d.conversion || (true && decide (d.adc.timer.ccr1 = adcLowTime))) := rfl
  refine ⟨hadc, ?_⟩
  rw [hstarts, hidle, Bool.false_or, Bool.true_and, h.ccr1]
  refine decide_eq_decide.mpr ?_
  split_ifs with hk
  · exact iff_of_false (by decide) (not_not_intro hk)
  · exact iff_of_true rfl hk

theorem Sampling.updated {k : ℕ} (h : Sampling k d) (senior : Bool) (hidle : d.conversion = false)
    (hk : k ≠ L + 1) : Sampling (k + 1) (updated senior true d) := by
  obtain ⟨hadc, hconversion⟩ := h.updated_adc senior hidle
  have hle : k ≤ L + 1 := h.le
  have hnext := h.next
  rw [hidle, Bool.toNat_false, Nat.add_zero] at hnext
  refine ⟨h.enabled, ?_, ?_, ?_, ?_, by omega, h.en, h.ndtr, ?_⟩
  · rw [hadc]
  · rw [hadc]
    exact decide_eq_true hk
  · rw [hadc]
    exact (adcValue_of_lt (by omega)).trans (if_neg (Nat.succ_ne_zero k)).symm
  · rw [hadc]
  · rw [hconversion]
    change d.state.stream.next + _ = k
    rw [hnext]
    by_cases hk : k = 0
    · rw [hk]
      rfl
    · rw [decide_eq_true hk, Bool.toNat_true, Nat.sub_add_cancel (Nat.one_le_iff_ne_zero.mpr hk)]

/-- The last run. -/
theorem Sampling.updated_last (h : Sampling (L + 1) d) (senior : Bool)
    (hidle : d.conversion = false) : Finishing (Devices.updated senior true d) := by
  obtain ⟨hadc, hconversion⟩ := h.updated_adc senior hidle
  have hndtr := h.ndtr
  have hnext : d.state.stream.next = L := by
    have hnext := h.next
    rwa [hidle, Bool.toNat_false, Nat.add_zero] at hnext
  refine ⟨h.enabled, ?_, ?_, hconversion, h.en, ?_, hnext⟩
  · rw [hadc]
    exact decide_eq_false (not_not_intro rfl)
  · rw [hadc]
    exact if_pos rfl
  · change d.state.stream.ndtr = 1
    omega

/-- An update of TIM8 while its interrupt is off. -/
theorem updated_of_off (senior : Bool) (hoff : d.adc.timer.uie = false)
    (hidle : d.adc.timer.ccr1 = idle .adc) (hconversion : d.conversion = false) :
    (updated senior true d).adc = d.adc.apply .update ∧
      (updated senior true d).conversion = false := by
  refine ⟨react_adc_of_off hoff (by simp [view, pick]), ?_⟩
  have hstarts : (updated senior true d).conversion =
      (d.conversion || (true && decide (d.adc.timer.ccr1 = adcLowTime))) := rfl
  rw [hstarts, hconversion, hidle]
  rfl

theorem Starting.updated (h : Starting d) (senior : Bool) : Starting (updated senior true d) := by
  obtain ⟨hadc, hconversion⟩ := updated_of_off senior h.uie h.ccr1 h.conversion
  refine ⟨h.enable, ?_, ?_, hconversion, ?_, h.en, h.ndtr, h.next⟩ <;> rw [hadc]
  · exact h.uie
  · exact h.ccr1
  · exact h.count

theorem AtRest.updated (h : AtRest d) (senior : Bool) : AtRest (updated senior true d) := by
  obtain ⟨hadc, hconversion⟩ := updated_of_off senior h.uie h.ccr1 h.conversion
  refine ⟨h.enabled, ?_, ?_, hconversion, h.en⟩ <;> rw [hadc]
  · exact h.uie
  · exact h.ccr1

theorem Phase.updated (h : Phase d) (senior adc : Bool) (hidle : ¬(adc ∧ d.conversion)) :
    Phase (updated senior adc d) := by
  cases adc with
  | false =>
    have hadc : (Devices.updated senior false d).adc = d.adc :=
      (react_adc d (.update senior false)).trans (Channel.serve_of_not_pending h.not_pending)
    exact h.congr hadc rfl (Bool.or_false _) rfl
  | true =>
    have hidle : d.conversion = false := by simpa using hidle
    cases h with
    | starting h => exact .starting (h.updated senior)
    | atRest h => exact .atRest (h.updated senior)
    | sampling k h =>
      by_cases hk : k = L + 1
      · subst hk
        exact .finishing (h.updated_last senior hidle)
      · exact .sampling (k + 1) (h.updated senior hidle hk)
    | finishing h => exact absurd (hidle.symm.trans h.conversion) Bool.false_ne_true

/-- A conversion is under way during the burst only, and a transfer awaits it. -/
theorem Phase.awaited (h : Phase d) (hconversion : d.conversion = true) :
    d.state.stream.en = true ∧ 0 < d.state.stream.ndtr := by
  cases h with
  | starting h => exact absurd (h.conversion.symm.trans hconversion) Bool.false_ne_true
  | atRest h => exact absurd (h.conversion.symm.trans hconversion) Bool.false_ne_true
  | sampling k h =>
    have hnext := h.next
    have hndtr := h.ndtr
    have hle := h.le
    rw [hconversion, Bool.toNat_true] at hnext
    exact ⟨h.en, by omega⟩
  | finishing h => exact ⟨h.en, h.ndtr ▸ Nat.one_pos⟩

/-- A transfer that is not the last one, and the last one. -/
theorem delivered_stream (v : UInt16) (s : State L) :
    (delivered v s).stream =
      ⟨if s.stream.ndtr = 1 then false else s.stream.en, s.stream.ndtr - 1, s.stream.next + 1⟩ := by
  rw [delivered]
  split_ifs <;> rfl

theorem Sampling.delivered {k : ℕ} (h : Sampling k d) (v : UInt16)
    (hconversion : d.conversion = true) :
    Sampling k { d with state := delivered v d.state, conversion := false } := by
  have hstream := delivered_stream v d.state
  have hnext := h.next
  have hndtr := h.ndtr
  have hle := h.le
  rw [hconversion, Bool.toNat_true] at hnext
  rw [if_neg (by omega)] at hstream
  refine ⟨h.enabled, h.uif, h.uie, h.ccr1, h.count, h.le, ?_, ?_, ?_⟩
  · exact (congrArg Stream.en hstream).trans h.en
  · simp only [hstream]
    omega
  · simp only [hstream]
    exact hnext

theorem Finishing.delivered (h : Finishing d) (v : UInt16) :
    AtRest { d with state := delivered v d.state, conversion := false } := by
  have hstream := delivered_stream v d.state
  rw [if_pos h.ndtr] at hstream
  exact ⟨h.enabled, h.uie, h.ccr1, rfl, congrArg Stream.en hstream⟩

theorem Phase.delivered (h : Phase d) (v : UInt16) (hconversion : d.conversion = true) :
    Phase { d with state := delivered v d.state, conversion := false } := by
  cases h with
  | starting h => exact absurd (h.conversion.symm.trans hconversion) Bool.false_ne_true
  | atRest h => exact absurd (h.conversion.symm.trans hconversion) Bool.false_ne_true
  | sampling k h => exact .sampling k (h.delivered v hconversion)
  | finishing h => exact .atRest (h.delivered v)

/-! ## The acquisition loop above it -/

/-- The place that `main` has reached, with a call of `beginSample` counted as done. -/
def place (d : Device L) : Pc := if d.statements = [] then d.state.pc else afterBegin d.state.pc

/-- The device as the acquisition loop sees it: there a call of `beginSample` is one step,
taken when the call begins. -/
def acquisition (d : Device L) : State L :=
  { d.state with
    pc := place d
    stream := if .dmaCmd ∈ d.statements then ⟨true, L + 1, 0⟩ else d.state.stream }

/-- What an event of the device is to the acquisition loop. -/
def label (d : Device L) : Event → Option Acquisition.Event
  | .main => if d.statements = [] then some .main else none
  | .key => some .key
  | .update _ _ => none
  | .convert v => some (if d.state.stream.ndtr = 1 then .complete v else .sample v)

/-- A call of `beginSample` finds the stream disabled. -/
def BeginsIdle (d : Device L) (e : Event) : Prop :=
  e = .main → d.statements = [] → AtBegin d.state.pc → d.state.stream.en = false

instance (d : Device L) (e : Event) : Decidable (BeginsIdle d e) :=
  inferInstanceAs (Decidable (_ → _ → _ → _))

/-- The invariant of the runs in which every call of `beginSample` does. -/
structure Consistent (d : Device L) : Prop where
  frameCount : d.state.frameCount ≠ 0
  suffix : d.statements <:+ restartBranch (L + 1)
  phase : Phase d

theorem acquisition_of_nil (h : d.statements = []) : acquisition d = d.state := by
  simp [acquisition, place, h]

/-- Away from the calls of `beginSample` the loop leaves the stream alone. -/
theorem mainStep_stream {m : Setup g} {s s' : State g.sequenceLength} (hpc : ¬AtBegin s.pc)
    (h : Acquisition.mainStep m s = .ok s') : s'.stream = s.stream := by
  cases mainStep_cases h with
  | initialBegin hbegin => exact absurd (.inl hbegin) hpc
  | startBegin hbegin => exact absurd (.inr (.inl hbegin)) hpc
  | rowBegin hbegin => exact absurd (.inr (.inr hbegin)) hpc
  | _ => rfl

theorem mainStep_frameCount {m : Setup g} {s s' : State g.sequenceLength}
    (hcount : s.frameCount ≠ 0) (h : Acquisition.mainStep m s = .ok s') : s'.frameCount ≠ 0 := by
  cases mainStep_cases h with
  | doneCount => exact Nat.succ_ne_zero _
  | restart => exact Nat.one_ne_zero
  | _ => exact hcount

/-- A call of `beginSample` that finds the stream disabled, as one step. -/
theorem mainStep_begin {m : Setup g} {s : State g.sequenceLength} (hpc : AtBegin s.pc)
    (hen : s.stream.en = false) : Acquisition.mainStep m s = .ok
      { s with pc := afterBegin s.pc, stream := ⟨true, g.sampleSize, 0⟩ } := by
  have hstart : s.stream.start g.sampleSize = ⟨true, g.sampleSize, 0⟩ :=
    if_neg (ne_true_of_eq_false hen)
  rcases hpc with hpc | hpc | hpc <;>
    simp [Acquisition.mainStep, hpc, beginSample, hstart, afterBegin]

/-- With the stream disabled and no call under way the device is at rest. -/
theorem Phase.atRest_of_idle (h : Phase d) (hstatements : d.statements = [])
    (hen : d.state.stream.en = false) : AtRest d := by
  cases h with
  | starting h => simpa [hstatements] using h.enable
  | atRest h => exact h
  | sampling k h => exact absurd (hen.symm.trans h.en) Bool.false_ne_true
  | finishing h => exact absurd (hen.symm.trans h.en) Bool.false_ne_true

/-- A call that begins at rest. -/
theorem AtRest.begin (h : AtRest d) : Starting { d with statements := restartBranch (L + 1) } := by
  refine ⟨?_, h.uie, h.ccr1, h.conversion, ?_, ?_, ?_, ?_⟩
  · simp [restartBranch]
  · simp [restartBranch]
  · simp [restartBranch, h.en]
  · simp [restartBranch]
  · simp [restartBranch]

section Refinement

variable {m : Setup g} {d d' : Device g.sequenceLength} {e : Event}

theorem Consistent.begin (h : Consistent d) (hstatements : d.statements = [])
    (hpc : AtBegin d.state.pc) (hen : d.state.stream.en = false) :
    Consistent { d with statements := restartBranch g.sampleSize } ∧
      Acquisition.step m (acquisition d) .main =
        some (acquisition { d with statements := restartBranch g.sampleSize }) := by
  refine ⟨⟨h.frameCount, List.suffix_rfl,
    .starting (h.phase.atRest_of_idle hstatements hen).begin⟩, ?_⟩
  rw [acquisition_of_nil hstatements, Acquisition.step, mainStep_begin hpc hen]
  simp [acquisition, place, restartBranch, Except.toOption, Globals.sampleSize]

/-- No statement of a call is visible to the loop. -/
theorem acquisition_advance {s : Statement} {rest : List Statement} (h : Phase d)
    (hstatements : d.statements = s :: rest) (horder : Ordered (g.sequenceLength + 1) s rest) :
    acquisition (advance d s rest) = acquisition d := by
  have hplace : place (advance d s rest) = place d := by
    have hnow : (advance d s rest).state.pc =
        if rest = [] then afterBegin d.state.pc else d.state.pc := rfl
    rw [place, place, hstatements, if_neg (List.cons_ne_nil s rest), advance_statements, hnow]
    split_ifs <;> rfl
  have hstream : (if .dmaCmd ∈ rest then ⟨true, g.sequenceLength + 1, 0⟩
      else (advance d s rest).state.stream) =
        if .dmaCmd ∈ s :: rest then ⟨true, g.sequenceLength + 1, 0⟩ else d.state.stream := by
    by_cases hcmd : s = .dmaCmd
    · subst hcmd
      have hstarting : Starting d := by
        have hlate : Statement.itConfig .adc ∈ d.statements := by
          rw [hstatements]
          by_contra hmem
          exact (horder.late hmem).elim nofun nofun
        cases h with
        | starting h => exact h
        | atRest h => exact absurd hlate h.enabled
        | sampling k h => exact absurd hlate h.enabled
        | finishing h => exact absurd hlate h.enabled
      obtain ⟨hen, hndtr, hnext⟩ := hstarting.advance_stream hstatements horder
      rw [if_neg horder.fresh, if_pos List.mem_cons_self]
      have hen := hen.trans (decide_eq_true horder.fresh)
      have hndtr := hndtr (horder.loaded rfl)
      have hnext := hnext horder.fresh
      rw [← hen, ← hndtr, ← hnext]
    · have hmem : .dmaCmd ∈ s :: rest ↔ .dmaCmd ∈ rest := by
        rw [List.mem_cons]
        exact or_iff_right (Ne.symm hcmd)
      simp only [hmem]
      split_ifs with hrest
      · rfl
      · refine execute_stream (fun n hs => hrest (horder.load ?_)) hcmd
        rw [hs, horder.number_eq n hs]
  have hfields : acquisition (advance d s rest) =
      { d.state with
        pc := place (advance d s rest)
        stream := if .dmaCmd ∈ rest then ⟨true, g.sequenceLength + 1, 0⟩
          else (advance d s rest).state.stream } := rfl
  rw [hfields, hplace, hstream, acquisition, hstatements]

theorem step_delivered (m : Setup g) {s : State g.sequenceLength} (v : UInt16)
    (hen : s.stream.en = true) (hmore : 0 < s.stream.ndtr)
    (hroom : s.stream.next < g.sequenceLength + 2) :
    Acquisition.step m s (if s.stream.ndtr = 1 then .complete v else .sample v) =
      some (delivered v s) := by
  have htransfer : transfer v s = .ok { s with
      convertedValue := s.convertedValue.put s.stream.next v
      stream := ⟨s.stream.en, s.stream.ndtr - 1, s.stream.next + 1⟩ } := by
    rw [transfer, Buffer.write_of_lt _ _ hroom, Loops.ok_bind]
  rw [delivered]
  split_ifs with hlast
  · simp only [Acquisition.step]
    rw [if_pos ⟨hen, hlast⟩, htransfer]
    rfl
  · simp only [Acquisition.step]
    rw [if_pos ⟨hen, by omega⟩, htransfer]
    rfl

/-- During the burst the two levels differ in the place only. -/
theorem acquisition_of_late (h : .dmaCmd ∉ d.statements) :
    acquisition d = { d.state with pc := place d } := by
  rw [acquisition, if_neg h]

/-- During a conversion no statement of a call is left that concerns the stream. -/
theorem Consistent.late (h : Consistent d) (hconversion : d.conversion = true) :
    .dmaCmd ∉ d.statements := by
  intro hcmd
  have henable : .itConfig .adc ∉ d.statements := by
    cases h.phase with
    | starting h => exact absurd (h.conversion.symm.trans hconversion) Bool.false_ne_true
    | atRest h => exact h.enabled
    | sampling k h => exact h.enabled
    | finishing h => exact h.enabled
  have hsuffix := h.suffix
  cases hstatements : d.statements with
  | nil => exact absurd (hstatements ▸ hcmd) List.not_mem_nil
  | cons s rest =>
    rw [hstatements] at hsuffix hcmd henable
    exact henable ((ordered_of_suffix hsuffix).before hcmd)

theorem Consistent.delivered (h : Consistent d) (m : Setup g) (v : UInt16)
    (hconversion : d.conversion = true) (hroom : d.state.stream.next < g.sequenceLength + 2) :
    Acquisition.step m (acquisition d)
        (if d.state.stream.ndtr = 1 then .complete v else .sample v) =
      some (acquisition { d with state := delivered v d.state, conversion := false }) := by
  have hlate := h.late hconversion
  obtain ⟨hen, hmore⟩ := h.phase.awaited hconversion
  have hafter : acquisition { d with state := Devices.delivered v d.state, conversion := false } =
      Devices.delivered v { d.state with pc := place d } := by
    rw [acquisition, if_neg hlate]
    simp only [place, Devices.delivered]
    by_cases hlast : d.state.stream.ndtr = 1
    · rw [if_pos hlast, if_pos hlast]
      rfl
    · rw [if_neg hlast, if_neg hlast]
  rw [acquisition_of_late hlate, hafter]
  exact step_delivered (s := { d.state with pc := place d }) m v hen hmore hroom

/-- Each step keeps the invariant, is a step of the acquisition loop or invisible to it, and
loses no result. -/
theorem Consistent.step (h : Consistent d) (hguard : BeginsIdle d e)
    (hs : Devices.step m d e = some d') : (Consistent d' ∧ d'.lost = d.lost) ∧
      Follows (Acquisition.step m) (acquisition d) (label d e) (acquisition d') := by
  cases step_cases hs with
  | begin hstatements hpc hcount =>
    obtain ⟨hnext, hfollows⟩ := h.begin (m := m) hstatements hpc (hguard rfl hstatements hpc)
    rw [label, if_pos hstatements]
    exact ⟨⟨hnext, rfl⟩, hfollows⟩
  | @statement s rest hstatements =>
    have hsuffix := h.suffix
    rw [hstatements] at hsuffix
    have horder := ordered_of_suffix hsuffix
    rw [label, if_neg (hstatements ▸ List.cons_ne_nil s rest)]
    exact ⟨⟨⟨h.frameCount, (List.suffix_cons s rest).trans hsuffix,
      h.phase.advance hstatements horder⟩, rfl⟩,
      acquisition_advance h.phase hstatements horder⟩
  | @main state hstatements hpc hmain =>
    have hstream := mainStep_stream hpc hmain
    rw [label, if_pos hstatements, acquisition_of_nil hstatements]
    refine ⟨⟨⟨mainStep_frameCount h.frameCount hmain, h.suffix,
      Phase.congr (d := d) rfl hstream rfl h.phase rfl⟩, rfl⟩, ?_⟩
    rw [acquisition_of_nil (d := { d with state }) hstatements]
    exact Loops.toOption_eq_some.mpr hmain
  | key =>
    exact ⟨⟨⟨h.frameCount, h.suffix, Phase.congr (d := d) rfl rfl rfl h.phase rfl⟩, rfl⟩, rfl⟩
  | update senior adc hidle =>
    exact ⟨⟨⟨h.frameCount, h.suffix, h.phase.updated senior adc hidle⟩, rfl⟩, rfl⟩
  | move v hconversion hen hmore hroom =>
    have hcount : (Devices.delivered v d.state).frameCount = d.state.frameCount := by
      rw [Devices.delivered]
      split_ifs <;> rfl
    exact ⟨⟨⟨hcount ▸ h.frameCount, h.suffix, h.phase.delivered v hconversion⟩, rfl⟩,
      h.delivered m v hconversion hroom⟩
  | lose v hconversion hnone => exact absurd (h.phase.awaited hconversion) hnone

/-- Between two frames: `main` is in no call, and no frame is on its way. -/
structure BetweenFrames (d : Device L) : Prop where
  frameCount : d.state.frameCount ≠ 0
  statements : d.statements = []
  atRest : AtRest d

theorem BetweenFrames.consistent (h : BetweenFrames d) : Consistent d :=
  ⟨h.frameCount, h.statements ▸ List.nil_suffix, .atRest h.atRest⟩

theorem consistent_run {d₀ : Device g.sequenceLength} {h : List (Device g.sequenceLength × Event)}
    (hstart : BetweenFrames d₀) (hrun : Run (Devices.step m) d₀ h d)
    (hguard : ∀ p ∈ h, BeginsIdle p.1 p.2) : (Consistent d ∧ d.lost = d₀.lost) ∧
      Run (Acquisition.step m) (acquisition d₀) (observed acquisition label h) (acquisition d) := by
  refine hrun.simulation (fun d => Consistent d ∧ d.lost = d₀.lost) BeginsIdle acquisition label
    ⟨hstart.consistent, rfl⟩ (fun d e d' hI hG hs => ?_) hguard
  obtain ⟨⟨hconsistent, hlost⟩, hfollows⟩ := hI.1.step hG hs
  exact ⟨⟨hconsistent, hlost.trans hI.2⟩, hfollows⟩

/-- Each run of the device in which `beginSample` is only called with the stream disabled,
however the statements of `beginSample` interleave with the updates, the conversions and
the key, is a run of the acquisition loop with the same keys and samples in the same order. -/
theorem run_refines_acquisition (m : Setup g) {d₀ d : Device g.sequenceLength}
    {h : List (Device g.sequenceLength × Event)} (hstart : BetweenFrames d₀)
    (hrun : Run (Devices.step m) d₀ h d) (hguard : ∀ p ∈ h, BeginsIdle p.1 p.2) :
    Run (Acquisition.step m) d₀.state (observed acquisition label h) (acquisition d) := by
  have hrun := (consistent_run hstart hrun hguard).2
  rwa [acquisition_of_nil hstart.statements] at hrun

/-- In each such run no result is lost: the stream waits for every conversion that TIM8
triggers, and TIM8 triggers as many as the stream waits for. -/
theorem conversions_eq_transfers (m : Setup g) {d₀ d : Device g.sequenceLength}
    {h : List (Device g.sequenceLength × Event)} (hstart : BetweenFrames d₀)
    (hrun : Run (Devices.step m) d₀ h d) (hguard : ∀ p ∈ h, BeginsIdle p.1 p.2) :
    d.lost = d₀.lost ∧
      (d.conversion = true → d.state.stream.en = true ∧ 0 < d.state.stream.ndtr) ∧
      (d.statements = [] → d.adc.timer.uie = false → d.conversion = false →
        d.state.stream.en = false) := by
  obtain ⟨⟨hconsistent, hlost⟩, -⟩ := consistent_run hstart hrun hguard
  refine ⟨hlost, hconsistent.phase.awaited, fun hstatements hoff hidle => ?_⟩
  cases hconsistent.phase with
  | starting h => simpa [hstatements] using h.enable
  | atRest h => exact h.en
  | sampling k h => exact absurd (hoff.symm.trans h.uie) Bool.false_ne_true
  | finishing h => exact absurd (hidle.symm.trans h.conversion) Bool.false_ne_true

end Refinement

/-! ## The device of order four -/

/-- The frame that is thrown away, and the steps of `main` that do so. -/
def firstFrameFour : List Acquisition.Event := [.main] ++ frameFour 0 0 0 0 ++ .replicate 6 .main

theorem firstFrameFour_runs :
    (exec (Acquisition.step setupFour) (State.initial setupFour) firstFrameFour).isSome := by
  decide +kernel

/-- The board behind that frame, with the updates of its burst and one more. -/
def boardFour : Board :=
  ((firstFrame 4 fun _ => 0).exec 3 (updates (.replicate 6 (true, true)))).fresh

/-- The device of this order after that frame. -/
def deviceFour : Device orderFour.sequenceLength where
  state := ((exec (Acquisition.step setupFour) (State.initial setupFour) firstFrameFour).get
    firstFrameFour_runs).2
  statements := []
  senior := boardFour.senior
  adc := boardFour.adc
  ovr := true
  dma := true
  cen := true
  conversion := false
  lost := 0

theorem betweenFrames_deviceFour : BetweenFrames deviceFour :=
  ⟨by decide +kernel, rfl, ⟨List.not_mem_nil, rfl, rfl, rfl, by decide +kernel⟩⟩

/-- The updates of a frame of this order, with the results of its conversions. -/
def burstFour (v₀ v₁ v₂ v₃ : UInt16) : List Event :=
  [.update true true, .update true true, .convert v₀, .update true true, .convert v₁,
    .update true true, .convert v₂, .update true true, .convert v₃]

theorem run_refines_acquisition_one_frame :
    ∃ h d, Run (step setupFour) deviceFour h d ∧ d.state.flag = 2 ∧
      Run (Acquisition.step setupFour) deviceFour.state (observed acquisition label h)
        (acquisition d) := by
  obtain ⟨h, d, hrun, hflag, hguard⟩ := exists_run_of_exec (step setupFour) deviceFour
    (.replicate 17 .main ++ burstFour 9 1 2 3)
    (fun h d => d.state.flag = 2 ∧ ∀ p ∈ h, BeginsIdle p.1 p.2) (by decide +kernel)
  exact ⟨h, d, hrun, hflag, run_refines_acquisition setupFour betweenFrames_deviceFour hrun hguard⟩

theorem conversions_eq_transfers_one_frame :
    ∃ h d, Run (step setupFour) deviceFour h d ∧ d.state.flag = 2 ∧
      d.lost = 0 ∧ (d.conversion = true → d.state.stream.en = true ∧ 0 < d.state.stream.ndtr) ∧
      (d.statements = [] → d.adc.timer.uie = false → d.conversion = false →
        d.state.stream.en = false) := by
  obtain ⟨h, d, hrun, hflag, hguard⟩ := exists_run_of_exec (step setupFour) deviceFour
    (.replicate 17 .main ++ burstFour 9 1 2 3)
    (fun h d => d.state.flag = 2 ∧ ∀ p ∈ h, BeginsIdle p.1 p.2) (by decide +kernel)
  exact ⟨h, d, hrun, hflag,
    conversions_eq_transfers setupFour betweenFrames_deviceFour hrun hguard⟩

/-- A press of the key after the second conversion restarts the burst and not the stream. -/
theorem not_every_conversion_fetched :
    ¬ ∀ (m : Setup orderFour) (d₀ d : Device orderFour.sequenceLength)
      (h : List (Device orderFour.sequenceLength × Event)), BetweenFrames d₀ →
        Run (step m) d₀ h d → d.lost = d₀.lost := by
  intro hall
  obtain ⟨h, d, hrun, hlost⟩ := exists_run_of_exec (step setupFour) deviceFour
    (.replicate 17 .main ++ (burstFour 9 1 2 3).take 5 ++ [.key] ++ .replicate 17 .main ++
      (burstFour 9 1 2 3).drop 1) (fun _ d => d.lost ≠ 0) (by decide +kernel)
  exact hlost (hall setupFour deviceFour d h betweenFrames_deviceFour hrun)

end HadamardIMS.Devices
