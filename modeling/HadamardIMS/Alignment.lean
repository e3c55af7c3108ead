import HadamardIMS.Devices
import HadamardIMS.Pairing

/-!
# The bit under which a sample is converted

TIM1 puts the bits of `sendSequence` on its output while TIM8 triggers the conversions.
Nothing in the code ties the two together but the order in which `beginSample` starts
them. As long as both come to their updates at the same instants, and none of these falls
where it would let one of them start a period before the other, each conversion meets the
bit with the number of the cell that its result goes to.
-/
namespace HadamardIMS.Devices

open Buffers Signals Runs Bursts Timers Acquisition

variable {L : ℕ} {g : Globals}

/-! ## The frames in the loop -/

/-- The places on the way from a frame that has been read to the next one. -/
def betweenPlaces : List Pc :=
  [.initialBegin, .startBegin, .doneCount, .firstTest, .rowTest, .rowLoad, .rowBegin]

/-- A completion is unread only while no frame is on its way, and no frame is on its way
until the next call of `beginSample`. -/
structure Orderly (s : State L) : Prop where
  unread : s.flag = 2 → s.stream.en = false
  reading : s.pc = .doneReset → s.stream.en = false
  between : s.pc ∈ betweenPlaces → Quiet s

/-- `case 0` loads its row with no frame on its way and no completion unread. -/
def LoadsQuietly (s : State L) (e : Acquisition.Event) : Prop :=
  e = .main → s.pc = .startLoad → Quiet s

theorem mem_betweenPlaces_iff {pc : Pc} : pc ∈ betweenPlaces ↔ pc = .initialBegin ∨
    pc = .startBegin ∨ pc = .doneCount ∨ pc = .firstTest ∨ pc = .rowTest ∨ pc = .rowLoad ∨
      pc = .rowBegin := by
  simp [betweenPlaces]

theorem Orderly.main {m : Setup g} {s s' : State g.sequenceLength} (h : Orderly s)
    (hguard : s.pc = .startLoad → Quiet s) (hs : MainCase m s s') : Orderly s' := by
  have hbetween := h.between
  rw [mem_betweenPlaces_iff] at hbetween
  cases hs with
  | initialBegin hpc | startBegin hpc | rowBegin hpc =>
    have hquiet := hbetween (by simp [hpc])
    exact ⟨fun hflag => absurd hflag hquiet.flag, nofun, by simp [betweenPlaces]⟩
  | switchDone hpc hflag => exact ⟨h.unread, fun _ => h.unread hflag, by simp [betweenPlaces]⟩
  | startReset hpc => exact ⟨nofun, nofun, by simp [betweenPlaces]⟩
  | startLoad hpc => exact ⟨h.unread, nofun, fun _ => ⟨(hguard hpc).idle, (hguard hpc).flag⟩⟩
  | doneReset hpc => exact ⟨nofun, nofun, fun _ => ⟨h.reading hpc, by simp⟩⟩
  | firstFrame hpc hcount =>
    exact ⟨nofun, nofun, fun _ => ⟨(hbetween (by simp [hpc])).idle, by simp⟩⟩
  | doneCount hpc | laterFrame hpc | rowStore hpc | rowLoad hpc =>
    have hquiet := hbetween (by simp [hpc])
    exact ⟨h.unread, nofun, fun _ => ⟨hquiet.idle, hquiet.flag⟩⟩
  | _ => exact ⟨h.unread, nofun, by simp [betweenPlaces]⟩

/-- An interrupt does not move `main`. -/
theorem Orderly.step {m : Setup g} {s s' : State g.sequenceLength} {e : Acquisition.Event}
    (h : Orderly s) (hguard : LoadsQuietly s e) (hs : Acquisition.step m s e = some s') :
    Orderly s' := by
  cases Acquisition.step_cases hs with
  | main hmain => exact h.main (hguard rfl) hmain
  | key =>
    exact ⟨nofun, h.reading, fun hpc => ⟨(h.between hpc).idle, by simp⟩⟩
  | sample v hen hmore hroom =>
    refine ⟨fun hflag => ?_, fun hpc => ?_, fun hpc => ?_⟩
    · exact absurd (hen.symm.trans (h.unread hflag)) (by decide)
    · exact absurd (hen.symm.trans (h.reading hpc)) (by decide)
    · exact absurd (hen.symm.trans (h.between hpc).idle) (by decide)
  | complete v hen hlast hroom =>
    exact ⟨fun _ => rfl, fun _ => rfl, fun hpc =>
      absurd (hen.symm.trans (h.between hpc).idle) (by decide)⟩

/-! ## TIM1 beside TIM8 -/

/-- The interrupt of TIM1 is off, and its output will be idle. -/
structure Waiting (d : Device L) : Prop where
  uie : d.senior.timer.uie = false
  ccr1 : d.senior.timer.ccr1 = idle .senior

/-- TIM1 until TIM8 is enabled: when both flags have been cleared they are equal. -/
structure Clearing (d : Device L) : Prop extends Waiting d where
  count : .resetCount .senior ∉ d.statements → d.senior.count = 0
  cleared : .clearITPendingBit .adc ∉ d.statements →
    .clearITPendingBit .senior ∈ d.statements → d.adc.timer.uif = false
  flags : .clearITPendingBit .senior ∉ d.statements → d.senior.timer.uif = d.adc.timer.uif

/-- The handler of TIM1 has run `k` times too, and a conversion under way meets the bit
with its number. -/
structure Following (k : ℕ) (d : Device L) : Prop where
  enabled : .itConfig .senior ∉ d.statements
  uif : d.senior.timer.uif = false
  uie : d.senior.timer.uie = true
  ccr1 : d.senior.timer.ccr1 =
    if k = 0 then idle .senior else seniorValue L d.state.sendSequence.value (k - 1)
  count : d.senior.count = k
  effect : d.conversion = true →
    d.senior.periods.head? = some (seniorValue L d.state.sendSequence.value d.state.stream.next)

/-- Both timers, phase by phase. Between the two enablings TIM1 has a run to make up for
if TIM8 has made one. -/
inductive Aligned (d : Device L) : Prop
  | starting (h : Starting d) (hs : Clearing d)
  | enabling (h : Sampling d.senior.timer.uif.toNat d) (hs : Waiting d)
      (henable : .itConfig .senior ∈ d.statements) (hcount : d.senior.count = 0)
  | sampling (k : ℕ) (h : Sampling k d) (hs : Following k d)
  | finishing (h : Finishing d) (hs : Waiting d) (henabled : .itConfig .senior ∉ d.statements)
      (heffect : d.senior.periods.head? = some (seniorValue L d.state.sendSequence.value L))
  | atRest (h : AtRest d) (hs : Waiting d) (henabled : .itConfig .senior ∉ d.statements)

variable {d d' : Device L} {s : Statement} {rest : List Statement}

theorem Aligned.phase (h : Aligned d) : Phase d := by
  cases h with
  | starting h => exact .starting h
  | enabling h => exact .sampling _ h
  | sampling k h => exact .sampling k h
  | finishing h => exact .finishing h
  | atRest h => exact .atRest h

section Congr

variable (hadc : d'.adc = d.adc) (hsenior : d'.senior = d.senior)
  (hstream : d'.state.stream = d.state.stream) (hconversion : d'.conversion = d.conversion)

include hsenior

theorem Waiting.congr (h : Waiting d) : Waiting d' := ⟨hsenior ▸ h.uie, hsenior ▸ h.ccr1⟩

include hadc

theorem Clearing.congr (h : Clearing d) (hstatements : d'.statements = d.statements) :
    Clearing d' := by
  obtain ⟨hwaiting, h₁, h₂, h₃⟩ := h
  refine ⟨hwaiting.congr hsenior, ?_, ?_, ?_⟩ <;> rw [hstatements]
  · exact hsenior ▸ h₁
  · exact hadc ▸ h₂
  · rw [hsenior, hadc]
    exact h₃

include hstream hconversion

omit hadc in
theorem Following.congr {k : ℕ} (h : Following k d)
    (hsequence : d'.state.sendSequence = d.state.sendSequence)
    (henabled : .itConfig .senior ∉ d'.statements) : Following k d' := by
  obtain ⟨-, h₁, h₂, h₃, h₄, h₅⟩ := h
  refine ⟨henabled, ?_, ?_, ?_, ?_, ?_⟩ <;>
    simpa only [hsenior, hstream, hconversion, hsequence]

/-- The alignment is a matter of the timers, the stream, the conversion, the statements
and, during a frame, the sequence. -/
theorem Aligned.congr (h : Aligned d) (hstatements : d'.statements = d.statements)
    (hsequence : d.state.stream.en = true → d'.state.sendSequence = d.state.sendSequence) :
    Aligned d' := by
  cases h with
  | starting h hs =>
    exact .starting (h.congr hadc hstream hconversion hstatements)
      (hs.congr hadc hsenior hstatements)
  | enabling h hs henable hcount =>
    refine .enabling ?_ (hs.congr hsenior) (hstatements ▸ henable) (hsenior ▸ hcount)
    rw [hsenior]
    exact h.congr hadc hstream hconversion (hstatements ▸ h.enabled)
  | sampling k h hs =>
    exact .sampling k (h.congr hadc hstream hconversion (hstatements ▸ h.enabled))
      (hs.congr hsenior hstream hconversion (hsequence h.en) (hstatements ▸ hs.enabled))
  | finishing h hs henabled heffect =>
    refine .finishing (h.congr hadc hstream hconversion (hstatements ▸ h.enabled))
      (hs.congr hsenior) (hstatements ▸ henabled) ?_
    rw [hsenior, hsequence h.en, heffect]
  | atRest h hs henabled =>
    exact .atRest (h.congr hadc hstream hconversion (hstatements ▸ h.enabled))
      (hs.congr hsenior) (hstatements ▸ henabled)

end Congr

/-- A waiting timer does nothing but record. -/
theorem Waiting.react_senior (h : Waiting d) {e : Timers.Event} (hkeep : KeepsSequence e)
    (he : view .senior e ≠ some .enable) :
    (d.react e).senior = (view .senior e).elim d.senior d.senior.apply := by
  rw [Devices.react_senior d hkeep]
  apply Channel.serve_of_not_pending
  rintro ⟨-, hon⟩
  rw [apply_uie he, h.uie] at hon
  exact Bool.false_ne_true hon

@[simp] theorem advance_senior (d : Device L) (s : Statement) (rest : List Statement) :
    (advance d s rest).senior = (d.react (.statement s)).senior := rfl

theorem Waiting.advance (h : Waiting d) (rest : List Statement) (hs : s ≠ .itConfig .senior) :
    (Devices.advance d s rest).senior = (command .senior s).elim d.senior d.senior.apply ∧
      Waiting (Devices.advance d s rest) := by
  have hnotEnable : command .senior s ≠ some .enable := mt command_eq_enable.mp hs
  have hsenior : (Devices.advance d s rest).senior =
      (command .senior s).elim d.senior d.senior.apply := h.react_senior trivial hnotEnable
  refine ⟨hsenior, ?_, ?_⟩ <;> rw [hsenior]
  · exact (apply_uie hnotEnable).trans h.uie
  · exact (apply_ccr1 _ _).trans h.ccr1

/-- No statement before the enabling of TIM8 lets the two flags get out of step. -/
theorem Clearing.advance (h : Clearing d) (hstatements : d.statements = s :: rest)
    (horder : Ordered (L + 1) s rest) (hoff : d.adc.timer.uie = false)
    (hadc : s ≠ .itConfig .adc) (hs : s ≠ .itConfig .senior) :
    Clearing (Devices.advance d s rest) := by
  obtain ⟨hsenior, hwaiting⟩ := h.toWaiting.advance rest hs
  have hadc : (Devices.advance d s rest).adc = (command .adc s).elim d.adc d.adc.apply :=
    react_adc_of_off hoff (mt command_eq_enable.mp hadc)
  have hcleared := h.cleared
  have hflags := h.flags
  rw [hstatements] at hcleared hflags
  refine ⟨hwaiting, fun hreset => ?_, fun hclear hmem => ?_, fun hclear => ?_⟩
  · rw [hsenior]
    by_cases hs : s = .resetCount .senior
    · subst hs
      rfl
    · rw [apply_count (mt command_eq_reset.mp hs)]
      refine h.count ?_
      rw [hstatements, List.mem_cons, not_or]
      exact ⟨Ne.symm hs, hreset⟩
  · rw [hadc]
    by_cases hc : command .adc s = some .clear
    · rw [hc]
      rfl
    · have hs : .clearITPendingBit .adc ≠ s := fun hs => hc (hs ▸ rfl)
      rw [apply_uif hc (command_ne_update _ _)]
      exact hcleared (List.not_mem_cons_of_ne_of_not_mem hs hclear) (List.mem_cons_of_mem _ hmem)
  · rw [hsenior, hadc]
    by_cases hs : s = .clearITPendingBit .senior
    · -- The flag of TIM8 has stayed clear until here.
      subst hs
      exact (hcleared (List.not_mem_cons_of_ne_of_not_mem nofun (horder.clears_adc rfl))
        List.mem_cons_self).symm
    · have hmem : .clearITPendingBit .senior ∉ s :: rest :=
        List.not_mem_cons_of_ne_of_not_mem (Ne.symm hs) hclear
      have hkeep : ∀ t, command t s ≠ some .clear := fun t hc => hmem (horder.clears t hc)
      rw [apply_uif (hkeep _) (command_ne_update _ _), apply_uif (hkeep _) (command_ne_update _ _)]
      exact hflags hmem

/-- The first run of the handler starts no conversion. -/
theorem Sampling.conversion_eq_false {k : ℕ} (h : Sampling k d) (hk : k ≤ 1) :
    d.conversion = false := by
  have hnext := h.next
  cases hconversion : d.conversion with
  | false => rfl
  | true =>
    rw [hconversion, Bool.toNat_true] at hnext
    omega

/-- Enabling TIM1 makes up for the run that TIM8 may have made. -/
theorem enable_senior (h : Sampling d.senior.timer.uif.toNat d) (hs : Waiting d)
    (hcount : d.senior.count = 0) (hstatements : d.statements = .itConfig .senior :: rest)
    (horder : Ordered (L + 1) (.itConfig .senior) rest) :
    ∃ k, Sampling k (Devices.advance d (.itConfig .senior) rest) ∧
      Following k (Devices.advance d (.itConfig .senior) rest) := by
  obtain ⟨hrest, hadc, hstream⟩ := advance_late (Phase.sampling _ h).not_pending horder
    (hstatements ▸ h.enabled)
  have hconversion : d.conversion = false := h.conversion_eq_false (Bool.toNat_le _)
  have hsenior : (Devices.advance d (.itConfig .senior) rest).senior =
      (d.senior.apply .enable).serve (seniorValue L d.state.sendSequence.value) (L + 1) :=
    react_senior d (e := .statement (.itConfig .senior)) trivial
  have hidle : ∀ n, (Devices.advance d (.itConfig .senior) rest).conversion = true →
      (Devices.advance d (.itConfig .senior) rest).senior.periods.head? = some n :=
    fun n hnow => absurd (hconversion.symm.trans hnow) Bool.false_ne_true
  refine ⟨_, h.congr hadc hstream rfl hrest, ?_⟩
  cases huif : d.senior.timer.uif with
  | false =>
    have hoff : ¬(d.senior.apply .enable).Pending := fun hp =>
      Bool.false_ne_true (huif.symm.trans hp.1)
    rw [Channel.serve_of_not_pending hoff] at hsenior
    refine ⟨horder.fresh, ?_, ?_, ?_, ?_, hidle _⟩ <;> rw [hsenior]
    · exact huif
    · rfl
    · exact hs.ccr1
    · exact hcount
  | true =>
    have hon : (d.senior.apply .enable).Pending := ⟨huif, rfl⟩
    have hzero : (d.senior.apply .enable).count = 0 := hcount
    rw [Channel.serve_of_pending hon, hzero] at hsenior
    refine ⟨horder.fresh, ?_, ?_, ?_, ?_, hidle _⟩ <;> rw [hsenior]
    · exact decide_eq_true (Nat.succ_ne_zero L).symm
    · rfl
    · rfl

theorem Waiting.not_pending (h : Waiting d) : ¬d.senior.Pending :=
  fun hp => Bool.false_ne_true (h.uie.symm.trans hp.2)

theorem Following.not_pending {k : ℕ} (h : Following k d) : ¬d.senior.Pending :=
  fun hp => Bool.false_ne_true (h.uif.symm.trans hp.1)

/-- Behind both enablings nothing concerns TIM1. -/
theorem advance_last (h : ¬d.senior.Pending) (horder : Ordered (L + 1) s rest)
    (hadc : .itConfig .adc ∉ s :: rest) (hsenior : .itConfig .senior ∉ s :: rest) :
    .itConfig .senior ∉ rest ∧ (Devices.advance d s rest).senior = d.senior ∧
      (Devices.advance d s rest).state.sendSequence = d.state.sendSequence := by
  obtain rfl : s = .timCmd :=
    (horder.late hadc).resolve_left fun hs => hsenior (hs ▸ List.mem_cons_self)
  refine ⟨fun hrest => hsenior (List.mem_cons_of_mem _ hrest), ?_, rfl⟩
  exact (react_senior d (e := .statement .timCmd) trivial).trans (Channel.serve_of_not_pending h)

theorem Aligned.advance (h : Aligned d) (hstatements : d.statements = s :: rest)
    (horder : Ordered (L + 1) s rest) : Aligned (Devices.advance d s rest) := by
  have hlate := advance_late h.phase.not_pending horder
  cases h with
  | starting h hs =>
    have henable := h.enable
    rw [hstatements] at henable
    have hsenior : s ≠ .itConfig .senior := by
      rintro rfl
      rw [horder.enable_senior rfl] at henable
      simp at henable
    by_cases hadc : s = .itConfig .adc
    · subst hadc
      obtain ⟨hnext, hwaiting⟩ := hs.toWaiting.advance rest hsenior
      have hnext : (Devices.advance d (.itConfig .adc) rest).senior = d.senior := hnext
      have hrest := horder.enable rfl
      have hflags := hs.flags (by simp [hstatements, hrest])
      have hcount := hs.count (by simp [hstatements, hrest])
      refine .enabling ?_ hwaiting (by simp [hrest]) ?_
      · rw [hnext, hflags]
        exact h.enable_adc hstatements horder
      · rw [hnext, hcount]
    · exact .starting (h.advance hstatements horder hadc)
        (hs.advance hstatements horder h.uie hadc hsenior)
  | enabling h hs henable hcount =>
    rcases horder.late (hstatements ▸ h.enabled) with rfl | rfl
    · obtain ⟨k, hk, hfollowing⟩ := enable_senior h hs hcount hstatements horder
      exact .sampling k hk hfollowing
    · rw [hstatements, horder.last rfl] at henable
      simp at henable
  | sampling k h hs =>
    have hmem : .itConfig .adc ∉ s :: rest := hstatements ▸ h.enabled
    obtain ⟨hrest, hadc, hstream⟩ := hlate hmem
    obtain ⟨hrest', hsenior, hsequence⟩ :=
      advance_last hs.not_pending horder hmem (hstatements ▸ hs.enabled)
    exact .sampling k (h.congr hadc hstream rfl hrest)
      (hs.congr hsenior hstream rfl hsequence hrest')
  | finishing h hs henabled heffect =>
    have hmem : .itConfig .adc ∉ s :: rest := hstatements ▸ h.enabled
    obtain ⟨hrest, hadc, hstream⟩ := hlate hmem
    obtain ⟨hrest', hsenior, hsequence⟩ :=
      advance_last hs.not_pending horder hmem (hstatements ▸ henabled)
    exact .finishing (h.congr hadc hstream rfl hrest) (hs.congr hsenior) hrest'
      (by rw [hsenior, hsequence, heffect])
  | atRest h hs henabled =>
    have hmem : .itConfig .adc ∉ s :: rest := hstatements ▸ h.enabled
    obtain ⟨hrest, hadc, hstream⟩ := hlate hmem
    obtain ⟨hrest', hsenior, -⟩ :=
      advance_last hs.not_pending horder hmem (hstatements ▸ henabled)
    exact .atRest (h.congr hadc hstream rfl hrest) (hs.congr hsenior) hrest'

/-! ## The updates -/

/-- An update comes to both timers at the same instant, not between the two clearings of
their flags and not, once TIM8 has run, between the enablings of their interrupts. -/
def InStep (d : Device L) : Event → Prop
  | .update senior adc => senior = true ∧ adc = true ∧
    (.clearITPendingBit .senior ∈ d.statements → .clearITPendingBit .adc ∈ d.statements) ∧
    (.itConfig .senior ∈ d.statements → .itConfig .adc ∈ d.statements ∨ d.adc.count = 0)
  | _ => True

instance (d : Device L) : (e : Event) → Decidable (InStep d e)
  | .update _ _ => inferInstanceAs (Decidable (_ ∧ _ ∧ (_ → _) ∧ (_ → _)))
  | .main | .key | .convert _ => inferInstanceAs (Decidable True)

/-- TIM1 records the update of a period in which it waits. -/
theorem Waiting.updated (h : Waiting d) (adc : Bool) :
    (updated true adc d).senior = d.senior.apply .update ∧ Waiting (updated true adc d) := by
  have hsenior : (Devices.updated true adc d).senior = d.senior.apply .update :=
    h.react_senior (e := .update true adc) trivial (by simp [view, pick])
  exact ⟨hsenior, by rw [hsenior]; exact h.uie, by rw [hsenior]; exact h.ccr1⟩

theorem Clearing.updated (h : Clearing d) (hadc : d.adc.timer.uie = false)
    (hclears : .clearITPendingBit .senior ∈ d.statements →
      .clearITPendingBit .adc ∈ d.statements) : Clearing (Devices.updated true true d) := by
  obtain ⟨hsenior, hwaiting⟩ := h.toWaiting.updated true
  have hadc : (Devices.updated true true d).adc = d.adc.apply .update :=
    react_adc_of_off hadc (by simp [view, pick])
  refine ⟨hwaiting, ?_, fun hcleared hmem => absurd (hclears hmem) hcleared, fun _ => ?_⟩
  · rw [hsenior]
    exact h.count
  · rw [hsenior, hadc]
    rfl

/-- Both handlers run once more. -/
theorem Following.updated_senior {k : ℕ} (hs : Following k d) (adc : Bool) :
    (Devices.updated true adc d).senior =
      ⟨⟨false, decide (k ≠ L + 1), seniorValue L d.state.sendSequence.value k⟩, k + 1,
        seniorValue L d.state.sendSequence.value k :: d.senior.runs,
        d.senior.timer.ccr1 :: d.senior.periods⟩ := by
  have hpending : (d.senior.apply .update).Pending := ⟨rfl, hs.uie⟩
  have hsenior : (Devices.updated true adc d).senior =
      (d.senior.apply .update).serve (seniorValue L d.state.sendSequence.value) (L + 1) :=
    react_senior d (e := .update true adc) trivial
  have hcount : (d.senior.apply .update).count = k := hs.count
  rwa [Channel.serve_of_pending hpending, hcount] at hsenior

theorem Aligned.updated (h : Aligned d) (hidle : d.conversion = false)
    (hclears : .clearITPendingBit .senior ∈ d.statements → .clearITPendingBit .adc ∈ d.statements)
    (henables : .itConfig .senior ∈ d.statements → .itConfig .adc ∈ d.statements ∨
      d.adc.count = 0) : Aligned (updated true true d) := by
  cases h with
  | starting h hs =>
    exact .starting (h.updated true) (hs.updated h.uie hclears)
  | enabling h hs henable hcount =>
    have hzero : d.senior.timer.uif.toNat = 0 :=
      h.count.symm.trans ((henables henable).resolve_left h.enabled)
    obtain ⟨hsenior, hwaiting⟩ := hs.updated true
    rw [hzero] at h
    refine .enabling ?_ hwaiting henable ?_ <;> rw [hsenior]
    · exact h.updated true hidle (Nat.succ_ne_zero L).symm
    · exact hcount
  | sampling k h hs =>
    have hsenior := hs.updated_senior true
    have hnext := h.next
    rw [hidle, Bool.toNat_false, Nat.add_zero] at hnext
    by_cases hk : k = L + 1
    · subst hk
      refine .finishing (h.updated_last true hidle) ⟨?_, ?_⟩ hs.enabled ?_ <;> rw [hsenior]
      · exact decide_eq_false (not_not_intro rfl)
      · exact value_last L d.state.sendSequence.value .senior
      · exact congrArg some hs.ccr1
    · refine .sampling (k + 1) (h.updated true hidle hk)
        ⟨hs.enabled, ?_, ?_, ?_, ?_, fun hnow => ?_⟩
      · rw [hsenior]
      · rw [hsenior]
        exact decide_eq_true hk
      · rw [hsenior]
        rfl
      · rw [hsenior]
      · have hzero : k ≠ 0 :=
          of_decide_eq_true ((h.updated_adc true hidle).2.symm.trans hnow)
        rw [hsenior]
        refine congrArg some (hs.ccr1.trans ?_)
        rw [if_neg hzero, ← hnext]
        rfl
  | finishing h hs henabled heffect =>
    exact absurd (hidle.symm.trans h.conversion) Bool.false_ne_true
  | atRest h hs henabled =>
    exact .atRest (h.updated true) (hs.updated true).2 henabled

/-! ## Whole runs -/

/-- A call begins with both timers at rest. -/
theorem Waiting.begin (h : Waiting d) :
    Clearing { d with statements := restartBranch (L + 1) } := by
  refine ⟨⟨h.uie, h.ccr1⟩, ?_, ?_, ?_⟩ <;> simp [restartBranch]

theorem Aligned.begin (h : Aligned d) (hstatements : d.statements = [])
    (hen : d.state.stream.en = false) :
    Aligned { d with statements := restartBranch (L + 1) } := by
  have hrest := h.phase.atRest_of_idle hstatements hen
  cases h with
  | starting h hs => exact .starting hrest.begin hs.toWaiting.begin
  | enabling h hs => exact .starting hrest.begin hs.begin
  | sampling k h => exact absurd (hen.symm.trans h.en) Bool.false_ne_true
  | finishing h hs => exact .starting hrest.begin hs.begin
  | atRest h hs => exact .starting hrest.begin hs.begin

theorem Aligned.delivered (h : Aligned d) (v : UInt16) (hconversion : d.conversion = true) :
    Aligned { d with state := delivered v d.state, conversion := false } := by
  have hsequence : (Devices.delivered v d.state).sendSequence = d.state.sendSequence := by
    rw [Devices.delivered]
    split_ifs <;> rfl
  cases h with
  | starting h => exact absurd (h.conversion.symm.trans hconversion) Bool.false_ne_true
  | atRest h => exact absurd (h.conversion.symm.trans hconversion) Bool.false_ne_true
  | enabling h =>
    have hidle := h.conversion_eq_false (Bool.toNat_le _)
    exact absurd (hidle.symm.trans hconversion) Bool.false_ne_true
  | sampling k h hs =>
    refine .sampling k (h.delivered v hconversion)
      ⟨hs.enabled, hs.uif, hs.uie, ?_, hs.count, fun hnow => ?_⟩
    · rw [hsequence]
      exact hs.ccr1
    · cases hnow
  | finishing h hs henabled => exact .atRest (h.delivered v) ⟨hs.uie, hs.ccr1⟩ henabled

/-- The row is loaded in `case 0` and before a frame, and nowhere else. -/
theorem mainStep_sendSequence {m : Setup g} {s s' : State g.sequenceLength}
    (h : Acquisition.mainStep m s = .ok s') (hpc : s.pc ≠ .startLoad ∧ s.pc ≠ .rowLoad) :
    s'.sendSequence = s.sendSequence := by
  cases mainStep_cases h with
  | startLoad hload => exact absurd hload hpc.1
  | rowLoad hload => exact absurd hload hpc.2
  | _ => rfl

/-- In a call of `case 0` that runs in order, no frame is on its way and none unread. -/
def StartsQuietly (d : Device L) (e : Event) : Prop :=
  e = .main → d.statements = [] → d.state.pc = .startLoad → Quiet d.state

instance (d : Device L) (e : Event) : Decidable (StartsQuietly d e) :=
  inferInstanceAs (Decidable (_ → _ → _ → _))

/-- The invariant of the runs in which `case 0` runs in order and the updates fall in step. -/
structure Tracked (d : Device L) : Prop where
  consistent : Consistent d
  orderly : Orderly (acquisition d)
  aligned : Aligned d

section Tracked

variable {m : Setup g} {d d' : Device g.sequenceLength} {e : Event}

theorem Tracked.quiet (h : Tracked d) (hstatements : d.statements = [])
    (hpc : d.state.pc ∈ betweenPlaces) : Quiet d.state := by
  have hbetween := h.orderly.between
  rw [acquisition_of_nil hstatements] at hbetween
  exact hbetween hpc

theorem Tracked.beginsIdle (h : Tracked d) (e : Event) : BeginsIdle d e := by
  intro _ hstatements hpc
  refine (h.quiet hstatements ?_).idle
  rcases hpc with hpc | hpc | hpc <;> simp [hpc, betweenPlaces]

theorem label_eq_main (h : label d e = some .main) : e = .main ∧ d.statements = [] := by
  cases e with
  | main =>
    simp only [label] at h
    split_ifs at h with hstatements
    exact ⟨rfl, hstatements⟩
  | key | update =>
    simp only [label] at h
    cases h
  | convert v =>
    simp only [label] at h
    split_ifs at h <;> cases h

theorem Tracked.step (h : Tracked d) (hquiet : StartsQuietly d e) (hinStep : InStep d e)
    (hs : Devices.step m d e = some d') : Tracked d' := by
  obtain ⟨⟨hconsistent, -⟩, hfollows⟩ := h.consistent.step (h.beginsIdle e) hs
  have horderly : Orderly (acquisition d') := by
    cases hlabel : label d e with
    | none =>
      rw [hlabel] at hfollows
      exact (show acquisition d' = acquisition d from hfollows) ▸ h.orderly
    | some e' =>
      rw [hlabel] at hfollows
      refine h.orderly.step (fun hmain hpc => ?_) hfollows
      subst hmain
      obtain ⟨rfl, hstatements⟩ := label_eq_main hlabel
      rw [acquisition_of_nil hstatements] at hpc ⊢
      exact hquiet rfl hstatements hpc
  refine ⟨hconsistent, horderly, ?_⟩
  cases step_cases hs with
  | begin hstatements hpc hcount =>
    exact h.aligned.begin hstatements (h.beginsIdle .main rfl hstatements hpc)
  | @statement s rest hstatements =>
    exact h.aligned.advance hstatements (ordered_of_suffix (hstatements ▸ h.consistent.suffix))
  | @main state hstatements hpc hmain =>
    refine Aligned.congr (d := d) rfl rfl (mainStep_stream hpc hmain) rfl h.aligned rfl
      fun hen => ?_
    refine mainStep_sendSequence hmain ⟨fun hload => ?_, fun hload => ?_⟩
    · exact Bool.false_ne_true ((hquiet rfl hstatements hload).idle.symm.trans hen)
    · have hidle := (h.quiet hstatements (by simp [hload, betweenPlaces])).idle
      exact Bool.false_ne_true (hidle.symm.trans hen)
  | key => exact Aligned.congr (d := d) rfl rfl rfl rfl h.aligned rfl fun _ => rfl
  | update senior adc hidle =>
    obtain ⟨rfl, rfl, hclears, henables⟩ := hinStep
    exact h.aligned.updated (by simpa using hidle) hclears henables
  | move v hconversion hen hmore hroom => exact h.aligned.delivered v hconversion
  | lose v hconversion hnone => exact absurd (h.aligned.phase.awaited hconversion) hnone

/-- A conversion under way meets the bit with the number of the cell that its result goes
to; behind the last bit this is the idle level. -/
theorem Tracked.level (h : Tracked d) (hconversion : d.conversion = true) :
    d.state.stream.en = true ∧ d.senior.periods.head?.map Timers.level =
      some (decide (d.state.stream.next < g.sequenceLength ∧
        d.state.sendSequence.value d.state.stream.next = 1)) := by
  cases h.aligned with
  | starting h => exact absurd (h.conversion.symm.trans hconversion) Bool.false_ne_true
  | atRest h => exact absurd (h.conversion.symm.trans hconversion) Bool.false_ne_true
  | enabling h =>
    have hidle := h.conversion_eq_false (Bool.toNat_le _)
    exact absurd (hidle.symm.trans hconversion) Bool.false_ne_true
  | sampling k h hs =>
    have hndtr := h.ndtr
    refine ⟨h.en, ?_⟩
    rw [hs.effect hconversion, Option.map_some, level_seniorValue _ (by omega)]
  | finishing h hs henabled heffect =>
    refine ⟨h.en, ?_⟩
    rw [heffect, Option.map_some, level_seniorValue _ (by omega), h.next]

/-- Between two frames, with both timers at rest and `main` waiting for `flag`. -/
structure Ready (d : Device L) : Prop extends BetweenFrames d where
  waiting : Waiting d
  pc : d.state.pc = .switch

theorem Ready.tracked (h : Ready d) : Tracked d := by
  refine ⟨h.consistent, ?_, .atRest h.atRest h.waiting (by simp [h.statements])⟩
  rw [acquisition_of_nil h.statements]
  exact ⟨fun _ => h.atRest.en, fun _ => h.atRest.en, by simp [h.pc, betweenPlaces]⟩

theorem tracked_run {d₀ : Device g.sequenceLength} {h : List (Device g.sequenceLength × Event)}
    (hstart : Ready d₀) (hrun : Run (Devices.step m) d₀ h d)
    (hguard : ∀ p ∈ h, StartsQuietly p.1 p.2 ∧ InStep p.1 p.2) : Tracked d :=
  hrun.invariant_of_guarded (fun _ => Tracked) (fun d e => StartsQuietly d e ∧ InStep d e)
    hstart.tracked (fun _ _ _ _ _ hI hG hs => hI.step hG.1 hG.2 hs) hguard

/-- In every run in which `case 0` runs in order and the updates fall in step, each
conversion is made under the bit of `sendSequence` with the number of the cell that its
result goes to, and the last one of a frame under the idle level. -/
theorem conversion_meets_bit (m : Setup g) {d₀ d : Device g.sequenceLength}
    {h : List (Device g.sequenceLength × Event)} (hstart : Ready d₀)
    (hrun : Run (Devices.step m) d₀ h d)
    (hguard : ∀ p ∈ h, StartsQuietly p.1 p.2 ∧ InStep p.1 p.2) (hconversion : d.conversion = true) :
    d.state.stream.en = true ∧ d.senior.periods.head?.map level =
      some (decide (d.state.stream.next < g.sequenceLength ∧
        d.state.sendSequence.value d.state.stream.next = 1)) :=
  (tracked_run hstart hrun hguard).level hconversion

/-! ## The rows that are stored -/

/-- `case 0` runs at the beginning of a round, with no frame on its way and none unread. -/
def StartsRound (d : Device L) (e : Event) : Prop :=
  e = .main → d.statements = [] → d.state.pc = .startLoad → d.state.frameCount = 1 ∧ Quiet d.state

instance (d : Device L) (e : Event) : Decidable (StartsRound d e) :=
  inferInstanceAs (Decidable (_ → _ → _ → _))

theorem label_eq_transfer {v : UInt16}
    (h : label d e = some (.sample v) ∨ label d e = some (.complete v)) : e = .convert v := by
  cases e with
  | main =>
    simp only [label] at h
    split_ifs at h <;> rcases h with h | h <;> cases h
  | key | update =>
    simp only [label] at h
    rcases h with h | h <;> cases h
  | convert w =>
    simp only [label] at h
    split_ifs at h
    · rcases h with h | h <;> cases h
      rfl
    · rcases h with h | h <;> cases h
      rfl

/-- The pairing of the rows can be followed from a device that is ready on. -/
theorem Ready.paired {d₀ : Device g.sequenceLength} {h₀ : List (State g.sequenceLength × _)}
    {h : List (Device g.sequenceLength × Event)}
    (hreached : Run (Acquisition.step m) (State.initial m) h₀ d₀.state) (hstart : Ready d₀)
    (hflag : d₀.state.flag ≠ 2)
    (hrun : Run (Acquisition.step m) d₀.state (observed acquisition label h) (acquisition d))
    (hguard : ∀ p ∈ h, StartsRound p.1 p.2) :
    Paired m (observed acquisition label h) (acquisition d) := by
  have hpaired : Paired m [] d₀.state := .of_quiet hstart.pc ⟨hstart.atRest.en, hflag⟩
  refine hpaired.of_run hreached hrun fun q hq hmain hpc => ?_
  obtain ⟨p, hp, hview, hlabel⟩ := mem_observed.mp hq
  rw [hmain] at hlabel
  obtain ⟨hevent, hstatements⟩ := label_eq_main hlabel
  rw [acquisition_of_nil hstatements] at hview
  rw [← hview] at hpc ⊢
  exact .inr (hguard p hp hevent hstatements hpc)

/-- In every run from a device that is ready in which `case 0` begins rounds only and the
updates fall in step, whenever `getOverlopSignal` is about to write a row, each sample it
copies was converted under the bit of that row of the sequence matrix with the number of
its cell, and the last one under the idle level. -/
theorem stored_samples_meet_bits (m : Setup g) {d₀ d : Device g.sequenceLength}
    {h₀ : List (State g.sequenceLength × Acquisition.Event)}
    {h : List (Device g.sequenceLength × Event)}
    (hreached : Run (Acquisition.step m) (State.initial m) h₀ d₀.state) (hstart : Ready d₀)
    (hflag : d₀.state.flag ≠ 2) (hrun : Run (Devices.step m) d₀ h d)
    (hguard : ∀ p ∈ h, StartsRound p.1 p.2 ∧ InStep p.1 p.2) (hstatements : d.statements = [])
    (hstore : IsStore d.state .main) :
    ∀ i ≤ g.sequenceLength, ∃ p ∈ h, p.2 = .convert (d.state.convertedValue.value i) ∧
      p.1.state.stream.next = i ∧ p.1.senior.periods.head?.map level =
        some (decide (i < g.sequenceLength ∧
          sendBit (m.pPrbs.value ((d.state.frameCount - 2) * g.sequenceLength + i)) = 1)) := by
  have hquiet : ∀ p ∈ h, StartsQuietly p.1 p.2 ∧ InStep p.1 p.2 := fun p hp =>
    ⟨fun he hs hpc => ((hguard p hp).1 he hs hpc).2, (hguard p hp).2⟩
  -- What is known of each entry of the history.
  have hentry : ∀ p ∈ h, Tracked p.1 ∧ ∃ d', Devices.step m p.1 p.2 = some d' := by
    intro p hp
    obtain ⟨h', d', hsub, hrun', hstep⟩ := hrun.exists_of_mem hp
    exact ⟨tracked_run hstart hrun' fun q hq => hquiet q (hsub hq), d', hstep⟩
  have hacquisition := (consistent_run hstart.toBetweenFrames hrun
    fun p hp => (hentry p hp).1.beginsIdle p.2).2
  rw [acquisition_of_nil hstart.statements] at hacquisition
  have hpaired := hstart.paired hreached hflag hacquisition fun p hp => (hguard p hp).1
  rw [acquisition_of_nil hstatements] at hpaired
  obtain ⟨after, last, v, during, start, before, hobserved, hframe, hloaded, -, -, htransfers⟩ :=
    hpaired.store hstore
  intro i hi
  obtain ⟨q, hq, hnext, hevent⟩ := htransfers i hi
  have hrow : RowLoaded m (storeRow d.state) q.1.sendSequence := by
    rcases List.mem_cons.mp hq with rfl | hq
    · exact hloaded
    · exact hframe.loaded q (List.mem_append_left _ hq)
  have hmem : q ∈ observed acquisition label h := by
    rw [hobserved]
    refine List.mem_append_right _ ?_
    rcases List.mem_cons.mp hq with rfl | hq
    · exact List.mem_cons_self
    · exact List.mem_cons_of_mem _ (List.mem_append_left _ hq)
  obtain ⟨p, hp, hview, hlabel⟩ := mem_observed.mp hmem
  obtain ⟨htracked, d', hstep⟩ := hentry p hp
  have hconvert : p.2 = .convert (d.state.convertedValue.value i) :=
    label_eq_transfer (hevent.imp (fun h => h ▸ hlabel) fun h => h ▸ hlabel)
  have hconversion : p.1.conversion = true := by
    rw [hconvert] at hstep
    cases step_cases hstep with
    | move v hconversion => exact hconversion
    | lose v hconversion => exact hconversion
  rw [acquisition_of_late (htracked.consistent.late hconversion)] at hview
  rw [← hview] at hnext hrow
  have hnext : p.1.state.stream.next = i := hnext
  refine ⟨p, hp, hconvert, hnext, (htracked.level hconversion).2.trans ?_⟩
  rw [hnext]
  exact congrArg some (decide_eq_decide.mpr (and_congr_right fun hi => by
    rw [hrow.value hi, storeRow]))

end Tracked

theorem ready_deviceFour : Ready deviceFour :=
  ⟨betweenFrames_deviceFour, ⟨rfl, rfl⟩, by decide +kernel⟩

/-- The first conversion of a frame. -/
theorem conversion_meets_bit_first :
    ∃ h d, Run (step setupFour) deviceFour h d ∧ d.state.sendSequence.value 0 = 1 ∧
      d.senior.periods.head?.map level = some true := by
  obtain ⟨h, d, hrun, hconversion, hnext, hone, hguard⟩ := exists_run_of_exec (step setupFour)
    deviceFour (.replicate 17 .main ++ (burstFour 0 0 0 0).take 2)
    (fun h d => d.conversion = true ∧ d.state.stream.next = 0 ∧ d.state.sendSequence.value 0 = 1 ∧
      ∀ p ∈ h, StartsQuietly p.1 p.2 ∧ InStep p.1 p.2) (by decide +kernel)
  have hlevel := (conversion_meets_bit setupFour ready_deviceFour hrun hguard hconversion).2
  rw [hnext, hone] at hlevel
  exact ⟨h, d, hrun, hone, hlevel⟩

/-- The first row of a round. -/
theorem stored_samples_meet_bits_first_row :
    ∃ h d, Run (step setupFour) deviceFour h d ∧ IsStore d.state .main ∧
      ∀ i ≤ 3, ∃ p ∈ h, p.2 = .convert (d.state.convertedValue.value i) ∧
        p.1.state.stream.next = i ∧ p.1.senior.periods.head?.map level =
          some (decide (i < 3 ∧ sendBit (setupFour.pPrbs.value i) = 1)) := by
  obtain ⟨h, d, hrun, hstatements, hstore, hcount, hguard⟩ := exists_run_of_exec (step setupFour)
    deviceFour (.replicate 17 .main ++ burstFour 9 1 2 3 ++ .replicate 4 .main)
    (fun h d => d.statements = [] ∧ IsStore d.state .main ∧ d.state.frameCount = 2 ∧
      ∀ p ∈ h, StartsRound p.1 p.2 ∧ InStep p.1 p.2) (by decide +kernel)
  have hreached := exec_run (Option.some_get firstFrameFour_runs).symm
  have hsamples := stored_samples_meet_bits setupFour hreached ready_deviceFour
    (by decide +kernel) hrun hguard hstatements hstore
  rw [hcount] at hsamples
  simp only [Nat.sub_self, Nat.zero_mul, Nat.zero_add] at hsamples
  exact ⟨h, d, hrun, hstore, hsamples⟩

end HadamardIMS.Devices
