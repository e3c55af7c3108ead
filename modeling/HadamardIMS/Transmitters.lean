import HadamardIMS.Runs

/-!
# A transmitter behind a polled data register

A byte that the program writes waits in the data register until the shift register is free,
and leaves on the line from there. The program and the transmitter take their steps in any
order. A program that polls for an empty data register behind each of its writes loses no
byte, and everything that it wrote reaches the line in the order of the writes.
-/
namespace HadamardIMS.Transmitters

open Runs

universe u

variable {α : Type u}

/-- What a program does with the registers: write the data register, or poll until it is
empty. -/
inductive Access (α : Type u) where
  | write (a : α)
  | poll
  deriving Repr, DecidableEq

/-- The rest of the program, the two registers, what has left on the line, and the number of
values that were overwritten before they did. -/
structure Transmitter (α : Type u) where
  program : List (Access α)
  holding : Option α
  shifting : Option α
  line : List α
  overwritten : ℕ

/-- An access by the program, the move from the data register to the shift register, and the
end of a transmission. -/
inductive Event where
  | access
  | load
  | finish
  deriving Repr, DecidableEq

/-- Both registers are empty, and nothing has left yet. -/
def start (program : List (Access α)) : Transmitter α := ⟨program, none, none, [], 0⟩

def access (t : Transmitter α) : Access α → List (Access α) → Transmitter α
  | .write a, rest =>
    { t with
      program := rest
      holding := some a
      overwritten := t.overwritten + t.holding.toList.length }
  | .poll, rest => if t.holding.isNone then { t with program := rest } else t

def step (t : Transmitter α) : Event → Option (Transmitter α)
  | .access =>
    match t.program with
    | [] => none
    | a :: rest => some (access t a rest)
  | .load =>
    match t.holding, t.shifting with
    | some a, none => some { t with holding := none, shifting := some a }
    | _, _ => none
  | .finish => t.shifting.map fun a => { t with shifting := none, line := t.line ++ [a] }

/-- The values that a program writes. -/
def writes : List (Access α) → List α
  | [] => []
  | .write a :: rest => a :: writes rest
  | .poll :: rest => writes rest

@[simp] theorem writes_append (p q : List (Access α)) : writes (p ++ q) = writes p ++ writes q := by
  induction p with
  | nil => rfl
  | cons a p ih =>
    cases a with
    | write a => exact congrArg (a :: ·) ih
    | poll => exact ih

/-- Each write has a poll behind it. -/
inductive Polled : List (Access α) → Prop
  | nil : Polled []
  | cons (a : α) {rest : List (Access α)} (h : Polled rest) : Polled (.write a :: .poll :: rest)

theorem Polled.append {p q : List (Access α)} (hp : Polled p) (hq : Polled q) :
    Polled (p ++ q) := by
  induction hp with
  | nil => exact hq
  | cons a _ ih => exact .cons a ih

/-- The values on their way, from the line back to the program. -/
def underWay (t : Transmitter α) : List α :=
  t.line ++ t.shifting.toList ++ t.holding.toList ++ writes t.program

/-- The invariant of a program that polls: before a write the data register is empty. -/
structure Sound (sent : List α) (t : Transmitter α) : Prop where
  sent : underWay t = sent
  polled : t.holding = none ∧ Polled t.program ∨ ∃ rest, t.program = .poll :: rest ∧ Polled rest
  overwritten : t.overwritten = 0

/-- The program waits, and the data register is not empty yet. -/
def Idle (t : Transmitter α) : Prop := t.program.head? = some .poll ∧ t.holding ≠ none

/-- The steps, with what they leave. -/
inductive StepCase (t : Transmitter α) : Event → Transmitter α → Prop
  | write (a : α) {rest : List (Access α)} (hprogram : t.program = .write a :: rest) :
      StepCase t .access { t with
        program := rest
        holding := some a
        overwritten := t.overwritten + t.holding.toList.length }
  | pass {rest : List (Access α)} (hprogram : t.program = .poll :: rest)
      (hempty : t.holding = none) : StepCase t .access { t with program := rest }
  | again (hidle : Idle t) : StepCase t .access t
  | load (a : α) (hfull : t.holding = some a) (hfree : t.shifting = none) :
      StepCase t .load { t with holding := none, shifting := some a }
  | finish (a : α) (hfull : t.shifting = some a) :
      StepCase t .finish { t with shifting := none, line := t.line ++ [a] }

theorem step_cases {t t' : Transmitter α} {e : Event} (h : step t e = some t') :
    StepCase t e t' := by
  cases e with
  | access =>
    simp only [step] at h
    split at h
    · cases h
    · rename_i a rest hprogram
      cases h
      cases a with
      | write a => exact .write a hprogram
      | poll =>
        rw [access]
        split_ifs with hempty
        · exact .pass hprogram (Option.isNone_iff_eq_none.mp hempty)
        · rw [Option.isNone_iff_eq_none] at hempty
          exact .again ⟨by rw [hprogram]; rfl, hempty⟩
  | load =>
    simp only [step] at h
    split at h
    · rename_i a hfull hfree
      cases h
      exact .load a hfull hfree
    · cases h
  | finish =>
    obtain ⟨a, hfull, rfl⟩ := Option.map_eq_some_iff.mp h
    exact .finish a hfull

theorem Sound.start {program : List (Access α)} (h : Polled program) :
    Sound (writes program) (start program) :=
  ⟨rfl, .inl ⟨rfl, h⟩, rfl⟩

theorem Sound.step {sent : List α} {t t' : Transmitter α} {e : Event} (h : Sound sent t)
    (hs : StepCase t e t') : Sound sent t' := by
  obtain ⟨hsent, hpolled, hover⟩ := h
  cases hs with
  | write a hprogram =>
    rcases hpolled with ⟨hempty, hpolled⟩ | ⟨rest, hpoll, -⟩
    · rw [hprogram] at hpolled
      cases hpolled with
      | cons _ hrest =>
        refine ⟨?_, .inr ⟨_, rfl, hrest⟩, ?_⟩
        · simpa [underWay, hprogram, hempty, writes] using hsent
        · simpa [hempty] using hover
    · rw [hprogram] at hpoll
      cases hpoll
  | pass hprogram hempty =>
    rcases hpolled with ⟨-, hpolled⟩ | ⟨rest, hpoll, hrest⟩
    · rw [hprogram] at hpolled
      cases hpolled
    · rw [hprogram] at hpoll
      cases hpoll
      refine ⟨?_, .inl ⟨hempty, hrest⟩, hover⟩
      simpa [underWay, hprogram, writes] using hsent
  | again => exact ⟨hsent, hpolled, hover⟩
  | load a hfull hfree =>
    refine ⟨?_, ?_, hover⟩
    · simpa [underWay, hfull, hfree] using hsent
    · rcases hpolled with ⟨hempty, -⟩ | hpoll
      · rw [hfull] at hempty
        cases hempty
      · exact .inr hpoll
  | finish a hfull =>
    refine ⟨?_, hpolled, hover⟩
    simpa [underWay, hfull] using hsent

/-- The run lemma: whatever the order of the steps, nothing is lost, doubled or exchanged. -/
theorem sound_run {program : List (Access α)} {h : List (Transmitter α × Event)}
    {t : Transmitter α} (hpolled : Polled program) (hrun : Run step (start program) h t) :
    Sound (writes program) t :=
  hrun.invariant (fun _ t => Sound (writes program) t) (.start hpolled)
    fun _ _ _ _ _ hI hs => hI.step (step_cases hs)

/-! ## The end of a transmission -/

/-- The step is not one of waiting. -/
def Busy (t : Transmitter α) (e : Event) : Prop := ¬(e = .access ∧ Idle t)

instance [DecidableEq α] (t : Transmitter α) : Decidable (Idle t) :=
  inferInstanceAs (Decidable (_ ∧ _))

instance [DecidableEq α] (t : Transmitter α) (e : Event) : Decidable (Busy t e) :=
  inferInstanceAs (Decidable (¬_))

/-- A step for each access of the program, and two for each value on its way through the two
registers. -/
def work (t : Transmitter α) : ℕ :=
  2 * (writes t.program).length + t.program.length + 2 * t.holding.toList.length +
    t.shifting.toList.length

theorem StepCase.work_lt {t t' : Transmitter α} {e : Event} (h : StepCase t e t')
    (hbusy : Busy t e) : work t' < work t := by
  cases h with
  | write a hprogram =>
    simp [work, hprogram, writes]
    omega
  | pass hprogram hempty => simp [work, hprogram, writes]
  | again hidle => exact absurd ⟨rfl, hidle⟩ hbusy
  | load a hfull hfree => simp [work, hfull, hfree]
  | finish a hfull => simp [work, hfull]

theorem StepCase.eq_of_not_busy {t t' : Transmitter α} {e : Event} (h : StepCase t e t')
    (hidle : ¬Busy t e) : t' = t := by
  obtain ⟨rfl, hwait⟩ := Classical.not_not.mp hidle
  cases h with
  | write a hprogram => simp [Idle, hprogram] at hwait
  | pass hprogram hempty => simp [Idle, hprogram, hempty] at hwait
  | again => rfl

theorem works : Works step (fun _ : Transmitter α => True) (fun _ _ => True) Busy work where
  invariant := fun _ _ _ _ _ _ => trivial
  lt := fun _ _ _ _ _ hs hbusy => (step_cases hs).work_lt hbusy
  le := fun t e t' _ _ hs => by
    by_cases hbusy : Busy t e
    · exact Nat.le_of_lt ((step_cases hs).work_lt hbusy)
    · exact Nat.le_of_eq (congrArg work ((step_cases hs).eq_of_not_busy hbusy))

/-- Where nothing is left to do, everything has left. -/
theorem settled_cases {t : Transmitter α} (h : Settled step (fun _ _ => True) Busy t) :
    t.program = [] ∧ t.holding = none ∧ t.shifting = none := by
  have hshifting : t.shifting = none := by
    cases hfull : t.shifting with
    | none => rfl
    | some a =>
      refine absurd ?_ (h .finish { t with shifting := none, line := t.line ++ [a] } trivial ?_)
      · rintro ⟨he, -⟩
        cases he
      · simp [step, hfull]
  have hholding : t.holding = none := by
    cases hfull : t.holding with
    | none => rfl
    | some a =>
      refine absurd ?_ (h .load { t with holding := none, shifting := some a } trivial ?_)
      · rintro ⟨he, -⟩
        cases he
      · simp [step, hfull, hshifting]
  refine ⟨?_, hholding, hshifting⟩
  cases hprogram : t.program with
  | nil => rfl
  | cons a rest =>
    refine absurd ?_ (h .access (access t a rest) trivial ?_)
    · exact fun hidle => by simp [Idle, hholding] at hidle
    · simp [step, hprogram]

/-- In whatever order the program and the transmitter take their steps, the line carries the
values that a polling program writes, in their order and none twice; the number of steps, those
of waiting apart, is bounded, the transmission can always be brought to its end, and then all
have left. -/
theorem transmits [DecidableEq α] {program : List (Access α)} (hpolled : Polled program)
    {h : List (Transmitter α × Event)} {t : Transmitter α} (hrun : Run step (start program) h t) :
    t.line <+: writes program ∧ t.overwritten = 0 ∧
      h.countP (fun p => Busy p.1 p.2) ≤ program.length + 2 * (writes program).length ∧
      (∃ u, Leads step (fun _ _ => True) t u ∧ Settled step (fun _ _ => True) Busy u) ∧
      (Settled step (fun _ _ => True) Busy t → t.line = writes program) := by
  have hsound := sound_run hpolled hrun
  refine ⟨?_, hsound.overwritten, ?_, works.exists_settled trivial, fun hsettled => ?_⟩
  · rw [← hsound.sent, underWay, List.append_assoc, List.append_assoc]
    exact List.prefix_append _ _
  · obtain ⟨-, hcount⟩ := works.countP_le trivial hrun fun _ _ => trivial
    have hstart : work (start program) = program.length + 2 * (writes program).length := by
      simp [work, start, Nat.add_comm]
    omega
  · obtain ⟨hprogram, hholding, hshifting⟩ := settled_cases hsettled
    have hsent := hsound.sent
    simpa [underWay, hprogram, hholding, hshifting, writes] using hsent

end HadamardIMS.Transmitters
