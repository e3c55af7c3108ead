import HadamardIMS.Acquisition

/-!
# Completed frames that `main` never counts

One variable carries the requests of two interrupts, and `main` resets it after
it has read it. A completion that is waiting in `flag` is counted later, unless a
write destroys it first; these writes are listed, and they account for the whole
difference between the completions and the increments of `frameCount`.
-/
namespace HadamardIMS.Acquisition

open Runs Signals

variable {g : Globals} {m : Setup g}

/-- The step is `frameCount++`. -/
def IsIncrement {L : ℕ} (s : State L) (e : Event) : Bool := e = .main ∧ s.pc = .doneCount

/-- The DMA completions of a run. -/
def completions {L : ℕ} (h : List (State L × Event)) : ℕ := h.countP fun p => IsCompletion p.2

/-- The increments of `frameCount` in a run. -/
def increments {L : ℕ} (h : List (State L × Event)) : ℕ := h.countP fun p => IsIncrement p.1 p.2

/-- The step destroys a completion that `main` has not acted upon: the key is
pressed while `flag` is 2, `main` writes `flag` for another reason while it is 2, a
second frame completes while it is 2, or one completes between the read of `flag`
by `switch` and the write `flag = 10` of `case 2`. -/
def Overwrites {L : ℕ} (s : State L) : Event → Bool
  | .key => s.flag = 2 ∧ s.pc ≠ .doneReset
  | .main => s.flag = 2 ∧ (s.pc = .startReset ∨ s.pc = .firstTest ∧ s.frameCount = 1)
  | .sample _ => false
  | .complete _ => s.flag = 2 ∨ s.pc = .doneReset

/-- The completions that `main` can still count: one in `flag`, and one between
the read of `flag` and the increment. -/
def pendingCompletions {L : ℕ} (s : State L) : ℕ :=
  (if s.flag = 2 ∧ s.pc ≠ .doneReset then 1 else 0) +
    if s.pc = .doneReset ∨ s.pc = .doneCount then 1 else 0

/-- Each step moves one completion between the four places at most. -/
theorem completions_step {s s' : State g.sequenceLength} {e : Event} (h : StepCase m s e s') :
    (if IsCompletion e then 1 else 0) + pendingCompletions s = (if IsIncrement s e then 1 else 0) +
      (if Overwrites s e then 1 else 0) + pendingCompletions s' := by
  cases h with
  | main h =>
    cases h
    case doneCount hpc =>
      simp [IsCompletion, IsIncrement, Overwrites, pendingCompletions, hpc]
      omega
    all_goals simp_all [IsCompletion, IsIncrement, Overwrites, pendingCompletions]
  | key =>
    by_cases hflag : s.flag = 2 <;> by_cases hpc : s.pc = .doneReset <;>
      simp [IsCompletion, IsIncrement, Overwrites, pendingCompletions, hflag, hpc]
  | sample => simp [IsCompletion, IsIncrement, Overwrites, pendingCompletions]
  | complete =>
    by_cases hflag : s.flag = 2 <;> by_cases hpc : s.pc = .doneReset <;>
      simp [IsCompletion, IsIncrement, Overwrites, pendingCompletions, hflag, hpc]

/-- Over a run, the completions are the counted, the destroyed and the pending ones. -/
theorem completions_eq {h : List (State g.sequenceLength × Event)} {s : State g.sequenceLength}
    (hrun : Run (step m) (State.initial m) h s) :
    completions h = increments h + h.countP (fun p => Overwrites p.1 p.2) +
      pendingCompletions s := by
  refine hrun.invariant (fun h s => completions h = increments h +
    h.countP (fun p => Overwrites p.1 p.2) + pendingCompletions s) rfl ?_
  intro h s e s' _ hI hs
  have hstep := completions_step (step_cases hs)
  simp only [completions, increments, List.countP_cons] at hI ⊢
  omega

/-- When `main` is about to read a `flag` that is not 2, every completion has been
counted by exactly one increment if and only if no step of the run destroyed one. -/
theorem increments_eq_completions_iff (m : Setup g)
    {h : List (State g.sequenceLength × Event)} {s : State g.sequenceLength}
    (hrun : Run (step m) (State.initial m) h s) (hpc : s.pc = .switch) (hflag : s.flag ≠ 2) :
    increments h = completions h ↔ ∀ p ∈ h, Overwrites p.1 p.2 = false := by
  have htotal := completions_eq hrun
  have hpending : pendingCompletions s = 0 := by simp [pendingCompletions, hpc, hflag]
  rw [hpending] at htotal
  calc increments h = completions h ↔ h.countP (fun p => Overwrites p.1 p.2) = 0 := by omega
    _ ↔ ∀ p ∈ h, Overwrites p.1 p.2 = false := by simp [List.countP_eq_zero]

/-- A key press between the completion of a frame and the read of `flag`. -/
theorem not_every_completion_counted :
    ¬ ∀ (g : Globals) (m : Setup g) (h : List (State g.sequenceLength × Event))
      (s : State g.sequenceLength), Run (step m) (State.initial m) h s → s.pc = .switch →
      s.flag ≠ 2 → increments h = completions h := by
  intro hall
  obtain ⟨h, s, hrun, hpc, hflag, hlost⟩ := exists_run_of_exec (step setupFour)
    (State.initial setupFour) [.main, .sample 0, .sample 0, .sample 0, .complete 0, .key]
    (fun h s => s.pc = .switch ∧ s.flag ≠ 2 ∧ increments h ≠ completions h) (by decide +kernel)
  exact hlost (hall _ _ h s hrun hpc hflag)

/-- With the frame counted before the key is pressed nothing is lost. -/
theorem increments_eq_completions_one_frame :
    ∃ h s, Run (step setupFour) (State.initial setupFour) h s ∧ completions h = 1 ∧
      increments h = completions h := by
  obtain ⟨h, s, hrun, hpc, hflag, hone, hkept⟩ := exists_run_of_exec (step setupFour)
    (State.initial setupFour)
    ([.main, .sample 0, .sample 0, .sample 0, .complete 0] ++ List.replicate 6 .main ++ [.key])
    (fun h s => s.pc = .switch ∧ s.flag ≠ 2 ∧ completions h = 1 ∧
      ∀ p ∈ h, Overwrites p.1 p.2 = false) (by decide +kernel)
  exact ⟨h, s, hrun, hone, (increments_eq_completions_iff setupFour hrun hpc hflag).mpr hkept⟩

end HadamardIMS.Acquisition
