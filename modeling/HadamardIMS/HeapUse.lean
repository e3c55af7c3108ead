import HadamardIMS.Rounds

/-!
# What the rounds do to the heap

`calculate` allocates its result and `main` overwrites the only pointer to the
previous one, so each round leaves one more block of the size of the matrix. The
heap therefore runs out after finitely many rounds, whatever its capacity, and
`calculate` then stores through a null pointer.
-/
namespace HadamardIMS.Acquisition

open Loops Buffers Runs Hadamard Signals Heaps

variable {g : Globals} {m : Setup g}

/-- The heap part of `hadamard`: the row pointers, the rows and the result, of
which the result stays. -/
def hadamardHeap (n : ℕ) (h : Heap) : Option Heap := do
  let (pointer, h) ← h.malloc (n * 4)
  let (rows, h) ← Heap.mallocMany (4 * n) n h
  let (_, h) ← h.malloc (n * n * 4)
  some ((rows.foldl Heap.free h).free pointer)

/-- The requests of `main` before the loop, in their order. -/
def startUp (g : Globals) (h : Heap) : Option Heap := do
  let size := g.sequenceLength * g.sequenceLength * 4
  let (_, h) ← h.malloc ((g.sequenceLength + 2) * 2)
  let (_, h) ← h.malloc size
  let (_, h) ← h.malloc size
  let (_, h) ← h.malloc (g.sequenceLength * 4)
  let (_, h) ← h.malloc g.sequenceLength
  let h ← hadamardHeap g.hadamardOrder h
  let (_, h) ← h.malloc size
  let (_, h) ← h.malloc size
  some h

/-- The bytes that are in use when `main` enters the loop. -/
def startUpBytes (g : Globals) : ℕ :=
  2 * (g.sequenceLength + 2) + 5 * g.sequenceLength +
    16 * (g.sequenceLength * g.sequenceLength) + 4 * (g.hadamardOrder * g.hadamardOrder)

theorem used_hadamardHeap {n : ℕ} {h h' : Heap} (hm : hadamardHeap n h = some h') :
    h'.used = h.used + 4 * (n * n) ∧ h'.capacity = h.capacity := by
  simp only [hadamardHeap, Option.bind_eq_bind, Option.bind_eq_some_iff, Prod.exists,
    Option.some.injEq] at hm
  obtain ⟨pointer, h₁, hpointer, rows, h₂, hrows, p, h₃, hresult, rfl⟩ := hm
  obtain ⟨hlive₁, hnumber, hcap₁⟩ := Heap.malloc_eq_some hpointer
  obtain ⟨hused₂, hcap₂, hlength, hnodup, hlive₂, hlow, hkeep₂⟩ := Heap.mallocMany_eq_some hrows
  obtain ⟨hlive₃, -, hcap₃⟩ := Heap.malloc_eq_some hresult
  have hrowsLive : ∀ b ∈ rows, (b, 4 * n) ∈ h₃.live := by
    intro b hb
    rw [hlive₃]
    exact List.mem_cons_of_mem _ (hlive₂ b hb)
  have hpointerLive : (pointer, n * 4) ∈ (rows.foldl Heap.free h₃).live := by
    refine Heap.mem_foldl_free ?_ fun hmem => ?_
    · rw [hlive₃]
      refine List.mem_cons_of_mem _ (hkeep₂ _ ?_)
      rw [hlive₁]
      exact List.mem_cons_self
    · have hlt := h₁.fresh (pointer, n * 4) (by rw [hlive₁]; exact List.mem_cons_self)
      exact absurd (hlow pointer hmem) (by dsimp only at hlt ⊢; omega)
  have hfree := Heap.used_foldl_free hnodup hrowsLive
  have hfreePointer := Heap.used_free hpointerLive
  have hused₁ := Heap.used_malloc hpointer
  have hused₃ := Heap.used_malloc hresult
  constructor
  · rw [hlength] at hfree
    have hcomm : n * n * 4 = 4 * (n * n) := Nat.mul_comm _ _
    omega
  · rw [Heap.capacity_free, Heap.capacity_foldl_free, hcap₃, hcap₂, hcap₁]

theorem used_startUp {h h' : Heap} (hm : startUp g h = some h') :
    h'.used = h.used + startUpBytes g ∧ h'.capacity = h.capacity := by
  simp only [startUp, Option.bind_eq_bind, Option.bind_eq_some_iff, Prod.exists,
    Option.some.injEq] at hm
  obtain ⟨_, h₁, hm₁, _, h₂, hm₂, _, h₃, hm₃, _, h₄, hm₄, _, h₅, hm₅, h₆, hm₆, _, h₇, hm₇, _, h₈,
    hm₈, rfl⟩ := hm
  obtain ⟨hused, hcapacity⟩ := used_hadamardHeap hm₆
  constructor
  · rw [Heap.used_malloc hm₈, Heap.used_malloc hm₇, hused, Heap.used_malloc hm₅,
      Heap.used_malloc hm₄, Heap.used_malloc hm₃, Heap.used_malloc hm₂, Heap.used_malloc hm₁,
      startUpBytes]
    ring
  · rw [(Heap.malloc_eq_some hm₈).2.2, (Heap.malloc_eq_some hm₇).2.2, hcapacity,
      (Heap.malloc_eq_some hm₅).2.2, (Heap.malloc_eq_some hm₄).2.2, (Heap.malloc_eq_some hm₃).2.2,
      (Heap.malloc_eq_some hm₂).2.2, (Heap.malloc_eq_some hm₁).2.2]

/-- The executions of the processing branch that have allocated their result. -/
def calculations {L : ℕ} (h : List (State L × Event)) : ℕ :=
  h.countP fun p => IsProcess p.1 p.2

theorem calculations_cons {L : ℕ} (s : State L) (e : Event) (h : List (State L × Event)) :
    calculations ((s, e) :: h) = calculations h + if IsProcess s e then 1 else 0 := by
  simp [calculations, List.countP_cons]

/-- The executions of `frameCount = 1` at the end of the processing branch. -/
def completedRounds {L : ℕ} (h : List (State L × Event)) : ℕ :=
  h.countP fun p => p.2 = .main ∧ p.1.pc = .restart

/-- Only `calculate` touches the heap. -/
theorem used_step {s s' : State g.sequenceLength} {e : Event} (hs : StepCase m s e s') :
    s'.heap.used = s.heap.used + 4 * (g.sequenceLength * g.sequenceLength) *
      (if IsProcess s e then 1 else 0) ∧ s'.heap.capacity = s.heap.capacity := by
  rcases hs.main_or_interrupt with ⟨rfl, hmain⟩ | he
  · cases hmain
    case calculate hpc hmalloc _ =>
      rw [if_pos ⟨rfl, hpc⟩, Nat.mul_one]
      exact ⟨Heap.used_malloc hmalloc, (Heap.malloc_eq_some hmalloc).2.2⟩
    all_goals exact ⟨by simp [IsProcess, *], rfl⟩
  · rw [(hs.undisturbed he).heap, if_neg fun hp => he hp.1, Nat.mul_zero, Nat.add_zero]
    exact ⟨rfl, rfl⟩

/-- The run lemma: every processed round has taken memory, and none was given back. -/
theorem used_run {s₀ s : State g.sequenceLength} {h : List (State g.sequenceLength × Event)}
    (hrun : Run (step m) s₀ h s) :
    s.heap.used = s₀.heap.used + 4 * (g.sequenceLength * g.sequenceLength) * calculations h ∧
      s.heap.capacity = s₀.heap.capacity := by
  refine hrun.invariant (fun h s => s.heap.used = s₀.heap.used +
    4 * (g.sequenceLength * g.sequenceLength) * calculations h ∧
      s.heap.capacity = s₀.heap.capacity) ⟨rfl, rfl⟩ ?_
  rintro h s e s' - ⟨hused, hcapacity⟩ hs
  obtain ⟨hstep, hsame⟩ := used_step (step_cases hs)
  refine ⟨?_, hsame.trans hcapacity⟩
  rw [hstep, hused, calculations_cons, Nat.mul_add, Nat.add_assoc]

/-- Where `main` stands between `calculate` and the end of the branch, one round
has taken its memory and is not completed yet. -/
theorem calculations_eq {h : List (State g.sequenceLength × Event)} {s₀ s : State g.sequenceLength}
    (hpc : s₀.pc = .switch ∨ s₀.pc = .initialBegin) (hrun : Run (step m) s₀ h s) :
    calculations h = completedRounds h +
      if s.pc = .transposeRecovery ∨ s.pc = .average ∨ s.pc = .report ∨ s.pc = .restart then 1
      else 0 := by
  refine hrun.invariant (fun h s => calculations h = completedRounds h +
    if s.pc = .transposeRecovery ∨ s.pc = .average ∨ s.pc = .report ∨ s.pc = .restart then 1
    else 0) ?_ ?_
  · rcases hpc with hpc | hpc <;> simp [calculations, completedRounds, hpc]
  · intro h s e s' _ hI hs
    have hcase := step_cases hs
    simp only [calculations, completedRounds, List.countP_cons] at hI ⊢
    rcases hcase.main_or_interrupt with ⟨rfl, hmain⟩ | he
    · cases hmain <;> simp_all [IsProcess]
    · rw [(hcase.undisturbed he).pc]
      simpa [IsProcess, he] using hI

/-- From the beginning of any round, rounds can be run until `malloc` refuses the
memory for a result. The induction is on the memory that is left. -/
theorem exists_refused_round (htotal : g.totalFrame < g.sequenceLength) (n : ℕ)
    {h : List (State g.sequenceLength × Event)} {s : State g.sequenceLength}
    (hrun : Run (step m) (State.initial m) h s) (hs : RoundStart s)
    (hleft : s.heap.capacity - s.heap.used ≤ n) :
    ∃ h' s', Run (step m) (State.initial m) h' s' ∧ s'.pc = .calculate ∧
      s'.heap.malloc (4 * (g.sequenceLength * g.sequenceLength)) = none := by
  induction n using Nat.strong_induction_on generalizing h s with
  | _ n ih =>
    obtain ⟨t, ⟨h₁, hrun₁, -⟩, ht⟩ := round_leads (fun _ _ => 0) hrun hs
    have hcalculate := hrun.trans hrun₁
    by_cases hmalloc : t.heap.malloc (4 * (g.sequenceLength * g.sequenceLength)) = none
    · exact ⟨_, t, hcalculate, ht.pc, hmalloc⟩
    obtain ⟨t₁, t₂, t₃, hrecovered, haverage, hpc₁, hpc₂, hpc₃, hidle₃⟩ :=
      process_steps hcalculate ht hmalloc htotal
    have hprocess := hrecovered.next haverage
    obtain ⟨hrestart, hstart⟩ := restart_run (m := m) hpc₃ hidle₃
    -- The round has taken the size of the matrix, which is not zero.
    obtain ⟨hused, hcapacity⟩ := used_run hprocess
    have hone : calculations [(t₂, Event.main), (t₁, .main), (t, .main)] = 1 := by
      simp [calculations, IsProcess, hpc₁, hpc₂, ht.pc]
    have hL := Nat.mul_pos g.one_le_sequenceLength g.one_le_sequenceLength
    have hfits := t₃.heap.used_le
    rw [hone, ht.heap] at hused
    rw [ht.heap] at hcapacity
    refine ih (n - 1) (by omega) (hcalculate.trans (hprocess.trans hrestart)) hstart ?_
    dsimp only
    omega

/-- Whatever capacity suffices for start-up and the first round: at each read of
`flag` the heap holds one result more for each completed round, so no completed
round leaves the total as it was; and some run completes the first round and then
stores through the null pointer that `malloc` returned in a later one. -/
theorem rounds_consume_heap (m : Setup g) (capacity : ℕ)
    (hstart : startUp g (.empty capacity) = some m.heap)
    (hfirst : startUpBytes g + 4 * (g.sequenceLength * g.sequenceLength) ≤ capacity)
    (htotal : g.totalFrame < g.sequenceLength) :
    (∀ h s, Run (step m) (State.initial m) h s → s.pc = .switch → s.heap.used = startUpBytes g +
      4 * (g.sequenceLength * g.sequenceLength) * completedRounds h) ∧
    (∀ h s h' s', Run (step m) (State.initial m) h s → s.pc = .switch → Run (step m) s h' s' →
      s'.pc = .switch → 1 ≤ completedRounds h' → s'.heap.used ≠ s.heap.used) ∧
    ∃ h s, Run (step m) (State.initial m) h s ∧ 1 ≤ completedRounds h ∧ s.pc = .calculate ∧
      s.heap.malloc (4 * (g.sequenceLength * g.sequenceLength)) = none ∧
      mainStep m s = .error .nullPointer := by
  obtain ⟨hbytes, hcapacity⟩ := used_startUp hstart
  rw [Heap.used_empty, Nat.zero_add] at hbytes
  have hused : ∀ {h : List (State g.sequenceLength × Event)} {s : State g.sequenceLength},
      Run (step m) (State.initial m) h s → s.pc = .switch ∨ s.pc = .calculate →
      s.heap.used = startUpBytes g +
        4 * (g.sequenceLength * g.sequenceLength) * completedRounds h := by
    intro h s hrun hpc
    rw [(used_run hrun).1, calculations_eq (.inr rfl) hrun, ← hbytes]
    rcases hpc with hpc | hpc <;> simp [hpc, State.initial]
  have hL := Nat.mul_pos g.one_le_sequenceLength g.one_le_sequenceLength
  refine ⟨fun h s hrun hpc => hused hrun (.inl hpc), fun h s h' s' hrun hpc hrun' hpc' hone => ?_, ?_⟩
  · have hbefore := hused hrun (.inl hpc)
    have hafter := hused (hrun.trans hrun') (.inl hpc')
    have hsum : completedRounds (h' ++ h) = completedRounds h' + completedRounds h :=
      List.countP_append
    have hgrow := Nat.mul_le_mul_left (4 * (g.sequenceLength * g.sequenceLength)) hone
    rw [hsum, Nat.mul_add] at hafter
    omega
  · obtain ⟨s₁, ⟨h₁, hrun₁, -⟩, hround, -⟩ := first_round_leads m
    obtain ⟨h, s, hrun, hpc, hmalloc⟩ := exists_refused_round htotal _ hrun₁ hround le_rfl
    refine ⟨h, s, hrun, ?_, hpc, hmalloc, ?_⟩
    · -- The first request fits, so it is a later one that was refused.
      have hrefused := (Heap.malloc_eq_none_iff _ _).mp hmalloc
      rw [hused hrun (.inr hpc), (used_run hrun).2] at hrefused
      change m.heap.capacity < _ at hrefused
      rw [hcapacity] at hrefused
      change capacity < _ at hrefused
      by_contra hnone
      rw [Nat.lt_one_iff.mp (Nat.lt_of_not_le hnone), Nat.mul_zero, Nat.add_zero] at hrefused
      omega
    · rw [mainStep, hpc]
      exact callCalculate_of_malloc_none m hmalloc

theorem startUp_fits_orderFour : (startUp orderFour (.empty 300)).isSome = true := by
  decide +kernel

/-- Order four on a heap of 300 bytes, of which start-up leaves 233 in use. -/
def setupFourStarted : Setup orderFour :=
  { setupFour with heap := (startUp orderFour (.empty 300)).get startUp_fits_orderFour }

theorem startUp_orderFour : startUp orderFour (.empty 300) = some setupFourStarted.heap :=
  (Option.some_get startUp_fits_orderFour).symm

/-- Each result takes 36 bytes, so the second round gets no memory. -/
theorem not_every_round_gives_back :
    ¬ ∀ (g : Globals) (m : Setup g) (capacity : ℕ), startUp g (.empty capacity) = some m.heap →
      startUpBytes g + 4 * (g.sequenceLength * g.sequenceLength) ≤ capacity →
      ∀ h s, Run (step m) (State.initial m) h s → mainStep m s ≠ .error .nullPointer := by
  intro hall
  obtain ⟨h, s, hrun, hpc, hnone⟩ := exists_run_of_exec (step setupFourStarted)
    (State.initial setupFourStarted)
    (.flatten [firstRoundFour, .replicate 5 .main, [.key], .replicate 4 .main, frameFour 9 1 2 3,
      .replicate 8 .main, frameFour 9 4 5 6, .replicate 8 .main, frameFour 9 7 8 9,
      .replicate 7 .main])
    (fun _ s => s.pc = .calculate ∧ (s.heap.malloc 36).isNone) (by decide +kernel)
  refine hall _ _ 300 startUp_orderFour (by decide) h s hrun ?_
  rw [mainStep, hpc]
  exact callCalculate_of_malloc_none _ (Option.isNone_iff_eq_none.mp hnone)

theorem rounds_consume_heap_order_four :
    ∃ h s, Run (step setupFourStarted) (State.initial setupFourStarted) h s ∧
      1 ≤ completedRounds h ∧ mainStep setupFourStarted s = .error .nullPointer := by
  obtain ⟨-, -, h, s, hrun, hone, -, -, hfault⟩ := rounds_consume_heap setupFourStarted 300
    startUp_orderFour (by decide) (by decide)
  exact ⟨h, s, hrun, hone, hfault⟩

end HadamardIMS.Acquisition
