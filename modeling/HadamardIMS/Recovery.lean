import HadamardIMS.PrbsInverse
import HadamardIMS.Rounds

/-!
# Decoding a round

Row `r` of the overlap matrix is the response of the instrument to row `r` of the
sequence matrix. The pipeline multiplies its transpose by the inverse and
transposes again; that this gives the response matrix back rests on the symmetry of
the sequence matrix, and on each row having been sampled under its own sequence.
-/
namespace HadamardIMS.Acquisition

open Loops Buffers Runs Hadamard Signals Sylvester Finset

variable {g : Globals} {m : Setup g}

/-- The matrices of the setup are, cell by cell, those that `main` builds from the
Hadamard matrix of order `2 ^ k`. For `k ≤ 9` the search in `hadamard` finds `k`. -/
def BuiltFrom (k : ℕ) (m : Setup g) : Prop :=
  ∃ stale junk memory old H S W,
    hadamardWith k g.hadamardOrder stale junk memory = .ok H ∧
    constructMatrices old H = .ok (S, W) ∧
    ∀ p < g.sequenceLength * g.sequenceLength,
      m.pPrbs.cell p = S.cell p ∧ m.pPrbsTemp.cell p = W.cell p

/-- What decoding needs of the matrices: bits, and for each pair of columns their
product with the inverse. -/
structure Decodes (m : Setup g) : Prop where
  bit : ∀ r c, r < g.sequenceLength → c < g.sequenceLength →
    m.pPrbs.value (r * g.sequenceLength + c) = 0 ∨ m.pPrbs.value (r * g.sequenceLength + c) = 1
  inverse : ∀ c c', c < g.sequenceLength → c' < g.sequenceLength →
    ∑ r ∈ range g.sequenceLength, m.pPrbs.value (r * g.sequenceLength + c) *
      m.pPrbsTemp.value (r * g.sequenceLength + c') =
        if c = c' then (g.hadamardOrder : ℚ) / 256 else 0

/-- The matrices `main` builds for an order that is a power of two. -/
theorem built_decodes {k n : ℕ} (hk : 1 ≤ k) (hn : n = 2 ^ k)
    {stale : ℕ → Buffer MatrixElementType n} {junk : ℕ → ℕ → MatrixElementType}
    {memory : ℕ → MatrixElementType} {old : OldContents} {H : Buffer MatrixElementType (n * n)}
    {S W : Buffer MatrixElementType ((n - 1) * (n - 1))}
    (hH : hadamardWith k n stale junk memory = .ok H) (hSW : constructMatrices old H = .ok (S, W)) :
    (∀ r c, r < n - 1 → c < n - 1 →
      S.value (r * (n - 1) + c) = 0 ∨ S.value (r * (n - 1) + c) = 1) ∧
    ∀ c c', c < n - 1 → c' < n - 1 →
      ∑ r ∈ range (n - 1), S.value (r * (n - 1) + c) * W.value (r * (n - 1) + c') =
        if c = c' then (n : ℚ) / 256 else 0 := by
  subst hn
  obtain ⟨H', hH', hentries⟩ := hadamardWith_entries hk stale junk memory
  rw [hH'] at hH
  cases hH
  have hpair : IsSequencePair k S W := (constructMatrices_ensures old hentries).of_eq_ok hSW
  refine ⟨fun r c hr hc => ?_, fun c c' hc hc' => ?_⟩
  · rw [hpair.sequence_value hr hc]
    exact simplex_eq_or k r c
  · -- The columns of the sequence matrix are its rows.
    have hcolumn : ∀ r ∈ range (2 ^ k - 1), S.value (r * (2 ^ k - 1) + c) =
        S.value (c * (2 ^ k - 1) + r) := by
      intro r hr
      rw [hpair.sequence_value (mem_range.mp hr) hc, hpair.sequence_value hc (mem_range.mp hr),
        simplex_comm]
    rw [sum_congr rfl fun r hr => by rw [hcolumn r hr], hpair.sum_row_mul_column hc hc']
    push_cast
    rfl

/-- The matrices of `main` decode. -/
theorem BuiltFrom.decodes {k : ℕ} (hk : 1 ≤ k) (hn : g.hadamardOrder = 2 ^ k)
    (h : BuiltFrom k m) : Decodes m := by
  obtain ⟨stale, junk, memory, old, H, S, W, hH, hSW, hcells⟩ := h
  obtain ⟨hbit, hinverse⟩ := built_decodes hk hn hH hSW
  have hS : ∀ i j, i < g.sequenceLength → j < g.sequenceLength →
      m.pPrbs.value (i * g.sequenceLength + j) = S.value (i * g.sequenceLength + j) :=
    fun i j hi hj => congrArg Cell.value (hcells _ (rowMajor_lt hi hj)).1
  have hW : ∀ i j, i < g.sequenceLength → j < g.sequenceLength →
      m.pPrbsTemp.value (i * g.sequenceLength + j) = W.value (i * g.sequenceLength + j) :=
    fun i j hi hj => congrArg Cell.value (hcells _ (rowMajor_lt hi hj)).2
  constructor
  · intro r c hr hc
    rw [hS r c hr hc]
    exact hbit r c hr hc
  · intro c c' hc hc'
    rw [← hinverse c c' hc hc']
    refine sum_congr rfl fun r hr => ?_
    rw [hS r c (mem_range.mp hr) hc, hW r c' (mem_range.mp hr) hc']
    rfl

/-- What the instrument answers at time `t` to row `r`, for the response matrix `X`. -/
def response (m : Setup g) (X : ℕ → ℕ → ℕ) (r t : ℕ) : ℚ :=
  ∑ c ∈ range g.sequenceLength, m.pPrbs.value (r * g.sequenceLength + c) * X c t

/-- A frame that completes under row `r` leaves the response to row `r` in the
sample buffer, behind the sample at time zero. -/
def Responds (m : Setup g) (X : ℕ → ℕ → ℕ) (s : State g.sequenceLength) : Event → Prop
  | .complete v => ∀ r < g.sequenceLength, RowLoaded m r s.sendSequence → ∀ t < g.sequenceLength,
    (((s.convertedValue.put s.stream.next v).value (t + 1)).toNat : ℚ) = response m X r t
  | _ => True

instance (m : Setup g) (X : ℕ → ℕ → ℕ) (s : State g.sequenceLength) (e : Event) :
    Decidable (Responds m X s e) :=
  match e with
  | .complete _ => inferInstanceAs (Decidable (∀ r < _, _ → ∀ t < _, _ = _))
  | .main | .key | .sample _ => inferInstanceAs (Decidable True)

/-- Multiplying the responses by the inverse gives the response matrix back. -/
theorem sum_response_mul_inverse (hm : Decodes m) (X : ℕ → ℕ → ℕ) (t : ℕ) {c : ℕ}
    (hc : c < g.sequenceLength) :
    ∑ r ∈ range g.sequenceLength, response m X r t * m.pPrbsTemp.value (r * g.sequenceLength + c) =
      (g.hadamardOrder : ℚ) / 256 * X c t := by
  calc ∑ r ∈ range g.sequenceLength, response m X r t *
        m.pPrbsTemp.value (r * g.sequenceLength + c)
      = ∑ c' ∈ range g.sequenceLength, (∑ r ∈ range g.sequenceLength,
          m.pPrbs.value (r * g.sequenceLength + c') *
            m.pPrbsTemp.value (r * g.sequenceLength + c)) * X c' t := by
        simp only [response, sum_mul]
        rw [sum_comm]
        exact sum_congr rfl fun _ _ => sum_congr rfl fun _ _ => by ring
    _ = ∑ c' ∈ range g.sequenceLength,
          (if c' = c then (g.hadamardOrder : ℚ) / 256 else 0) * X c' t :=
        sum_congr rfl fun c' hc' => by rw [hm.inverse c' c (mem_range.mp hc') hc]
    _ = (g.hadamardOrder : ℚ) / 256 * X c t := by
        simp only [ite_mul, zero_mul, sum_ite_eq', mem_range, if_pos hc]

/-- The key is not pressed while the frames of a round are collected. -/
def NoKey {L : ℕ} (s : State L) (e : Event) : Prop := s.frameCount ≤ L → e ≠ .key

/-- Without the key `case 0` runs once, at the beginning of the round. -/
structure Keyless {L : ℕ} (s : State L) : Prop where
  start : s.pc = .switch ∧ s.flag = 0 ∨ s.pc = .startReset ∨ s.pc = .startLoad →
    s.frameCount = 1 ∧ Quiet s
  flag : s.frameCount ≤ L → s.pc ≠ .switch → s.pc ≠ .startReset → s.flag ≠ 0
  count : 1 ≤ s.frameCount
  later : s.pc = .firstTest → 2 ≤ s.frameCount

theorem Keyless.main {s s' : State g.sequenceLength} (hI : Keyless s)
    {h₀ h : List (State g.sequenceLength × Event)} (hbook : Bookkept h₀ s) (hpaired : Paired m h s)
    (hs : MainCase m s s') : Keyless s' := by
  obtain ⟨hstart, hflag, hcount, hlater⟩ := hI
  have hrange := hbook.frameCount
  cases hs
  case switchStart hpc hzero =>
    obtain ⟨hone, hquiet⟩ := hstart (.inl ⟨hpc, hzero⟩)
    exact ⟨fun _ => ⟨hone, hquiet.idle, hquiet.flag⟩, fun _ _ h => absurd rfl h, hcount, by simp⟩
  case startReset hpc =>
    obtain ⟨hone, hquiet⟩ := hstart (.inr (.inl hpc))
    exact ⟨fun _ => ⟨hone, hquiet.idle, by simp⟩, fun _ _ _ => by simp, hcount, by simp⟩
  case firstFrame hpc hone =>
    have := hlater hpc
    omega
  case doneCount hpc =>
    rw [hpc] at hrange
    have hne := hflag hrange (by simp [hpc]) (by simp [hpc])
    exact ⟨by simp, fun _ _ _ => hne, by simp, fun _ => by dsimp only; omega⟩
  case roundOpen hpc hopen =>
    rw [hpc] at hrange
    have hne := hflag (by have := hrange.2; omega) (by simp [hpc]) (by simp [hpc])
    exact ⟨by simp [hne], fun _ h => absurd rfl h, hcount, by simp⟩
  case restart hpc =>
    -- A press of the key during the processing of the round starts the next one.
    simp only [Paired, hpc] at hpaired
    exact ⟨fun _ => ⟨rfl, hpaired.idle, hpaired.flag⟩, fun _ h => absurd rfl h, le_rfl, by simp⟩
  case initialBegin hpc =>
    rw [hpc] at hrange
    exact absurd hcount (Nat.not_le.mpr (Nat.lt_one_iff.mpr hrange))
  case switchDone hpc htwo =>
    exact ⟨by simp, fun _ _ _ => by simp [htwo], hcount, by simp⟩
  case switchIdle hpc hne _ => exact ⟨by simp [hne], fun _ h => absurd rfl h, hcount, by simp⟩
  case startBegin hpc =>
    rw [hpc] at hrange
    have hne := hflag hrange (by simp [hpc]) (by simp [hpc])
    exact ⟨by simp [hne], fun _ h => absurd rfl h, hcount, by simp⟩
  case doneReset hpc => exact ⟨by simp, fun _ _ _ => by simp, hcount, by simp⟩
  -- The other steps keep the flag, and lead neither to the switch nor to the reset.
  all_goals
    refine ⟨by simp, fun hle _ _ => hflag hle ?_ ?_, hcount, by simp⟩
    · simp [‹s.pc = _›]
    · simp [‹s.pc = _›]

/-- A completion needs a frame on its way, and the key is not read before the next
round. -/
theorem Keyless.interrupt {s s' : State g.sequenceLength} (hI : Keyless s)
    {h₀ : List (State g.sequenceLength × Event)} (hbook : Bookkept h₀ s) {e : Event}
    (hs : StepCase m s e s') (he : e ≠ .main) (hkey : NoKey s e) : Keyless s' := by
  cases hs with
  | main => exact absurd rfl he
  | key =>
    have hlate : ¬s.frameCount ≤ g.sequenceLength := fun hle => hkey hle rfl
    have hrange := hbook.frameCount
    refine ⟨fun h => ?_, fun hle => absurd hle hlate, hI.count, hI.later⟩
    have hpc : s.pc = .switch ∨ s.pc = .startReset ∨ s.pc = .startLoad := h.imp_left And.left
    rcases hpc with hpc | hpc | hpc <;> rw [hpc] at hrange <;> exact absurd hrange hlate
  | sample v hen =>
    exact ⟨fun h => absurd hen (by simp [(hI.start h).2.idle]), hI.flag, hI.count, hI.later⟩
  | complete v hen =>
    refine ⟨fun h => ?_, fun _ _ _ => by simp, hI.count, hI.later⟩
    rcases h with h | h
    · cases h.2
    · exact absurd hen (by simp [(hI.start (.inr h)).2.idle])

theorem Keyless.step {s s' : State g.sequenceLength} (hI : Keyless s)
    {h₀ h : List (State g.sequenceLength × Event)} (hbook : Bookkept h₀ s) (hpaired : Paired m h s)
    {e : Event} (hs : StepCase m s e s') (hkey : NoKey s e) : Keyless s' := by
  rcases hs.main_or_interrupt with ⟨rfl, hmain⟩ | he
  · exact hI.main hbook hpaired hmain
  · exact hI.interrupt hbook hs he hkey

/-- The frame in the buffer at this store is the response to the row it becomes. -/
def StoresResponse (m : Setup g) (X : ℕ → ℕ → ℕ) (t : State g.sequenceLength) : Prop :=
  ∀ i < g.sequenceLength,
    ((t.convertedValue.value (i + 1)).toNat : ℚ) = response m X (storeRow t) i

/-- `pRecoverySignal` holds the response matrix times `n / 256`, for the shipped order
the response matrix itself. -/
def HoldsResponse (g : Globals) (X : ℕ → ℕ → ℕ) (s : State g.sequenceLength) : Prop :=
  ∀ c t, c < g.sequenceLength → t < g.sequenceLength →
    s.pRecoverySignal.cell (c * g.sequenceLength + t) =
      .set ((g.hadamardOrder : ℚ) / 256 * X c t) ∧
    (g.hadamardOrder = 256 →
      s.pRecoverySignal.cell (c * g.sequenceLength + t) = .set (X c t : ℚ))

/-- The invariant of a round with history `h` that follows on `h₀`: the rows stored
so far are responses, and behind `calculate` the response matrix is there, first
transposed and then as it is. -/
structure Recovering (m : Setup g) (X : ℕ → ℕ → ℕ) (h₀ h : List (State g.sequenceLength × Event))
    (s : State g.sequenceLength) : Prop where
  book : Bookkept (h ++ h₀) s
  paired : Paired m h s
  keyless : Keyless s
  responds : ∀ p ∈ h, Responds m X p.1 p.2
  stores : ∀ t ∈ roundStores (h ++ h₀), StoresResponse m X t
  transposed : s.pc = .transposeRecovery → ∀ t c, t < g.sequenceLength → c < g.sequenceLength →
    s.pRecoverySignal.cell (t * g.sequenceLength + c) = .set ((g.hadamardOrder : ℚ) / 256 * X c t)
  recovered : s.pc = .average → ∀ c t, c < g.sequenceLength → t < g.sequenceLength →
    s.pRecoverySignal.cell (c * g.sequenceLength + t) = .set ((g.hadamardOrder : ℚ) / 256 * X c t)

namespace Recovering

variable {X : ℕ → ℕ → ℕ} {h₀ h : List (State g.sequenceLength × Event)}
  {s s' : State g.sequenceLength}

/-- At a store the buffer is as the completion of a frame of that row left it. -/
theorem storesResponse (hI : Recovering m X h₀ h s) (hst : IsStore s .main) :
    StoresResponse m X s := by
  have hrow : storeRow s < g.sequenceLength := by
    obtain ⟨hlow, hhigh⟩ := hst.range
    unfold storeRow
    omega
  obtain ⟨after, last, v, during, start, before, hh, -, hloaded, -, hvalues, -⟩ :=
    hI.paired.store hst
  intro i hi
  rw [hvalues]
  exact hI.responds (last, .complete v) (by rw [hh]; simp) _ hrow hloaded i hi

theorem stores_step (hI : Recovering m X h₀ h s) (e : Event) :
    ∀ t ∈ roundStores ((s, e) :: h ++ h₀), StoresResponse m X t := by
  intro t ht
  rw [List.cons_append, roundStores] at ht
  split_ifs at ht with hprocess hst
  · cases ht
  · rcases List.mem_append.mp ht with ht | ht
    · exact hI.stores t ht
    · rw [List.mem_singleton.mp ht]
      exact hI.storesResponse (hst.1 ▸ hst)
  · exact hI.stores t ht

/-- The call of `calculate` recovers the transposed response matrix. -/
theorem transposed_main (hm : Decodes m) (hI : Recovering m X h₀ h s) (hs : MainCase m s s') :
    s'.pc = .transposeRecovery → ∀ t c, t < g.sequenceLength → c < g.sequenceLength →
      s'.pRecoverySignal.cell (t * g.sequenceLength + c) =
        .set ((g.hadamardOrder : ℚ) / 256 * X c t) := by
  intro hpc'
  cases hs
  case calculate R hpc hmalloc hcalculate =>
    obtain ⟨r, hr, hstores⟩ := (calculate_ensures _ (hI.book.overlap_assigned (.inr hpc))
      m.pPrbsTemp_assigned).of_eq_ok hcalculate
    cases hr
    have hoverlap : ∀ t k, t < g.sequenceLength → k < g.sequenceLength →
        s.pOverlapSignal.value (t * g.sequenceLength + k) = response m X k t := by
      intro t k ht hk
      have hrows : k < storedRows g.sequenceLength s.pc s.frameCount := by rwa [hpc]
      obtain ⟨u, hu, hrow⟩ := hI.book.exists_store hrows
      have hcell := hI.book.contents k u hu t ht
      rw [overlapCell, if_pos hpc] at hcell
      rw [Buffer.value, hcell, ← hrow]
      exact hI.stores u (List.mem_of_getElem? hu) t ht
    intro t c ht hc
    have hvalue := hstores _ (rowMajor_lt ht hc)
    simp only [rowMajor_div hc, rowMajor_mod hc] at hvalue
    rw [hvalue, ← sum_response_mul_inverse hm X t hc]
    congr 1
    refine sum_congr rfl fun k hk => ?_
    rw [hoverlap t k ht (mem_range.mp hk)]
  all_goals simp at hpc'

theorem recovered_main (hI : Recovering m X h₀ h s) (hs : MainCase m s s') :
    s'.pc = .average → ∀ c t, c < g.sequenceLength → t < g.sequenceLength →
      s'.pRecoverySignal.cell (c * g.sequenceLength + t) =
        .set ((g.hadamardOrder : ℚ) / 256 * X c t) := by
  intro hpc'
  cases hs
  case transposeRecovery hpc htranspose =>
    have hcells := (transposingMatrix_square (hI.book.recovery (.inl hpc))).of_eq_ok htranspose
    intro c t hc ht
    rw [hcells.2 c t hc ht, hI.transposed hpc t c ht hc]
  all_goals simp at hpc'

/-- The step lemma. -/
theorem step (hm : Decodes m) (hI : Recovering m X h₀ h s) {e : Event} (hs : StepCase m s e s')
    (hkey : NoKey s e) (hresponds : Responds m X s e) : Recovering m X h₀ ((s, e) :: h) s' := by
  have hguard : StartsInOrder s e := fun _ hpc => .inr (hI.keyless.start (.inr (.inr hpc)))
  refine ⟨hI.book.step hs, hI.paired.step hI.book hs hguard,
    hI.keyless.step hI.book hI.paired hs hkey,
    List.forall_mem_cons.mpr ⟨hresponds, hI.responds⟩, hI.stores_step e, ?_, ?_⟩
  · rcases hs.main_or_interrupt with ⟨rfl, hmain⟩ | he
    · exact hI.transposed_main hm hmain
    · have hsame := hs.undisturbed he
      rw [hsame.pc, hsame.recovery]
      exact hI.transposed
  · rcases hs.main_or_interrupt with ⟨rfl, hmain⟩ | he
    · exact hI.recovered_main hmain
    · have hsame := hs.undisturbed he
      rw [hsame.pc, hsame.recovery]
      exact hI.recovered

/-- A round begins with no row stored and nothing recovered. -/
theorem start (hbook : Bookkept h₀ s) (hs : RoundStart s) : Recovering m X h₀ [] s where
  book := hbook
  paired := by
    rw [Paired, hs.pc]
    exact .inr ⟨hs.frameCount.ge, fun hen => absurd hen (by simp [hs.idle]),
      fun hflag => absurd hflag (by simp [hs.flag])⟩
  keyless := ⟨fun _ => ⟨hs.frameCount, hs.idle, by simp [hs.flag]⟩, fun _ h => absurd hs.pc h,
    hs.frameCount.ge, fun h => absurd h (by simp [hs.pc])⟩
  responds := by simp
  stores := by
    have hlength := hbook.length_roundStores
    rw [hs.pc, hs.frameCount] at hlength
    have hnil : roundStores h₀ = [] := List.eq_nil_of_length_eq_zero hlength
    simp [hnil]
  transposed := fun h => absurd h (by simp [hs.pc])
  recovered := fun h => absurd h (by simp [hs.pc])

/-- The run lemma. -/
theorem of_run (hm : Decodes m) (hbook : Bookkept h₀ s) (hs : RoundStart s)
    (hrun : Run (Acquisition.step m) s h s')
    (hround : ∀ p ∈ h, NoKey p.1 p.2 ∧ Responds m X p.1 p.2) : Recovering m X h₀ h s' :=
  hrun.invariant_of_guarded (Recovering m X h₀) (fun s e => NoKey s e ∧ Responds m X s e)
    (start hbook hs) (fun _ _ _ _ _ hI hG hs => hI.step hm (step_cases hs) hG.1 hG.2) hround

/-- What the round leaves for `getAverageSignal`. -/
theorem holdsResponse (hI : Recovering m X h₀ h s) (hpc : s.pc = .average) :
    HoldsResponse g X s := by
  intro c t hc ht
  have hcell := hI.recovered hpc c t hc ht
  refine ⟨hcell, fun hshipped => ?_⟩
  rw [hcell, hshipped]
  norm_num

end Recovering

/-! ## Rounds that respond -/

/-- A response matrix with a single entry. -/
def peak (a b v c t : ℕ) : ℕ := if c = a ∧ t = b then v else 0

theorem response_peak {a : ℕ} (ha : a < g.sequenceLength) (b v r t : ℕ) :
    response m (peak a b v) r t =
      if t = b then m.pPrbs.value (r * g.sequenceLength + a) * v else 0 := by
  unfold response peak
  by_cases ht : t = b
  · simp [ht, ha]
  · simp [ht]

/-- Two rows with the same bits have the same response. -/
theorem response_congr (hm : Decodes m) (X : ℕ → ℕ → ℕ) {r r' : ℕ} (hr : r < g.sequenceLength)
    (hr' : r' < g.sequenceLength) {b : Buffer UInt8 g.sequenceLength} (hb : RowLoaded m r b)
    (hb' : RowLoaded m r' b) (t : ℕ) : response m X r t = response m X r' t := by
  refine sum_congr rfl fun c hc => ?_
  have hc := mem_range.mp hc
  have hbit : sendBit (m.pPrbs.value (r * g.sequenceLength + c)) =
      sendBit (m.pPrbs.value (r' * g.sequenceLength + c)) :=
    Cell.set.inj ((hb c hc).symm.trans (hb' c hc))
  congr 1
  have hne : sendBit 0 ≠ sendBit 1 := by decide +kernel
  rcases hm.bit r c hr hc with h | h
  · rcases hm.bit r' c hr' hc with h' | h'
    · rw [h, h']
    · rw [h, h'] at hbit
      exact absurd hbit hne
  · rcases hm.bit r' c hr' hc with h' | h'
    · rw [h, h'] at hbit
      exact absurd hbit.symm hne
    · rw [h, h']

/-- From the beginning of any round there is a run in which the instrument responds
to a single entry. -/
theorem exists_responding_round (hm : Decodes m) {a b v : ℕ} (ha : a < g.sequenceLength)
    (hv : v < 65536) {h₀ : List (State g.sequenceLength × Event)} {s : State g.sequenceLength}
    (hrun : Run (step m) (State.initial m) h₀ s) (hs : RoundStart s) :
    ∃ h s', Run (step m) s h s' ∧ RoundCollected s s' ∧
      ∀ p ∈ h, p.2 ≠ .key ∧ Responds m (peak a b v) p.1 p.2 ∧ Unprocessed p.1 p.2 := by
  let samples : ℕ → ℕ → UInt16 := fun r i =>
    if i = b + 1 ∧ m.pPrbs.value (r * g.sequenceLength + a) = 1 then UInt16.ofNat v else 0
  have hsamples : ∀ r t, r < g.sequenceLength →
      ((samples r (t + 1)).toNat : ℚ) = response m (peak a b v) r t := by
    intro r t hr
    rw [response_peak ha]
    simp only [samples, Nat.add_right_cancel_iff]
    by_cases ht : t = b
    · rcases hm.bit r a hr ha with hbit | hbit
      · simp [ht, hbit]
      · simpa [ht, hbit] using hv
    · simp [ht]
  obtain ⟨s', ⟨h, hround, hcollects⟩, hcollected⟩ := round_leads samples hrun hs
  refine ⟨h, s', hround, hcollected, fun p hp => ⟨(hcollects p hp).noKey, ?_,
    (hcollects p hp).unprocessed⟩⟩
  obtain ⟨u, e⟩ := p
  cases e with
  | complete w =>
    obtain ⟨r, hr, hloaded, hframe⟩ := (hcollects _ hp).frame w rfl
    intro r' hr' hloaded' t ht
    rw [hframe (t + 1) (by omega), hsamples r t hr, response_congr hm _ hr hr' hloaded hloaded']
  | _ => trivial

/-- Steps of `main` are neither presses of the key nor completions. -/
theorem responds_of_main {X : ℕ → ℕ → ℕ} {s : State g.sequenceLength} {e : Event}
    (he : e = .main) : NoKey s e ∧ Responds m X s e := by
  subst he
  exact ⟨fun _ => Event.noConfusion, trivial⟩

/-- A collected round, and the two steps of `main` that recover the matrix. -/
theorem responds_of_processed {X : ℕ → ℕ → ℕ} {h : List (State g.sequenceLength × Event)}
    (hall : ∀ p ∈ h, p.2 ≠ .key ∧ Responds m X p.1 p.2 ∧ Unprocessed p.1 p.2)
    (t u : State g.sequenceLength) :
    ∀ p ∈ [(t, Event.main), (u, .main)] ++ h, NoKey p.1 p.2 ∧ Responds m X p.1 p.2 := by
  intro p hp
  rcases List.mem_append.mp hp with hp | hp
  · rcases List.mem_pair.mp hp with rfl | rfl <;> exact responds_of_main rfl
  · exact ⟨fun _ => (hall p hp).1, (hall p hp).2.1⟩

/-- For each order that is a power of two there is a setup with the matrices that
`main` builds, on any heap. -/
theorem exists_built (g : Globals) {k : ℕ} (hk : 1 ≤ k) (hn : g.hadamardOrder = 2 ^ k)
    (heap : Heaps.Heap) : ∃ m : Setup g, BuiltFrom k m ∧ m.heap = heap := by
  have hbuilt : ∀ n, n = 2 ^ k → ∃ (H : Buffer MatrixElementType (n * n))
      (S W : Buffer MatrixElementType ((n - 1) * (n - 1))),
      hadamardWith k n (fun _ => .fill _ 0) (fun _ _ => 0) (fun _ => 0) = .ok H ∧
      constructMatrices ⟨fun _ => 0, fun _ => 0⟩ H = .ok (S, W) ∧ S.Assigned ∧ W.Assigned := by
    rintro n rfl
    obtain ⟨H, hH, hentries⟩ := hadamardWith_entries hk (fun _ => .fill _ 0) (fun _ _ => 0)
      (fun _ => 0)
    obtain ⟨⟨S, W⟩, hSW, hpair⟩ := constructMatrices_ensures ⟨fun _ => 0, fun _ => 0⟩ hentries
    exact ⟨H, S, W, hH, hSW, hpair.sequence_assigned, hpair.inverse_assigned⟩
  obtain ⟨H, S, W, hH, hSW, hS, hW⟩ := hbuilt _ hn
  exact ⟨⟨S, W, hS, hW, fun _ => 0, fun _ _ => 0, heap⟩,
    ⟨_, _, _, _, H, S, W, hH, hSW, fun _ _ => ⟨rfl, rfl⟩⟩, rfl⟩

/-- End to end: in a round that begins with no frame on its way and in which the
key is not pressed until all frames are collected, after any earlier rounds, if each
completed frame leaves the response to the row that was loaded, then what `main`
hands to `getAverageSignal` is the response matrix times `n / 256`. Once the last frame
has been counted, `main` does get there if `calculate` gets memory for its result. -/
theorem pRecoverySignal_eq_response {k : ℕ} (hk : 1 ≤ k) (m : Setup g)
    (hn : g.hadamardOrder = 2 ^ k) (hbuilt : BuiltFrom k m) (X : ℕ → ℕ → ℕ)
    {h₀ h : List (State g.sequenceLength × Event)} {s s' : State g.sequenceLength}
    (hearlier : Run (step m) (State.initial m) h₀ s) (hstart : RoundStart s)
    (hround : Run (step m) s h s') (hkey : ∀ p ∈ h, p.1.frameCount ≤ g.sequenceLength → p.2 ≠ .key)
    (hresponds : ∀ p ∈ h, Responds m X p.1 p.2) :
    (s'.pc = .average → HoldsResponse g X s') ∧
    (s'.pc = .firstTest → s'.frameCount = g.sequenceLength + 1 →
      s'.heap.malloc (4 * (g.sequenceLength * g.sequenceLength)) ≠ none →
      ∃ t, Leads (step m) (fun _ e => e = .main) s' t ∧ t.pc = .average ∧ HoldsResponse g X t) := by
  have hm := hbuilt.decodes hk hn
  have hguarded : ∀ p ∈ h, NoKey p.1 p.2 ∧ Responds m X p.1 p.2 :=
    fun p hp => ⟨hkey p hp, hresponds p hp⟩
  refine ⟨(Recovering.of_run hm (Bookkept.of_run hearlier) hstart hround hguarded).holdsResponse,
    fun hpc hcount hmalloc => ?_⟩
  obtain ⟨t, ⟨l, hprocess, hmain⟩, haverage⟩ := processing_leads (hearlier.trans hround)
    (show stepsToAverage s'.pc = some 6 by rw [hpc]; rfl) hcount fun _ => hmalloc
  have hI := Recovering.of_run hm (Bookkept.of_run hearlier) hstart (hround.trans hprocess)
    fun p hp => (List.mem_append.mp hp).elim (fun hp => responds_of_main (hmain p hp)) (hguarded p)
  exact ⟨t, ⟨l, hprocess, hmain⟩, haverage, hI.holdsResponse haverage⟩

/-- The matrices of order four are the ones the code builds. -/
theorem builtFrom_setupFour : BuiltFrom 2 setupFour := by
  obtain ⟨H, hH, hentries⟩ := hadamardWith_entries (k := 2) (by decide) (fun _ => .fill _ 0)
    (fun _ _ => 0) (fun _ => 0)
  obtain ⟨⟨S, W⟩, hSW, hpair⟩ := constructMatrices_ensures ⟨fun _ => 0, fun _ => 0⟩ hentries
  have hfour : ∀ i < 3, ∀ j < 3, setupFour.pPrbs.cell (i * 3 + j) = .set (simplex ℚ 2 i j) ∧
      setupFour.pPrbsTemp.cell (i * 3 + j) = .set (-sylvester ℚ 2 (j + 1) (i + 1) / 128) := by
    decide +kernel
  refine ⟨_, _, _, _, H, S, W, hH, hSW, forall_of_rowMajor fun i j hi hj => ?_⟩
  exact ⟨(hfour i hi j hj).1.trans (hpair.sequence_entry i j hi hj).symm,
    (hfour i hi j hj).2.trans (hpair.inverse_entry i j hi hj).symm⟩

/-- Both restrictions are needed. For order 1024 the search in `hadamard` ends
without a match. And a round may begin while a frame is on its way, after a bounce of
the key: it completes before `case 0` calls `beginSample`, so that `main` is one frame
ahead of the stream from then on. Each frame of this run has one row loaded from its
start to its completion and leaves the response to it, but is stored one row late. -/
theorem not_recovered_from_every_round :
    hadamard (2 ^ 10) (fun _ => .fill _ 0) (fun _ _ => 0) (fun _ => 0) = .error .unassigned ∧
    ¬ ∀ (g : Globals) (k : ℕ) (m : Setup g) (X : ℕ → ℕ → ℕ)
      (h₀ h : List (State g.sequenceLength × Event)) (s s' : State g.sequenceLength),
      1 ≤ k → g.hadamardOrder = 2 ^ k → BuiltFrom k m → Run (step m) (State.initial m) h₀ s →
      s.pc = .switch → s.flag = 0 → s.frameCount = 1 → Run (step m) s h s' →
      (∀ p ∈ h, p.2 ≠ .key) → (∀ p ∈ h, Responds m X p.1 p.2) → s'.pc = .average →
      ∀ c t, c < g.sequenceLength → t < g.sequenceLength →
        s'.pRecoverySignal.cell (c * g.sequenceLength + t) = .set ((2 ^ k : ℚ) / 256 * X c t) := by
  refine ⟨rfl, fun hall => ?_⟩
  obtain ⟨h₀, s, h, s', hrun, hround, ⟨hpc, hflag, hcount⟩, hkey, hresponds, haverage, hwrong⟩ :=
    exists_runs_of_exec (step setupFour) (State.initial setupFour)
      (.flatten [[.main], frameFour 0 0 0 0, .replicate 10 .main, [.key]])
      (.flatten [.replicate 2 .main, frameFour 0 0 0 0, .replicate 7 .main, frameFour 0 0 0 0,
        .replicate 8 .main, frameFour 0 1 0 0, .replicate 9 .main, frameFour 0 1 0 0,
        .replicate 3 .main])
      (fun _ s h s' => (s.pc = .switch ∧ s.flag = 0 ∧ s.frameCount = 1) ∧ (∀ p ∈ h, p.2 ≠ .key) ∧
        (∀ p ∈ h, Responds setupFour (peak 1 0 1) p.1 p.2) ∧ s'.pc = .average ∧
        s'.pRecoverySignal.cell 0 ≠ .set 0) (by decide +kernel)
  have hcell := hall _ 2 setupFour (peak 1 0 1) h₀ h s s' (by decide) rfl builtFrom_setupFour hrun hpc
    hflag hcount hround hkey hresponds haverage 0 0 (by decide) (by decide)
  exact hwrong (by simpa [peak] using hcell)

/-- The shipped order: a peak is recovered exactly. -/
theorem pRecoverySignal_eq_response_shipped :
    ∃ (m : Setup Globals.shipped) (h : List (State Globals.shipped.sequenceLength × Event))
      (s : State Globals.shipped.sequenceLength), Run (step m) (State.initial m) h s ∧
      s.pc = .average ∧ s.pRecoverySignal.cell (7 * 255 + 9) = .set 46 := by
  obtain ⟨m, hbuilt, hheap⟩ := exists_built .shipped (k := 8) (by decide) rfl (.empty 1000000)
  obtain ⟨s₁, ⟨h₁, hfirst, -⟩, hstart, hsame⟩ := first_round_leads m
  obtain ⟨h₂, s₂, hround, hcollected, hall⟩ := exists_responding_round
    (hbuilt.decodes (by decide) rfl) (a := 7) (b := 9) (v := 46) (by decide) (by decide) hfirst hstart
  have hmalloc : s₂.heap.malloc (4 * (Globals.shipped.sequenceLength *
      Globals.shipped.sequenceLength)) ≠ none := by
    rw [hcollected.heap, hsame, hheap]
    decide
  obtain ⟨t₁, t₂, t₃, hrecovered, -, -, hpc₂, -⟩ := process_steps (hfirst.trans hround) hcollected
    hmalloc (by decide)
  have hsteps := responds_of_processed hall t₁ s₂
  have hcell := pRecoverySignal_eq_response (by decide) m rfl hbuilt (peak 7 9 46) hfirst hstart
    (hround.trans hrecovered) (fun p hp => (hsteps p hp).1) (fun p hp => (hsteps p hp).2)
  exact ⟨m, _, t₂, hfirst.trans (hround.trans hrecovered), hpc₂,
    (hcell.1 hpc₂ 7 9 (by decide) (by decide)).2 rfl⟩

end HadamardIMS.Acquisition
