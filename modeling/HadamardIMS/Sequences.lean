import HadamardIMS.Buffers
import HadamardIMS.ShiftRegisters

/-!
# The sequence generator of `sequence.c`

`createSequence` runs a feedback shift register in three blocks of bytes: the
sequence, the registers and the positions of the coefficients that are one. Above it
the source quotes the program it follows; here that is `sequenceProduct`.
-/
namespace HadamardIMS.Sequences

open Loops Buffers ShiftRegisters Finset

/-- What the three blocks that `createSequence` allocates held before. -/
structure OldBytes where
  seq : ℕ → UInt8
  registers : ℕ → UInt8
  onePosition : ℕ → UInt8

/-- `int len = pow(2,initNumber)-1`; past the range of `int` the conversion leaves no
value. -/
def sequenceLen (initNumber : ℕ) : Except Fault ℕ :=
  if 2 ^ initNumber - 1 < 2 ^ 31 then .ok (2 ^ initNumber - 1) else .error .unassigned

/-- The loop that adds up the coefficients. -/
def countOnes {initNumber : ℕ} (initial : Buffer UInt8 initNumber) : Except Fault ℕ :=
  forRange 0 initNumber (fun i sum => do
    let x ← initial.read i
    pure (sum + x.toNat)) 0

/-- The loop that stores the positions of the ones, with `countPosition`. -/
def storePositions {initNumber sum : ℕ} (initial : Buffer UInt8 initNumber)
    (onePosition : Buffer UInt8 sum) : Except Fault (Buffer UInt8 sum × ℕ) :=
  forRange 0 initNumber (fun i p => do
    let x ← initial.read i
    if x = 1 then do
      let onePosition ← p.1.write p.2 (UInt8.ofNat i)
      pure (onePosition, p.2 + 1)
    else pure p) (onePosition, 0)

/-- The variables that the loop over `i` carries along. -/
structure Locals (len initNumber : ℕ) where
  seq : Buffer UInt8 len
  registers : Buffer UInt8 initNumber
  xorResult : ℕ

/-- The loop over the positions of the ones. -/
def xorRegisters {initNumber sum : ℕ} (onePosition : Buffer UInt8 sum)
    (registers : Buffer UInt8 initNumber) (xorResult : ℕ) : Except Fault ℕ :=
  forRange 0 sum (fun j xorResult => do
    let position ← onePosition.peek j
    let x ← registers.peek position.toNat
    pure (xorResult ^^^ x.toNat)) xorResult

/-- The backward loop. -/
def shiftRegisters {initNumber : ℕ} (registers : Buffer UInt8 initNumber) :
    Except Fault (Buffer UInt8 initNumber) :=
  forDown (initNumber - 1) 1 (fun j registers => do
    let x ← registers.peek (j - 1)
    registers.write j x) registers

/-- One pass of the loop over `i`. -/
def sequencePass {len initNumber sum : ℕ} (onePosition : Buffer UInt8 sum) (i : ℕ)
    (p : Locals len initNumber) : Except Fault (Locals len initNumber) := do
  let last ← p.registers.peek (initNumber - 1)
  let seq ← p.seq.write i last
  let first_element ← p.registers.peek 0
  let xorResult ← xorRegisters onePosition p.registers p.xorResult
  let registers ← p.registers.write 0 (UInt8.ofNat xorResult)
  let registers ← shiftRegisters registers
  let registers ← registers.write 1 first_element
  pure ⟨seq, registers, 0⟩

/-- `createSequence`. Each `memset` has the size of a single byte. -/
def createSequence (old : OldBytes) {initNumber : ℕ} (initial : Buffer UInt8 initNumber) :
    Except Fault (Buffer UInt8 (2 ^ initNumber - 1)) := do
  let len ← sequenceLen initNumber
  let seq := Buffer.malloc (2 ^ initNumber - 1) old.seq
  let registers := Buffer.malloc initNumber old.registers
  let registers ← registers.memset 0 1
  let seq ← seq.memset 0 1
  let registers ← registers.write 0 1
  let registers ← registers.write (initNumber - 1) 1
  let sum ← countOnes initial
  let onePosition := Buffer.malloc sum old.onePosition
  let onePosition ← onePosition.memset 0 1
  let (onePosition, _) ← storePositions initial onePosition
  let p ← forRange 0 len (sequencePass onePosition) ⟨seq, registers, 0⟩
  pure p.seq

/-! ## The loops -/

/-- The coefficient vector, with the range of `initNumber` that `createSequence` serves. -/
structure Coefficients (m : ℕ) where
  coef : ℕ → UInt8
  bit : ∀ j < m, coef j = 0 ∨ coef j = 1
  two_le : 2 ≤ m
  len_lt : 2 ^ m - 1 < 2 ^ 31
  exists_one : ∃ j < m, coef j = 1

namespace Coefficients

variable {m : ℕ} (c : Coefficients m)

/-- The positions of the ones below `i`, in increasing order. -/
def positions (i : ℕ) : List ℕ := (List.range i).filter fun j => c.coef j = 1

/-- The registers that are fed back. -/
def taps : Finset ℕ := {j ∈ range m | c.coef j = 1}

theorem positions_succ (i : ℕ) :
    c.positions (i + 1) = c.positions i ++ if c.coef i = 1 then [i] else [] := by
  rw [positions, List.range_succ, List.filter_append, ← positions]
  by_cases h : c.coef i = 1
  · simp [h]
  · simp [h]

theorem lt_of_mem_positions {i j : ℕ} (hj : j ∈ c.positions i) : j < i := by
  rw [positions, List.mem_filter, List.mem_range] at hj
  exact hj.1

theorem lt_of_mem_taps {j : ℕ} (hj : j ∈ c.taps) : j < m := by
  rw [taps, mem_filter, mem_range] at hj
  exact hj.1

/-- What is fed back: the sum modulo two, bit by bit, of the registers at the taps. -/
def feedback (r : ℕ → UInt8) : UInt8 := linear (fun x y : UInt8 => x ^^^ y) 0 c.taps r

/-- The order in which the code visits the taps does not matter. -/
theorem foldl_positions (r : ℕ → UInt8) :
    (c.positions m).foldl (fun x j => x ^^^ r j) 0 = c.feedback r := by
  have hcoe : c.taps.val = (c.positions m : Multiset ℕ) := by
    simp [taps, positions, Multiset.range]
  rw [feedback, linear, Finset.fold, hcoe, Multiset.map_coe, Multiset.coe_fold_l, List.foldl_map]

/-- A one at `i` is the next position after those below `i`. -/
theorem positions_split {i : ℕ} (hi : i < m) (h : c.coef i = 1) :
    ∃ rest, c.positions m = c.positions i ++ i :: rest := by
  obtain ⟨k, rfl⟩ : ∃ k, m = i + 1 + k := ⟨m - (i + 1), by omega⟩
  refine ⟨((List.range k).map (i + 1 + ·)).filter fun j => c.coef j = 1, ?_⟩
  rw [positions, List.range_add, List.filter_append, ← positions, c.positions_succ, if_pos h,
    List.append_assoc, List.singleton_append]

/-- Positions fit in a byte. -/
theorem length_lt (c : Coefficients m) : m < 32 := by
  by_contra h
  have := Nat.pow_le_pow_right (show 0 < 2 by omega) (show 32 ≤ m by omega)
  have := c.len_lt
  omega

end Coefficients

/-- The block that holds the coefficients. -/
def Coefficients.vector {m : ℕ} (c : Coefficients m) : Buffer UInt8 m := ⟨fun j => .set (c.coef j)⟩

theorem Coefficients.vector_stores {m : ℕ} (c : Coefficients m) : c.vector.Stores c.coef :=
  fun _ _ => rfl

variable {m : ℕ} {c : Coefficients m} {initial : Buffer UInt8 m}

theorem countOnes_ensures (hinitial : initial.Stores c.coef) :
    Ensures (countOnes initial) fun sum => sum = (c.positions m).length := by
  refine forRange_zero_ensures (fun i sum => sum = (c.positions i).length) rfl ?_
  intro i sum hi hsum
  simp only [hinitial.read hi, bind, Except.bind]
  refine .pure ?_
  rw [c.positions_succ, List.length_append, hsum]
  rcases c.bit i hi with h | h
  · simp [h]
  · simp [h]

theorem storePositions_ensures (hinitial : initial.Stores c.coef)
    (onePosition : Buffer UInt8 (c.positions m).length) :
    Ensures (storePositions initial onePosition) fun p =>
      p.1.Stores fun k => UInt8.ofNat ((c.positions m).getD k 0) := by
  refine (forRange_zero_ensures (fun i (p : Buffer UInt8 (c.positions m).length × ℕ) =>
    p.2 = (c.positions i).length ∧
      p.1.FilledTo p.2 fun k => UInt8.ofNat ((c.positions m).getD k 0))
    ⟨rfl, Buffer.filledTo_zero _ _⟩ ?_).mono fun p h => ?_
  · rintro i ⟨b, count⟩ hi ⟨rfl, hb⟩
    simp only [hinitial.read hi, bind, Except.bind]
    by_cases h : c.coef i = 1
    · obtain ⟨rest, hrest⟩ := c.positions_split hi h
      have hlt : (c.positions i).length < (c.positions m).length := by simp [hrest]
      have hat : (c.positions m).getD (c.positions i).length 0 = i := by simp [hrest]
      rw [if_pos h, Buffer.write_of_lt _ _ hlt]
      have hnext := hb.put
      rw [hat] at hnext
      refine .pure ?_
      rw [c.positions_succ, if_pos h, List.length_append, List.length_singleton]
      exact ⟨rfl, hnext⟩
    · rw [if_neg h]
      refine .pure ?_
      rw [c.positions_succ, if_neg h, List.append_nil]
      exact ⟨rfl, hb⟩
  · obtain ⟨hcount, hb⟩ := h
    rw [hcount] at hb
    exact hb

theorem xorRegisters_ensures {onePosition : Buffer UInt8 (c.positions m).length}
    (hpositions : onePosition.Stores fun k => UInt8.ofNat ((c.positions m).getD k 0))
    (registers : Buffer UInt8 m) :
    Ensures (xorRegisters onePosition registers 0) fun x =>
      UInt8.ofNat x = c.feedback registers.value := by
  refine (forRange_zero_ensures (fun k x => UInt8.ofNat x =
    ((c.positions m).take k).foldl (fun x j => x ^^^ registers.value j) 0) rfl ?_).mono ?_
  · intro k x hk hx
    have hlt : (c.positions m)[k] < m := c.lt_of_mem_positions (List.getElem_mem hk)
    have hindex : (UInt8.ofNat ((c.positions m).getD k 0)).toNat = (c.positions m)[k] := by
      have := c.length_lt
      rw [List.getD_eq_getElem?_getD, List.getElem?_eq_getElem hk, Option.getD_some]
      exact UInt8.toNat_ofNat_of_lt (show _ < 256 by omega)
    simp only [onePosition.peek_of_lt hk, hpositions.value hk, hindex, registers.peek_of_lt hlt,
      bind, Except.bind]
    refine .pure ?_
    rw [UInt8.ofNat_xor, hx, UInt8.ofNat_toNat, List.take_succ_eq_append_getElem hk,
      List.foldl_append, List.foldl_cons, List.foldl_nil]
  · intro x hx
    rw [hx, List.take_length, c.foldl_positions]

theorem shiftRegisters_ensures (hm : 2 ≤ m) (b : Buffer UInt8 m) :
    Ensures (shiftRegisters b) fun b' =>
      ∀ p < m, b'.value p = if 1 < p then b.value (p - 1) else b.value p := by
  refine forDown_ensures (fun j (b' : Buffer UInt8 m) =>
    ∀ p < m, b'.value p = if j < p then b.value (p - 1) else b.value p) (by omega)
    (fun p hp => by rw [if_neg (by omega)]) ?_
  intro j b' hj hjm hb
  simp only [b'.peek_of_lt (show j - 1 < m by omega), bind, Except.bind,
    Buffer.write_of_lt _ _ (show j < m by omega)]
  refine .ok fun p hp => ?_
  rw [Buffer.value_put]
  by_cases hpj : p = j
  · rw [if_pos hpj, if_pos (by omega), hb _ (by omega), if_neg (by omega), hpj]
  · rw [if_neg hpj, hb p hp]
    exact if_congr (by omega) rfl rfl

/-- The invariant of the loop over `i`: the registers are those of the shift register
that started from `r`, and its outputs so far have been stored. -/
structure Generating (c : Coefficients m) (r : ℕ → UInt8) (i : ℕ) (p : Locals (2 ^ m - 1) m) :
    Prop where
  seq : p.seq.FilledTo i (output c.feedback r m)
  registers : ∀ j < m, p.registers.value j = run c.feedback r i j
  xorResult : p.xorResult = 0

theorem sequencePass_ensures {onePosition : Buffer UInt8 (c.positions m).length}
    (hpositions : onePosition.Stores fun k => UInt8.ofNat ((c.positions m).getD k 0))
    {r : ℕ → UInt8} {i : ℕ} (hi : i < 2 ^ m - 1) {p : Locals (2 ^ m - 1) m}
    (hp : Generating c r i p) :
    Ensures (sequencePass onePosition i p) (Generating c r (i + 1)) := by
  have hm := c.two_le
  obtain ⟨seq, registers, xorResult⟩ := p
  obtain ⟨hseq, hregisters, rfl⟩ := hp
  have hlast : registers.value (m - 1) = output c.feedback r m i := hregisters _ (by omega)
  have hfeedback : c.feedback registers.value = c.feedback (run c.feedback r i) :=
    Finset.fold_congr fun j hj => hregisters j (c.lt_of_mem_taps hj)
  simp only [sequencePass, registers.peek_of_lt (show m - 1 < m by omega),
    registers.peek_of_lt (show 0 < m by omega), Buffer.write_of_lt _ _ hi, bind, Except.bind]
  refine (xorRegisters_ensures hpositions registers).bind fun x hx => ?_
  simp only [Buffer.write_of_lt _ _ (show 0 < m by omega)]
  refine (shiftRegisters_ensures hm _).bind fun b hb => ?_
  simp only [Buffer.write_of_lt _ _ (show 1 < m by omega)]
  refine .pure ⟨?_, ?_, rfl⟩
  · rw [hlast]
    exact hseq.put
  · intro j hj
    rw [Buffer.value_put]
    by_cases h1 : j = 1
    · rw [if_pos h1, h1, run, shift_succ, hregisters 0 (by omega)]
    · rw [if_neg h1, hb j hj]
      cases j with
      | zero => simp [run, hx, hfeedback]
      | succ j =>
        rw [if_pos (by omega), Nat.add_sub_cancel, Buffer.value_put, if_neg (by omega),
          hregisters j (by omega), run, shift_succ]

/-- The registers before the loop: the first and the last are one, and only the first
was ever cleared. -/
def startRegisters (old : OldBytes) (m j : ℕ) : UInt8 :=
  if j = 0 ∨ j = m - 1 then 1 else old.registers j

/-- `createSequence` returns the output of the shift register that starts there. -/
theorem createSequence_ensures (old : OldBytes) (hinitial : initial.Stores c.coef) :
    Ensures (createSequence old initial) fun seq =>
      seq.Stores (output c.feedback (startRegisters old m) m) := by
  have hm := c.two_le
  have hlen : 0 < 2 ^ m - 1 := by
    have := Nat.pow_le_pow_right (show 0 < 2 by omega) hm
    omega
  have hsum : 0 < (c.positions m).length := by
    obtain ⟨j, hj, hone⟩ := c.exists_one
    obtain ⟨rest, hrest⟩ := c.positions_split hj hone
    simp [hrest]
  simp only [createSequence, sequenceLen, if_pos c.len_lt, Buffer.memset_one _ _ hlen,
    Buffer.memset_one _ _ (show 0 < m by omega), Buffer.write_of_lt _ _ (show 0 < m by omega),
    Buffer.write_of_lt _ _ (show m - 1 < m by omega), bind, Except.bind]
  refine (countOnes_ensures hinitial).bind fun sum h => ?_
  subst h
  simp only [Buffer.memset_one _ _ hsum]
  refine (storePositions_ensures hinitial _).bind fun p hpositions => ?_
  refine (forRange_zero_ensures (Generating c (startRegisters old m)) ?_
    fun i p hi hp => sequencePass_ensures hpositions hi hp).bind fun p hp => .pure hp.seq
  refine ⟨Buffer.filledTo_zero _ _, fun j _ => ?_, rfl⟩
  rw [run, startRegisters]
  by_cases hlast : j = m - 1
  · simp [hlast]
  · by_cases hfirst : j = 0
    · simp [hfirst]
    · simp [hlast, hfirst]

/-- Three registers, the last two of which are fed back. -/
def lastTwoTaps : Coefficients 3 where
  coef j := if j = 0 then 0 else 1
  bit j _ := by
    by_cases h : j = 0
    · exact .inl (if_pos h)
    · exact .inr (if_neg h)
  two_le := by decide
  len_lt := by decide
  exists_one := ⟨1, by decide, rfl⟩

/-- For every start of the inner registers the output obeys the recurrence of its taps,
and with the last tap on it never shows `m` zeros in a row. -/
theorem createSequence_recurrence (c : Coefficients m) (old : OldBytes)
    (hinitial : initial.Stores c.coef) :
    ∃ seq s, createSequence old initial = .ok seq ∧ seq.Stores s ∧
      (∀ i, i + m < 2 ^ m - 1 → s (i + m) =
        {j ∈ range m | c.coef j = 1}.fold (fun x y : UInt8 => x ^^^ y) 0
          fun j => s (i + m - 1 - j)) ∧
      (c.coef (m - 1) = 1 → ∀ i, i + m ≤ 2 ^ m - 1 → ∃ k < m, s (i + k) ≠ 0) := by
  obtain ⟨seq, hrun, hseq⟩ := createSequence_ensures old hinitial
  have hm := c.two_le
  refine ⟨seq, _, hrun, hseq, fun i _ => ?_, fun hlast i _ => ?_⟩
  · exact output_linear _ 0 c.taps (by omega) (fun _ => c.lt_of_mem_taps) _ i
  · have htap : m - 1 ∈ c.taps := by
      rw [Coefficients.taps, mem_filter, mem_range]
      exact ⟨by omega, hlast⟩
    refine exists_output_ne _ 0 c.taps (fun _ => c.lt_of_mem_taps) htap ⟨0, by omega, ?_⟩ i
    simp [startRegisters]

theorem createSequence_recurrence_last_two_taps :
    ∃ seq s, createSequence ⟨fun _ => 7, fun _ => 200, fun _ => 7⟩ lastTwoTaps.vector = .ok seq ∧
      seq.Stores s ∧
      s 3 = s 0 ^^^ s 1 ∧ ∀ i, i + 3 ≤ 7 → ∃ k < 3, s (i + k) ≠ 0 := by
  obtain ⟨seq, s, hrun, hseq, hrecurrence, hzeros⟩ := createSequence_recurrence lastTwoTaps
    ⟨fun _ => 7, fun _ => 200, fun _ => 7⟩ lastTwoTaps.vector_stores
  refine ⟨seq, s, hrun, hseq, ?_, hzeros rfl⟩
  have htaps : ({j ∈ range 3 | lastTwoTaps.coef j = 1} : Finset ℕ) = {2, 1} := by decide
  rw [hrecurrence 0 (by decide), htaps]
  simp

/-! ## The reference program -/

/-- One pass of `SequenceProduct`, the program in the comment above `createSequence`:
`backQ` goes in front of all registers but the last. -/
def referenceStep (coef registers : List ℕ) : List ℕ :=
  (List.zipWith (· * ·) coef registers).sum % 2 :: registers.dropLast

/-- What a number of passes write to `seq`. -/
def referenceLoop (coef : List ℕ) : ℕ → List ℕ → List ℕ
  | 0, _ => []
  | n + 1, registers => registers.getLastD 0 :: referenceLoop coef n (referenceStep coef registers)

/-- `SequenceProduct`, with `registers = [1 zeros(1, m-2) 1]` at the start. -/
def sequenceProduct (coef : List ℕ) : List ℕ :=
  referenceLoop coef (2 ^ coef.length - 1) (1 :: List.replicate (coef.length - 2) 0 ++ [1])

/-- The feedback of the reference. -/
def backQ (k : ℕ → ℕ) (m : ℕ) (q : ℕ → ℕ) : ℕ := (∑ j ∈ range m, k j * q j) % 2

/-- Where the reference starts. -/
def referenceStart (m j : ℕ) : ℕ := if j = 0 ∨ j = m - 1 then 1 else 0

theorem sum_zipWith_range (k q : ℕ → ℕ) (m : ℕ) :
    (List.zipWith (· * ·) ((List.range m).map k) ((List.range m).map q)).sum =
      ∑ j ∈ range m, k j * q j := by
  rw [List.zipWith_map, List.zipWith_self]
  induction m with
  | zero => rfl
  | succ m ih => rw [List.range_succ, List.map_append, List.sum_append, ih, sum_range_succ]; simp

/-- The step of the reference shifts its registers. -/
theorem referenceStep_eq (k q : ℕ → ℕ) (n : ℕ) :
    referenceStep ((List.range (n + 1)).map k) ((List.range (n + 1)).map q) =
      (List.range (n + 1)).map (shift (backQ k (n + 1) q) q) := by
  rw [referenceStep, sum_zipWith_range, ← backQ, List.range_succ, List.map_append,
    List.map_singleton, List.dropLast_concat, ← List.range_succ, List.range_succ_eq_map,
    List.map_cons, shift_zero, List.map_map]
  rfl

/-- The reference writes what leaves the last register. -/
theorem referenceLoop_eq (k q : ℕ → ℕ) (n l : ℕ) :
    referenceLoop ((List.range (n + 1)).map k) l ((List.range (n + 1)).map q) =
      (List.range l).map (output (backQ k (n + 1)) q (n + 1)) := by
  induction l generalizing q with
  | zero => rfl
  | succ l ih =>
    have hlast : ((List.range (n + 1)).map q).getLastD 0 = q n := by
      rw [List.range_succ, List.map_append, List.map_singleton, List.getLastD_concat]
    rw [referenceLoop, hlast, referenceStep_eq, ih, List.range_succ_eq_map (n := l), List.map_cons,
      List.map_map]
    congr 1
    · refine List.map_congr_left fun i _ => ?_
      rw [Function.comp_apply, output, output, run_succ_start]

theorem sequenceProduct_eq {m : ℕ} (hm : 2 ≤ m) (k : ℕ → ℕ) :
    sequenceProduct ((List.range m).map k) =
      (List.range (2 ^ m - 1)).map (output (backQ k m) (referenceStart m) m) := by
  obtain ⟨n, rfl⟩ : ∃ n, m = n + 1 + 1 := ⟨m - 2, by omega⟩
  have hstart : 1 :: List.replicate n 0 ++ [1] =
      (List.range (n + 1 + 1)).map (referenceStart (n + 1 + 1)) := by
    rw [List.range_succ, List.map_append, List.range_succ_eq_map, List.map_cons, List.map_map]
    congr 2
    · refine (List.eq_replicate_iff.mpr ⟨by simp, fun x hx => ?_⟩).symm
      obtain ⟨j, hj, rfl⟩ := List.mem_map.mp hx
      have := List.mem_range.mp hj
      exact if_neg (by omega)
    · simp [referenceStart]
  rw [sequenceProduct, List.length_map, List.length_range, ← referenceLoop_eq, ← hstart]
  rfl

/-! ## Against the reference -/

/-- The byte of the code and the number of the reference are the same bit. -/
def SameBit (x : UInt8) (n : ℕ) : Prop := x = 0 ∧ n = 0 ∨ x = 1 ∧ n = 1

theorem SameBit.xor {x y : UInt8} {n k : ℕ} (hx : SameBit x n) (hy : SameBit y k) :
    SameBit (x ^^^ y) ((n + k) % 2) := by
  rcases hx with ⟨rfl, rfl⟩ | ⟨rfl, rfl⟩
  · rcases hy with ⟨rfl, rfl⟩ | ⟨rfl, rfl⟩
    · exact .inl ⟨rfl, rfl⟩
    · exact .inr ⟨rfl, rfl⟩
  · rcases hy with ⟨rfl, rfl⟩ | ⟨rfl, rfl⟩
    · exact .inr ⟨rfl, rfl⟩
    · exact .inl ⟨rfl, rfl⟩

theorem SameBit.eq_ofNat {x : UInt8} {n : ℕ} (h : SameBit x n) : x = UInt8.ofNat n := by
  rcases h with ⟨rfl, rfl⟩ | ⟨rfl, rfl⟩
  · rfl
  · rfl

/-- Bytes combined by exclusive or against numbers summed modulo two. -/
theorem sameBit_fold {s : Finset ℕ} {r : ℕ → UInt8} {q : ℕ → ℕ}
    (h : ∀ j ∈ s, SameBit (r j) (q j)) :
    SameBit (s.fold (fun x y : UInt8 => x ^^^ y) 0 r) ((∑ j ∈ s, q j) % 2) := by
  induction s using Finset.cons_induction with
  | empty => exact .inl ⟨rfl, rfl⟩
  | cons j s hj ih =>
    have hrest := ih fun k hk => h k (mem_cons_of_mem hk)
    have hsum := (h j (mem_cons_self j s)).xor hrest
    rwa [fold_cons, sum_cons, ← Nat.add_mod_mod]

/-- The feedback of the code and of the reference agree on bits. -/
theorem sameBit_feedback (c : Coefficients m) {r : ℕ → UInt8} {q : ℕ → ℕ}
    (h : ∀ j < m, SameBit (r j) (q j)) :
    SameBit (c.feedback r) (backQ (fun j => (c.coef j).toNat) m q) := by
  have hsum : ∑ j ∈ range m, (c.coef j).toNat * q j = ∑ j ∈ c.taps, q j := by
    rw [Coefficients.taps, sum_filter]
    refine sum_congr rfl fun j hj => ?_
    rcases c.bit j (mem_range.mp hj) with hbit | hbit
    · simp [hbit]
    · simp [hbit]
  rw [backQ, hsum]
  exact sameBit_fold fun j hj => h j (c.lt_of_mem_taps hj)

/-- `createSequence` returns what the reference returns exactly if the memory of the
registers held zeros between the first and the last one. -/
theorem createSequence_eq_sequenceProduct_iff (c : Coefficients m) (old : OldBytes)
    (hinitial : initial.Stores c.coef) :
    ∃ seq, createSequence old initial = .ok seq ∧
      ((List.range (2 ^ m - 1)).map seq.cell =
          (sequenceProduct ((List.range m).map fun j => (c.coef j).toNat)).map
            (fun x => .set (UInt8.ofNat x)) ↔
        ∀ j, 0 < j → j < m - 1 → old.registers j = 0) := by
  have hm := c.two_le
  obtain ⟨seq, hrun, hseq⟩ := createSequence_ensures old hinitial
  refine ⟨seq, hrun, ?_⟩
  rw [sequenceProduct_eq hm, List.map_map, List.map_inj_left]
  constructor
  · -- The first outputs show the registers that the loop started with.
    intro hsame j hpos hj
    have hlen : m - 1 - j < 2 ^ m - 1 := by
      have := Nat.lt_two_pow_self (n := m)
      omega
    have hcell := hsame (m - 1 - j) (List.mem_range.mpr hlen)
    have hcode := output_window c.feedback (startRegisters old m) (show j < m by omega) 0
    have href := output_window (backQ (fun j => (c.coef j).toNat) m) (referenceStart m)
      (show j < m by omega) 0
    rw [Nat.zero_add] at hcode href
    rw [hseq _ hlen, hcode, Function.comp_apply, href, Cell.set.injEq] at hcell
    have hinner : ¬(j = 0 ∨ j = m - 1) := by omega
    simpa [run, startRegisters, referenceStart, hinner] using hcell
  · intro hzero i hi
    have hstart : ∀ j < m, SameBit (startRegisters old m j) (referenceStart m j) := by
      intro j hj
      by_cases h : j = 0 ∨ j = m - 1
      · exact .inr ⟨if_pos h, if_pos h⟩
      · refine .inl ⟨?_, if_neg h⟩
        rw [startRegisters, if_neg h]
        exact hzero j (by omega) (by omega)
    have hbits := run_related (fun _ _ => sameBit_feedback c) hstart i (m - 1) (by omega)
    rw [hseq i (List.mem_range.mp hi), Function.comp_apply]
    exact congrArg Cell.set hbits.eq_ofNat

/-- With a one in the memory of the middle register, the sequence starts 1, 1, 1 where
the reference writes 1, 0, 1. -/
theorem not_every_sequence_the_reference :
    ¬ ∀ (m : ℕ) (c : Coefficients m) (old : OldBytes) (initial : Buffer UInt8 m),
      initial.Stores c.coef →
      ∃ seq, createSequence old initial = .ok seq ∧
        (List.range (2 ^ m - 1)).map seq.cell =
          (sequenceProduct ((List.range m).map fun j => (c.coef j).toNat)).map
            fun x => .set (UInt8.ofNat x) := by
  intro hall
  obtain ⟨seq, hrun, hsame⟩ := hall 3 lastTwoTaps ⟨fun _ => 1, fun _ => 1, fun _ => 1⟩
    lastTwoTaps.vector lastTwoTaps.vector_stores
  have hcode : (createSequence ⟨fun _ => 1, fun _ => 1, fun _ => 1⟩
      lastTwoTaps.vector).toOption.map (fun seq => seq.cell 1) = some (.set 1) := by
    decide +kernel
  have hreference : (sequenceProduct ((List.range 3).map fun j => (lastTwoTaps.coef j).toNat))[1]? =
      some 0 := by decide +kernel
  have hcell : seq.cell 1 = .set 1 := by
    rw [hrun] at hcode
    exact Option.some.inj hcode
  have hentry := congrArg (·[1]?) hsame
  simp [hcell, hreference] at hentry

theorem createSequence_eq_sequenceProduct_cleared :
    ∃ seq, createSequence ⟨fun _ => 7, fun _ => 0, fun _ => 7⟩ lastTwoTaps.vector = .ok seq ∧
      (List.range 7).map seq.cell = [1, 0, 1, 1, 1, 0, 0].map .set := by
  obtain ⟨seq, hrun, hiff⟩ := createSequence_eq_sequenceProduct_iff lastTwoTaps
    ⟨fun _ => 7, fun _ => 0, fun _ => 7⟩ lastTwoTaps.vector_stores
  exact ⟨seq, hrun, (hiff.mpr fun _ _ _ => rfl).trans (by decide +kernel)⟩

end HadamardIMS.Sequences
