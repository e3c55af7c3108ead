import HadamardIMS.Bookkeeping
import HadamardIMS.Decimals
import HadamardIMS.Transmitters

/-!
# The console

`printf` writes one character after the other through `fputc`, which waits for an empty data
register behind each. The matrices are printed row by row and the averaged signal line by
line. What a host gets from the line is the printed table, whatever the speed of the two
sides; the overlap matrix, whose entries are whole numbers, arrives as it was.
-/
namespace HadamardIMS.Console

open Loops Buffers Signals Hadamard Decimals Runs Transmitters

variable {L size : ℕ} {n : Nearest}

/-! ## The printing routines of `main.c` -/

def newline : List Char := ['\r', '\n']

/-- `showHadamard` and `showRecoverySignal`: each element with a separator behind it, and a
new line behind the last element of each row. -/
def showRows (n : Nearest) (places : ℕ) (separator : List Char)
    (array : Buffer MatrixElementType size) (hadamardOrder : ℕ) : Except Fault (List Char) :=
  forRange 0 (hadamardOrder * hadamardOrder) (fun i text => do
    let x ← array.read i
    let text := text ++ (fixed n places x ++ separator)
    .ok (if i % hadamardOrder = hadamardOrder - 1 then text ++ newline else text)) []

/-- `printf("%.7f ", ...)`. -/
def showHadamard (n : Nearest) (pHadamard : Buffer MatrixElementType size) (hadamardOrder : ℕ) :
    Except Fault (List Char) :=
  showRows n 7 [' '] pHadamard hadamardOrder

/-- `printf("%.2f  ", ...)`. -/
def showRecoverySignal (n : Nearest) (array : Buffer MatrixElementType size)
    (hadamardOrder : ℕ) : Except Fault (List Char) :=
  showRows n 2 [' ', ' '] array hadamardOrder

/-- `showResultSignal` and `sendOverlap`: each element on a line of its own. -/
def showLines (n : Nearest) (array : Buffer MatrixElementType size) (start : ℤ)
    (hadamardOrder : ℕ) : Except Fault (List Char) :=
  forRange 0 hadamardOrder (fun i text => do
    let x ← array.readAt (start + i)
    .ok (text ++ (fixed n 2 x ++ newline))) []

def showResultSignal (n : Nearest) (array : Buffer MatrixElementType size)
    (hadamardOrder : ℕ) : Except Fault (List Char) :=
  showLines n array 0 hadamardOrder

def sendOverlap (n : Nearest) (pResult : Buffer MatrixElementType size) (hadamardOrder : ℕ)
    (row : ℤ) : Except Fault (List Char) :=
  showLines n pResult ((row - 1) * hadamardOrder) hadamardOrder

/-- `printf("%d,%d\r\n", ...)`, from the second sample on. -/
def showOriginalValue (convertedValue : Buffer UInt16 size) (hadamardOrder numberOfZero : ℕ) :
    Except Fault (List Char) :=
  forRange 1 (hadamardOrder * (numberOfZero + 1)) (fun i text => do
    let v ← convertedValue.read i
    .ok (text ++ (Nat.toDigits 10 i ++ [','] ++ Nat.toDigits 10 v.toNat ++ newline))) []

/-- `printf("%d ", ...)` for each bit. -/
def showSendSequence (sendSequence : Buffer UInt8 size) (length : ℕ) :
    Except Fault (List Char) :=
  forRange 0 length (fun i text => do
    let bit ← sendSequence.read i
    .ok (text ++ (Nat.toDigits 10 bit.toNat ++ [' ']))) []

/-! ## What they print -/

/-- The entries of a matrix of `L` columns, row by row. -/
def table {α : Type} (m L : ℕ) (M : ℕ → ℕ → α) : List (List α) :=
  (List.range m).map fun r => (List.range L).map (M r)

theorem mem_table {α : Type} {m : ℕ} {M : ℕ → ℕ → α} {row : List α} (hL : 1 ≤ L)
    (h : row ∈ table m L M) : row ≠ [] := by
  obtain ⟨r, -, rfl⟩ := List.mem_map.mp h
  simp
  omega

theorem flatMap_range_mul {α : Type} (m L : ℕ) (f : ℕ → List α) :
    (List.range (m * L)).flatMap f =
      (List.range m).flatMap fun r => (List.range L).flatMap fun c => f (r * L + c) := by
  induction m with
  | zero => simp
  | succ m ih =>
    rw [Nat.succ_mul, List.range_add, List.flatMap_append, ih, List.range_succ,
      List.flatMap_append, List.flatMap_singleton, List.flatMap_map]

/-- One row on its line. -/
def rowLine (n : Nearest) (places : ℕ) (separator : List Char) (row : List ℚ) : List Char :=
  (row.map (fixed n places)).flatMap (· ++ separator) ++ ['\r']

/-- The test for the last column puts the new lines at the ends of the rows. -/
theorem flatMap_row (places : ℕ) (separator : List Char) (hL : 1 ≤ L) (M : ℕ → ℕ → ℚ) (r : ℕ) :
    ((List.range L).flatMap fun c => fixed n places (M r c) ++ separator ++
        if (r * L + c) % L = L - 1 then newline else []) =
      rowLine n places separator ((List.range L).map (M r)) ++ ['\n'] := by
  obtain ⟨k, rfl⟩ : ∃ k, L = k + 1 := ⟨L - 1, by omega⟩
  have hopen : ((List.range k).flatMap fun c => fixed n places (M r c) ++ separator ++
      if (r * (k + 1) + c) % (k + 1) = k + 1 - 1 then newline else []) =
        (List.range k).flatMap fun c => fixed n places (M r c) ++ separator := by
    refine List.flatMap_congr fun c hc => ?_
    have hc := List.mem_range.mp hc
    rw [rowMajor_mod (by omega), if_neg (by omega), List.append_nil]
  rw [rowLine, List.map_map, List.flatMap_map, List.range_succ, List.flatMap_append, hopen,
    List.flatMap_append, List.flatMap_singleton, List.flatMap_singleton,
    rowMajor_mod (Nat.lt_succ_self k), if_pos (Nat.add_sub_cancel k 1).symm]
  simp [newline]

theorem showRows_ensures (n : Nearest) (places : ℕ) (separator : List Char) (hL : 1 ≤ L)
    {array : Buffer MatrixElementType (L * L)} {M : ℕ → ℕ → ℚ} (h : array.Holds M) :
    Ensures (showRows n places separator array L) fun text => text =
      (table L L M).flatMap fun row => rowLine n places separator row ++ ['\n'] := by
  refine (forRange_zero_ensures (fun i text => text = (List.range i).flatMap fun p =>
    fixed n places (array.value p) ++ separator ++ if p % L = L - 1 then newline else []) rfl
    ?_).mono fun text htext => ?_
  · rintro i text hi rfl
    rw [h.assigned.stores.read hi, ok_bind]
    refine .ok ?_
    rw [List.range_succ, List.flatMap_append, List.flatMap_singleton]
    split_ifs with hlast
    · simp only [List.append_assoc]
    · simp only [List.append_assoc, List.append_nil]
  · rw [htext, flatMap_range_mul, table, List.flatMap_map]
    refine List.flatMap_congr fun r hr => ?_
    rw [← flatMap_row places separator hL M r]
    refine List.flatMap_congr fun c hc => ?_
    rw [h.value_eq (List.mem_range.mp hr) (List.mem_range.mp hc)]

/-- The words of a printed row are its numbers. -/
theorem words_rowLine (n : Nearest) (places : ℕ) {separator : List Char} (hne : separator ≠ [])
    (hblank : ∀ c ∈ separator, blank c) (row : List ℚ) :
    words (rowLine n places separator row) = row.map (fixed n places) := by
  refine words_line ?_ hne hblank fun c hc => ?_
  · intro w hw
    obtain ⟨x, -, rfl⟩ := List.mem_map.mp hw
    exact isWord_fixed n places x
  · rw [List.mem_singleton.mp hc]
    rfl

theorem newline_notMem_rowLine (n : Nearest) (places : ℕ) {separator : List Char}
    (hblank : '\n' ∉ separator) (row : List ℚ) : '\n' ∉ rowLine n places separator row := by
  rw [rowLine, List.mem_append, List.mem_flatMap]
  rintro (⟨w, hw, hmem⟩ | hmem)
  · obtain ⟨x, -, rfl⟩ := List.mem_map.mp hw
    rcases List.mem_append.mp hmem with hmem | hmem
    · exact (isWord_fixed n places x).line hmem
    · exact hblank hmem
  · exact absurd (List.mem_singleton.mp hmem) (by decide)

/-- What is read from a printed matrix. -/
theorem readTable_rows (n : Nearest) {places : ℕ} (hplaces : 0 < places) {separator : List Char}
    (hne : separator ≠ []) (hblank : ∀ c ∈ separator, blank c) (hline : '\n' ∉ separator)
    (hL : 1 ≤ L) (M : ℕ → ℕ → ℚ) :
    readTable ((table L L M).flatMap fun row => rowLine n places separator row ++ ['\n']) =
      some (table L L fun r c => n.shown places (M r c)) := by
  rw [readTable_lines (fixed n places) (n.shown places)
    (fun row hrow => mem_table hL hrow)
    (fun row _ => ⟨newline_notMem_rowLine n places hline row,
      words_rowLine n places hne hblank row⟩)
    (readNumber_fixed n hplaces)]
  simp [table, Function.comp_def]

/-- A reader of the printed matrix gets each entry in its place, to the hundredth. -/
theorem showRecoverySignal_readTable (n : Nearest) (hL : 1 ≤ L)
    {array : Buffer MatrixElementType (L * L)} {M : ℕ → ℕ → ℚ} (h : array.Holds M) :
    Ensures (showRecoverySignal n array L) fun text =>
      readTable text = some (table L L fun r c => n.shown 2 (M r c)) ∧
        ∀ r c, |n.shown 2 (M r c) - M r c| ≤ 1 / 200 := by
  refine (showRows_ensures n 2 [' ', ' '] hL h).mono ?_
  rintro _ rfl
  refine ⟨readTable_rows n two_pos (by simp) (by simp [blank]) (by simp) hL M, fun r c => ?_⟩
  have hnear := n.abs_shown_sub_le 2 (M r c)
  norm_num at hnear
  linarith

/-- One third everywhere. -/
theorem showRecoverySignal_readTable_thirds :
    Ensures (showRecoverySignal .halfUp (.fill (2 * 2) (1 / 3)) 2) fun text =>
      readTable text = some [[33 / 100, 33 / 100], [33 / 100, 33 / 100]] := by
  have hshown : Nearest.shown .halfUp 2 (1 / 3) = 33 / 100 := by decide +kernel
  refine (showRecoverySignal_readTable .halfUp (L := 2) (by decide)
    (M := fun _ _ => 1 / 3) fun _ _ _ _ => rfl).mono fun text htext => ?_
  rw [htext.1, hshown]
  rfl

example : showRecoverySignal .halfUp (.fill (2 * 2) (-1 / 3)) 2 =
    .ok "-0.33  -0.33  \r\n-0.33  -0.33  \r\n".toList := by decide +kernel

/-- Seven digits are enough for the entries of the inverse. -/
theorem showHadamard_readTable (n : Nearest) (hL : 1 ≤ L)
    {array : Buffer MatrixElementType (L * L)} {M : ℕ → ℕ → ℚ} (h : array.Holds M)
    (hentries : ∀ r c, r < L → c < L → ∃ k : ℤ, M r c = k / 128) :
    Ensures (showHadamard n array L) fun text => readTable text = some (table L L M) := by
  refine (showRows_ensures n 7 [' '] hL h).mono ?_
  rintro _ rfl
  rw [readTable_rows n (by norm_num) (by simp) (by simp [blank]) (by simp) hL M]
  refine congrArg some (List.map_congr_left fun r hr => List.map_congr_left fun c hc => ?_)
  obtain ⟨k, hk⟩ := hentries r c (List.mem_range.mp hr) (List.mem_range.mp hc)
  refine n.shown_eq (k := k * 78125) ?_
  rw [hk]
  push_cast
  ring

/-- A line with one number. -/
theorem words_single {w : List Char} (hw : IsWord w) :
    '\n' ∉ w ++ ['\r'] ∧ words (w ++ ['\r']) = [w] := by
  refine ⟨?_, ?_⟩
  · rw [List.mem_append]
    rintro (hmem | hmem)
    · exact hw.line hmem
    · exact absurd (List.mem_singleton.mp hmem) (by decide)
  · have hwords := words_append hw (List.cons_ne_nil '\r' []) (by simp [blank]) []
    rw [List.append_nil] at hwords
    rw [hwords]
    rfl

/-- A column of numbers, one on each line. -/
theorem showLines_ensures (n : Nearest) {array : Buffer MatrixElementType size}
    (hassigned : array.Assigned) (start : ℕ) (hroom : start + L ≤ size) :
    Ensures (showLines n array start L) fun text => readTable text =
      some ((List.range L).map fun j => [n.shown 2 (array.value (start + j))]) := by
  refine (forRange_zero_ensures (fun i text => text = ((List.range i).map fun j =>
    [array.value (start + j)]).flatMap fun row => row.flatMap (fixed n 2) ++ ['\r'] ++ ['\n'])
    rfl ?_).mono ?_
  · rintro i text hi rfl
    have hread : array.readAt ((start : ℤ) + i) = .ok (array.value (start + i)) := by
      rw [← Nat.cast_add, Buffer.readAt_natCast]
      exact hassigned.stores.read (by omega)
    rw [hread, ok_bind]
    refine .ok ?_
    rw [List.range_succ, List.map_append, List.flatMap_append]
    simp [newline]
  · rintro _ rfl
    rw [readTable_lines (fixed n 2) (n.shown 2) ?_ ?_
      (readNumber_fixed n two_pos)]
    · simp [Function.comp_def]
    · intro row hrow
      obtain ⟨j, -, rfl⟩ := List.mem_map.mp hrow
      exact List.cons_ne_nil _ _
    · intro row hrow
      obtain ⟨j, -, rfl⟩ := List.mem_map.mp hrow
      rw [List.flatMap_singleton]
      exact words_single (isWord_fixed n 2 (array.value (start + j)))

/-- A reader of the printed average gets each point, to the hundredth. -/
theorem showResultSignal_readTable (n : Nearest) {array : Buffer MatrixElementType L}
    (hassigned : array.Assigned) : Ensures (showResultSignal n array L) fun text =>
      readTable text = some ((List.range L).map fun j => [n.shown 2 (array.value j)]) := by
  have hlines := showLines_ensures n hassigned 0 (L := L) (by omega)
  simp only [Nat.zero_add] at hlines
  exact hlines

theorem sendOverlap_readTable (n : Nearest) {pResult : Buffer MatrixElementType (L * L)}
    (hassigned : pResult.Assigned) {row : ℕ} (hlow : 1 ≤ row) (hhigh : row ≤ L) :
    Ensures (sendOverlap n pResult L row) fun text => readTable text =
      some ((List.range L).map fun j => [n.shown 2 (pResult.value ((row - 1) * L + j))]) := by
  obtain ⟨r, rfl⟩ : ∃ r, row = r + 1 := ⟨row - 1, by omega⟩
  have hroom : r * L + L ≤ L * L := by
    rw [← Nat.succ_mul]
    exact Nat.mul_le_mul_right L hhigh
  have hstart : (((r + 1 : ℕ) : ℤ) - 1) * L = ((r * L : ℕ) : ℤ) := by
    push_cast
    ring
  rw [sendOverlap, hstart, Nat.add_sub_cancel]
  exact showLines_ensures n hassigned _ hroom

/-- Two numbers on their line. -/
def pairLine (p : ℕ × ℕ) : List Char :=
  Nat.toDigits 10 p.1 ++ ([','] ++ (Nat.toDigits 10 p.2 ++ ['\r']))

theorem words_pairLine (p : ℕ × ℕ) :
    '\n' ∉ pairLine p ∧ words (pairLine p) = [Nat.toDigits 10 p.1, Nat.toDigits 10 p.2] := by
  have hfirst := isWord_toDigits p.1
  obtain ⟨hline, hwords⟩ := words_single (isWord_toDigits p.2)
  refine ⟨?_, ?_⟩
  · rw [pairLine, List.mem_append, List.mem_append]
    rintro (hmem | hmem | hmem)
    · exact hfirst.line hmem
    · exact absurd (List.mem_singleton.mp hmem) (by decide)
    · exact hline hmem
  · rw [pairLine, words_append hfirst (by simp) (by simp [blank]), hwords]

/-- The samples of a frame with their numbers, one pair on each line. -/
theorem showOriginalValue_readTable {convertedValue : Buffer UInt16 size}
    (hassigned : convertedValue.Assigned) {hadamardOrder numberOfZero : ℕ}
    (horder : 1 ≤ hadamardOrder) (hroom : hadamardOrder * (numberOfZero + 1) ≤ size) :
    Ensures (showOriginalValue convertedValue hadamardOrder numberOfZero) fun text =>
      readTable text = some ((List.range (hadamardOrder * (numberOfZero + 1) - 1)).map fun j =>
        [((j + 1 : ℕ) : ℚ), ((convertedValue.value (j + 1)).toNat : ℚ)]) := by
  have hpos : 1 ≤ hadamardOrder * (numberOfZero + 1) := Nat.mul_pos horder (Nat.succ_pos _)
  refine (forRange_ensures (fun i text => text = ((List.range (i - 1)).map fun j =>
    (j + 1, (convertedValue.value (j + 1)).toNat)).flatMap fun p => pairLine p ++ ['\n'])
    hpos rfl ?_).mono ?_
  · rintro i text hlow hi rfl
    obtain ⟨j, rfl⟩ : ∃ j, i = j + 1 := ⟨i - 1, by omega⟩
    rw [hassigned.stores.read (by omega), ok_bind]
    refine .ok ?_
    rw [Nat.add_sub_cancel, Nat.add_sub_cancel, List.range_succ, List.map_append,
      List.flatMap_append]
    simp [newline, pairLine]
  · rintro _ rfl
    have hlines : readTable (((List.range (hadamardOrder * (numberOfZero + 1) - 1)).map fun j =>
        [j + 1, (convertedValue.value (j + 1)).toNat]).flatMap fun row =>
          pairLine (row.getD 0 0, row.getD 1 0) ++ ['\n']) = _ :=
      readTable_lines (Nat.toDigits 10) (fun k : ℕ => (k : ℚ)) ?_ ?_ readNumber_toDigits
    · rw [List.flatMap_map] at hlines ⊢
      simpa [Function.comp_def] using hlines
    · intro row hrow
      obtain ⟨j, -, rfl⟩ := List.mem_map.mp hrow
      exact List.cons_ne_nil _ _
    · intro row hrow
      obtain ⟨j, -, rfl⟩ := List.mem_map.mp hrow
      exact words_pairLine _

/-- The bits of the row that is sent, on one line. -/
theorem showSendSequence_readTable {sendSequence : Buffer UInt8 L} (hL : 1 ≤ L)
    (hassigned : sendSequence.Assigned) : Ensures (showSendSequence sendSequence L) fun text =>
      readTable text = some [(List.range L).map fun i => ((sendSequence.value i).toNat : ℚ)] := by
  refine (forRange_zero_ensures (fun i text => text = ((List.range i).map fun j =>
    Nat.toDigits 10 (sendSequence.value j).toNat).flatMap (· ++ [' '])) rfl ?_).mono ?_
  · rintro i text hi rfl
    rw [hassigned.stores.read hi, ok_bind]
    refine .ok ?_
    rw [List.range_succ, List.map_append, List.flatMap_append]
    simp
  · rintro _ rfl
    have hwords : ∀ w ∈ (List.range L).map fun j => Nat.toDigits 10 (sendSequence.value j).toNat,
        IsWord w := by
      intro w hw
      obtain ⟨j, -, rfl⟩ := List.mem_map.mp hw
      exact isWord_toDigits _
    have hline := words_line hwords (List.cons_ne_nil ' ' []) (by simp [blank])
      (List.forall_mem_nil fun c => blank c)
    rw [List.append_nil] at hline
    refine readTable_line (by simp; omega) ?_ hline fun j => readNumber_toDigits _
    rw [List.mem_flatMap]
    rintro ⟨w, hw, hmem⟩
    rcases List.mem_append.mp hmem with hmem | hmem
    · exact (hwords w hw).line hmem
    · exact absurd (List.mem_singleton.mp hmem) (by decide)

/-! ## The overlap matrix of a round -/

section Run

open Acquisition

variable {g : Globals} {m : Setup g} {h : List (State g.sequenceLength × Acquisition.Event)}
  {s : State g.sequenceLength}

/-- The frames that have been stored since the last round, without their samples at time
zero. -/
def storedFrames (h : List (State L × Acquisition.Event)) : List (List ℚ) :=
  (roundStores h).map fun t =>
    (List.range L).map fun i => ((t.convertedValue.value (i + 1)).toNat : ℚ)

/-- Sample `c` of the frame that was stored as row `r`. -/
def storedSample (h : List (State L × Acquisition.Event)) (r c : ℕ) : ℕ :=
  ((roundStores h)[r]?.map fun t => (t.convertedValue.value (c + 1)).toNat).getD 0

theorem table_storedSample (h : List (State L × Acquisition.Event))
    (hlength : (roundStores h).length = L) :
    (table L L fun r c => (storedSample h r c : ℚ)) = storedFrames h := by
  refine List.ext_getElem ?_ fun r hr hr' => ?_
  · simp [table, storedFrames, hlength]
  · have hr : r < (roundStores h).length := by simpa [storedFrames] using hr'
    simp [table, storedFrames, storedSample, hr]

/-- Where `main` prints the overlap matrix, it holds these frames. -/
theorem overlap_holds (hrun : Run (step m) (State.initial m) h s)
    (hpc : s.pc = .transposeOverlap) :
    s.pOverlapSignal.Holds fun r c => (storedSample h r c : ℚ) := by
  intro r c hr hc
  have hI := Bookkept.of_run hrun
  have hlength : (roundStores h).length = g.sequenceLength := by
    rw [hI.length_roundStores, hpc]
    rfl
  rw [← hlength] at hr
  have hcell := hI.contents r _ (List.getElem?_eq_getElem hr) c hc
  rw [overlapCell, if_neg (by simp [hpc])] at hcell
  simp only [hcell, storedSample, List.getElem?_eq_getElem hr, Option.map_some,
    Option.getD_some]

/-- In every run, what a reader gets from the overlap matrix that `main` prints at the end of a
round is exactly the frames that were stored since the last round, in the order in which they
were stored. -/
theorem overlap_printed_exactly (m : Setup g) (n : Nearest)
    (hrun : Run (step m) (State.initial m) h s) (hpc : s.pc = .transposeOverlap) :
    Ensures (showRecoverySignal n s.pOverlapSignal g.sequenceLength) fun text =>
      readTable text = some (storedFrames h) := by
  have hlength : (roundStores h).length = g.sequenceLength := by
    rw [(Bookkept.of_run hrun).length_roundStores, hpc]
    rfl
  refine (showRows_ensures n 2 [' ', ' '] g.one_le_sequenceLength (overlap_holds hrun hpc)).mono ?_
  rintro _ rfl
  rw [readTable_rows n two_pos (by simp) (by simp [blank]) (by simp) g.one_le_sequenceLength,
    ← table_storedSample h hlength]
  refine congrArg some (List.map_congr_left fun r _ => List.map_congr_left fun c _ => ?_)
  refine n.shown_eq (k := storedSample h r c * 100) ?_
  push_cast
  ring

end Run

/-! ## The way to the host -/

/-- The conversion to `uint8_t`. -/
def byte (ch : Char) : UInt8 := .ofNat ch.toNat

/-- Write the data register, and poll `TXE`. -/
def fputc (ch : Char) : List (Access UInt8) := [.write (byte ch), .poll]

/-- `printf` of a text that has been formatted. -/
def printText (text : List Char) : List (Access UInt8) := text.flatMap fputc

/-- What a host takes from the line. -/
def received (line : List UInt8) : List Char := line.map fun b => Char.ofNat b.toNat

theorem polled_printText (text : List Char) : Polled (printText text) := by
  induction text with
  | nil => exact .nil
  | cons ch text ih => exact .cons (byte ch) ih

theorem writes_printText (text : List Char) : writes (printText text) = text.map byte := by
  induction text with
  | nil => rfl
  | cons ch text ih => exact congrArg (byte ch :: ·) ih

/-- The characters fit in a byte. -/
def Narrow (text : List Char) : Prop := ∀ ch ∈ text, ch.toNat < 256

theorem received_bytes {text : List Char} (h : Narrow text) :
    received (text.map byte) = text := by
  have hback : ∀ ch ∈ text, ((fun b : UInt8 => Char.ofNat b.toNat) ∘ byte) ch = ch := by
    intro ch hch
    have hnat : (byte ch).toNat = ch.toNat := UInt8.toNat_ofNat_of_lt' (h ch hch)
    rw [Function.comp_apply, hnat, Char.ofNat_toNat]
  rw [received, List.map_map, List.map_congr_left hback, List.map_id']

theorem narrow_fixed (n : Nearest) (places : ℕ) (x : ℚ) : Narrow (fixed n places x) := by
  intro ch hch
  rcases mem_fixed hch with rfl | rfl | hdigit
  · decide
  · decide
  · exact (Char.isDigit_iff_toNat.mp hdigit).2.trans_lt (by decide)

theorem narrow_rowLine (n : Nearest) (places : ℕ) {separator : List Char} (h : Narrow separator)
    (row : List ℚ) : Narrow (rowLine n places separator row) := by
  intro ch hch
  rw [rowLine, List.mem_append, List.mem_flatMap] at hch
  rcases hch with ⟨w, hw, hch⟩ | hch
  · obtain ⟨x, -, rfl⟩ := List.mem_map.mp hw
    rcases List.mem_append.mp hch with hch | hch
    · exact narrow_fixed n places x ch hch
    · exact h ch hch
  · rw [List.mem_singleton.mp hch]
    decide

theorem narrow_rows (n : Nearest) (places : ℕ) {separator : List Char} (h : Narrow separator)
    (rows : List (List ℚ)) :
    Narrow (rows.flatMap fun row => rowLine n places separator row ++ ['\n']) := by
  intro ch hch
  obtain ⟨row, -, hch⟩ := List.mem_flatMap.mp hch
  rcases List.mem_append.mp hch with hch | hch
  · exact narrow_rowLine n places h row ch hch
  · rw [List.mem_singleton.mp hch]
    decide

theorem length_printText (text : List Char) : (printText text).length = 2 * text.length := by
  rw [printText, List.length_flatMap]
  simp [fputc, Nat.mul_comm]

/-- Whatever the speed of the two sides, the host has received a beginning of the text at each
moment and nothing else, and in the end the text. -/
theorem text_received {text : List Char} (hnarrow : Narrow text)
    {h : List (Transmitter UInt8 × Transmitters.Event)} {t : Transmitter UInt8}
    (hrun : Run Transmitters.step (start (printText text)) h t) :
    received t.line <+: text ∧ t.overwritten = 0 ∧
      h.countP (fun p => Busy p.1 p.2) ≤ 4 * text.length ∧
      (∃ u, Leads Transmitters.step (fun _ _ => True) t u ∧
        Settled Transmitters.step (fun _ _ => True) Busy u) ∧
      (Settled Transmitters.step (fun _ _ => True) Busy t → received t.line = text) := by
  obtain ⟨hbegin, hover, hcount, hsettles, hall⟩ := transmits (polled_printText text) hrun
  rw [writes_printText] at hbegin hcount hall
  rw [List.length_map, length_printText] at hcount
  refine ⟨?_, hover, by omega, hsettles, fun hsettled => ?_⟩
  · have hmap := hbegin.map fun b : UInt8 => Char.ofNat b.toNat
    rwa [show (text.map byte).map (fun b : UInt8 => Char.ofNat b.toNat) = text from
      received_bytes hnarrow] at hmap
  · rw [hall hsettled, received_bytes hnarrow]

/-- From the converter to the host: in every run of the acquisition and of the transmitter,
the host never takes anything but a beginning of the text of the overlap matrix, the
transmission can always be brought to its end, and then the host reads from it exactly the
frames that were stored since the last round. -/
theorem overlap_received {g : Globals} (m : Acquisition.Setup g) (n : Nearest)
    {h : List (Acquisition.State g.sequenceLength × Acquisition.Event)}
    {s : Acquisition.State g.sequenceLength}
    (hrun : Run (Acquisition.step m) (Acquisition.State.initial m) h s)
    (hpc : s.pc = .transposeOverlap) :
    Ensures (showRecoverySignal n s.pOverlapSignal g.sequenceLength) fun text =>
      ∀ h' t, Run Transmitters.step (start (printText text)) h' t →
        received t.line <+: text ∧ t.overwritten = 0 ∧
        h'.countP (fun p => Busy p.1 p.2) ≤ 4 * text.length ∧
        (∃ u, Leads Transmitters.step (fun _ _ => True) t u ∧
          Settled Transmitters.step (fun _ _ => True) Busy u) ∧
        (Settled Transmitters.step (fun _ _ => True) Busy t →
          readTable (received t.line) = some (storedFrames h)) := by
  obtain ⟨text, htext, hrows⟩ := showRows_ensures n 2 [' ', ' '] g.one_le_sequenceLength
    (overlap_holds hrun hpc)
  have hread := (overlap_printed_exactly m n hrun hpc).of_eq_ok htext
  have hnarrow : Narrow text := by
    rw [hrows]
    exact narrow_rows n 2 (by simp [Narrow]) _
  refine ⟨text, htext, fun h' t hsend => ?_⟩
  obtain ⟨hbegin, hover, hcount, hsettles, hall⟩ := text_received hnarrow hsend
  refine ⟨hbegin, hover, hcount, hsettles, fun hsettled => ?_⟩
  rw [hall hsettled, hread]

theorem overlap_received_first_round :
    ∃ h s text h' t, Run (Acquisition.step Acquisition.setupFour)
        (Acquisition.State.initial Acquisition.setupFour) h s ∧
      showRecoverySignal .halfUp s.pOverlapSignal 3 = .ok text ∧
      Run Transmitters.step (start (printText text)) h' t ∧
      readTable (received t.line) = some [[1, 2, 3], [4, 5, 6], [7, 8, 9]] := by
  obtain ⟨h, s, hrun, hpc, hframes⟩ := exists_run_of_exec (Acquisition.step Acquisition.setupFour)
    (Acquisition.State.initial Acquisition.setupFour) Acquisition.firstRoundFour.dropLast
    (fun h s => s.pc = .transposeOverlap ∧ storedFrames h = [[1, 2, 3], [4, 5, 6], [7, 8, 9]])
    (by decide +kernel)
  obtain ⟨text, htext, hsent⟩ := overlap_received Acquisition.setupFour .halfUp hrun hpc
  -- The transmission is brought to its end.
  obtain ⟨-, -, -, ⟨t, ⟨h', hsend, -⟩, hsettled⟩, -⟩ := hsent [] _ .start
  obtain ⟨-, -, -, -, hread⟩ := hsent h' t hsend
  refine ⟨h, s, text, h', t, hrun, htext, hsend, ?_⟩
  rw [hread hsettled, hframes]

/-! ## Strings -/

/-- `Usart_SendByte`. -/
def usartSendByte (ch : UInt8) : List (Access UInt8) := [.write ch, .poll]

/-- `Usart_SendHalfWord`: the high byte first. -/
def usartSendHalfWord (ch : UInt16) : List (Access UInt8) :=
  usartSendByte ((ch &&& 0xFF00) >>> 8).toUInt8 ++ usartSendByte (ch &&& 0xFF).toUInt8

/-- The two bytes are those of the word. -/
theorem usartSendHalfWord_writes (ch : UInt16) : Polled (usartSendHalfWord ch) ∧
    ∃ high low, writes (usartSendHalfWord ch) = [high, low] ∧
      256 * high.toNat + low.toNat = ch.toNat := by
  refine ⟨.append (.cons _ .nil) (.cons _ .nil), ((ch &&& 0xFF00) >>> 8).toUInt8,
    (ch &&& 0xFF).toUInt8, ?_, ?_⟩
  · rw [usartSendHalfWord, writes_append]
    rfl
  · have hch := ch.toNat_lt
    have hhigh : ((ch &&& 0xFF00) >>> 8).toUInt8.toNat = (ch.toNat &&& 65280) >>> 8 % 256 := by
      simp
    have hlow : (ch &&& 0xFF).toUInt8.toNat = (ch.toNat &&& 255) % 256 := rfl
    rw [hhigh, hlow, Nat.shiftRight_and_distrib, Nat.shiftRight_eq_div_pow,
      show 65280 >>> 8 = 2 ^ 8 - 1 from rfl, show 255 = 2 ^ 8 - 1 from rfl,
      Nat.and_two_pow_sub_one_eq_mod, Nat.and_two_pow_sub_one_eq_mod]
    omega

/-- The passes of `Usart_SendString` from character `k` on: each sends a character, and looks at
the next one to see whether there is another pass. -/
def sendFrom (str : Buffer UInt8 size) (k : ℕ) : ℕ → Except Fault (List (Access UInt8))
  | 0 => .error .outOfBounds
  | passes + 1 => do
    let ch ← str.read k
    let next ← str.read (k + 1)
    if next ≠ 0 then do
      let rest ← sendFrom str (k + 1) passes
      .ok (usartSendByte ch ++ rest)
    else .ok (usartSendByte ch)

/-- `Usart_SendString`; more passes than the block has characters would leave it. -/
def usartSendString (str : Buffer UInt8 size) : Except Fault (List (Access UInt8)) :=
  sendFrom str 0 size

/-- The string `chars` of `length` characters, with its terminator. -/
structure HoldsString (str : Buffer UInt8 size) (chars : ℕ → UInt8) (length : ℕ) : Prop where
  room : length < size
  filled : str.FilledTo (length + 1) chars
  nonzero : ∀ i < length, chars i ≠ 0
  terminator : chars length = 0

theorem sendFrom_ensures {str : Buffer UInt8 size} {chars : ℕ → UInt8} {length : ℕ}
    (h : HoldsString str chars length) : ∀ {passes k : ℕ}, k < length → length ≤ k + passes →
      Ensures (sendFrom str k passes) fun accesses => Polled accesses ∧
        writes accesses = (List.range (length - k)).map fun i => chars (k + i) := by
  intro passes
  induction passes with
  | zero =>
    intro k hk hpasses
    omega
  | succ passes ih =>
    intro k hk hpasses
    have hroom := h.room
    have hread : ∀ i ≤ length, str.read i = .ok (chars i) := fun i hi =>
      Buffer.read_of_set (by omega) (h.filled i (by omega))
    have hlength : length - k = length - (k + 1) + 1 := by omega
    rw [sendFrom, hread k hk.le, ok_bind, hread (k + 1) hk, ok_bind]
    split_ifs with hnext
    · have hmore : k + 1 < length := lt_of_le_of_ne hk fun hend =>
        hnext (by rw [hend, h.terminator])
      refine (ih hmore (by omega)).bind fun rest ⟨hpolled, hwrites⟩ => .ok ⟨.cons _ hpolled, ?_⟩
      rw [hlength, List.range_succ_eq_map, List.map_cons, List.map_map]
      simp only [usartSendByte, List.cons_append, List.nil_append, writes, hwrites]
      simp [Function.comp_def, Nat.add_assoc, Nat.add_comm 1]
    · have hend : k + 1 = length := by
        by_contra hne
        exact h.nonzero (k + 1) (by omega) (not_not.mp hnext)
      refine .ok ⟨.cons _ .nil, ?_⟩
      rw [← hend, Nat.add_sub_cancel_left]
      simp [usartSendByte, writes]

/-- The first character is sent before anything is looked at. -/
theorem writes_sendFrom_ne_nil {str : Buffer UInt8 size} {k passes : ℕ}
    {accesses : List (Access UInt8)} (h : sendFrom str k passes = .ok accesses) :
    writes accesses ≠ [] := by
  cases passes with
  | zero => cases h
  | succ passes =>
    rw [sendFrom] at h
    obtain ⟨ch, -, h⟩ := bind_eq_ok.mp h
    obtain ⟨next, -, h⟩ := bind_eq_ok.mp h
    split_ifs at h
    · obtain ⟨rest, -, h⟩ := bind_eq_ok.mp h
      cases h
      exact List.cons_ne_nil _ _
    · cases h
      exact List.cons_ne_nil _ _

/-- So what is sent is the string unless the string is empty. -/
theorem usartSendString_iff {str : Buffer UInt8 size} {chars : ℕ → UInt8} {length : ℕ}
    (h : HoldsString str chars length) :
    (Ensures (usartSendString str) fun accesses => Polled accesses ∧
      writes accesses = (List.range length).map chars) ↔ 0 < length := by
  constructor
  · rintro ⟨accesses, hsend, -, hwrites⟩
    by_contra hempty
    obtain rfl : length = 0 := by omega
    exact writes_sendFrom_ne_nil hsend hwrites
  · intro hlength
    refine (sendFrom_ensures h hlength ?_).mono fun accesses ⟨hpolled, hwrites⟩ => ⟨hpolled, ?_⟩
    · have hroom := h.room
      omega
    · rw [hwrites, Nat.sub_zero]
      exact List.map_congr_left fun i _ => congrArg chars (Nat.zero_add i)

end HadamardIMS.Console
