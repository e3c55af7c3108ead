import Mathlib.Algebra.Order.Field.Basic
import Mathlib.Algebra.Order.Ring.Abs
import Mathlib.Algebra.Order.Ring.Rat
import Mathlib.Data.List.Basic
import Mathlib.Data.Rat.Floor
import Mathlib.Tactic.FieldSimp
import Mathlib.Tactic.Linarith
import Mathlib.Tactic.NormNum
import Mathlib.Tactic.Ring

/-!
# Numbers and tables in decimal notation

A number is written with a fixed number of digits behind the point, a table as lines of
numbers with blanks between them. What a reader gets back from the text is the number
rounded to these digits, and the table of the rounded numbers.
-/
namespace HadamardIMS.Decimals

/-! ## Rounding to whole units -/

/-- A rounding of nonnegative numbers to a nearest whole one. Which way a tie goes is left
open. -/
structure Nearest where
  round : ℚ → ℕ
  abs_sub_le : ∀ x, 0 ≤ x → |(round x : ℚ) - x| ≤ 1 / 2

namespace Nearest

variable (n : Nearest)

theorem round_natCast (k : ℕ) : n.round k = k := by
  have hnear := abs_le.mp (n.abs_sub_le k (Nat.cast_nonneg k))
  have hlow : (k : ℚ) < n.round k + 1 := by linarith
  have hhigh : (n.round k : ℚ) < k + 1 := by linarith
  have hlow : k < n.round k + 1 := by exact_mod_cast hlow
  have hhigh : n.round k < k + 1 := by exact_mod_cast hhigh
  omega

/-- Ties go up. -/
def halfUp : Nearest where
  round x := ⌊x + 1 / 2⌋₊
  abs_sub_le := fun x hx => by
    have hlow := Nat.floor_le (show 0 ≤ x + 1 / 2 by linarith)
    have hhigh := Nat.lt_floor_add_one (x + 1 / 2)
    rw [abs_le]
    constructor <;> linarith

/-- The number that the text of `x` stands for. -/
def shown (places : ℕ) (x : ℚ) : ℚ :=
  (if x < 0 then -1 else 1) * (n.round (|x| * 10 ^ places) / 10 ^ places)

/-- It is off by half a unit of the last digit at most. -/
theorem abs_shown_sub_le (places : ℕ) (x : ℚ) :
    |n.shown places x - x| ≤ 1 / (2 * 10 ^ places) := by
  have hpow : (0 : ℚ) < 10 ^ places := by positivity
  have hnear := n.abs_sub_le (|x| * 10 ^ places) (by positivity)
  have habs : |(n.round (|x| * 10 ^ places) : ℚ) / 10 ^ places - (|x|)| ≤
      1 / (2 * 10 ^ places) := by
    have hscale : (n.round (|x| * 10 ^ places) : ℚ) / 10 ^ places - |x| =
        (n.round (|x| * 10 ^ places) - |x| * 10 ^ places) / 10 ^ places := by
      field_simp
    rw [hscale, abs_div, abs_of_pos hpow, div_le_div_iff₀ hpow (by positivity)]
    linarith [mul_le_mul_of_nonneg_right hnear hpow.le]
  rw [shown]
  split_ifs with hneg
  · rw [abs_of_neg hneg] at habs ⊢
    rw [abs_le] at habs ⊢
    constructor <;> linarith [habs.1, habs.2]
  · rw [abs_of_nonneg (not_lt.mp hneg)] at habs ⊢
    rwa [one_mul]

/-- A number with no more digits than the text is read back as it was. -/
theorem shown_eq {places : ℕ} {x : ℚ} {k : ℤ} (hx : x * 10 ^ places = k) :
    n.shown places x = x := by
  have hpow : (0 : ℚ) < 10 ^ places := by positivity
  have hunits : |x| * 10 ^ places = (k.natAbs : ℚ) := by
    rw [Nat.cast_natAbs, Int.cast_abs, ← hx, abs_mul, abs_of_pos hpow]
  rw [shown, hunits, n.round_natCast, ← hunits, mul_div_cancel_right₀ _ hpow.ne']
  split_ifs with hneg
  · rw [abs_of_neg hneg]
    ring
  · rw [abs_of_nonneg (not_lt.mp hneg), one_mul]

end Nearest

/-! ## One number -/

/-- The decimal digits of a number, with zeros in front up to `places` of them. -/
def padded (places k : ℕ) : List Char :=
  .replicate (places - (Nat.toDigits 10 k).length) '0' ++ Nat.toDigits 10 k

/-- The number `x` with `places` digits behind the point. -/
def fixed (n : Nearest) (places : ℕ) (x : ℚ) : List Char :=
  let units := n.round (|x| * 10 ^ places)
  (if x < 0 then ['-'] else []) ++
    (Nat.toDigits 10 (units / 10 ^ places) ++ '.' :: padded places (units % 10 ^ places))

/-- Digits, or digits with a point between them. -/
def readUnsigned (word : List Char) : Option ℚ :=
  let value := fun whole fraction : List Char =>
    if whole ≠ [] ∧ (whole ++ fraction).all Char.isDigit then
      some ((Nat.ofDigitChars 10 (whole ++ fraction) 0 : ℚ) / 10 ^ fraction.length)
    else none
  match word.splitOn '.' with
  | [whole] => value whole []
  | [whole, fraction] => value whole fraction
  | _ => none

def readNumber (word : List Char) : Option ℚ :=
  if word.head? = some '-' then (readUnsigned word.tail).map Neg.neg else readUnsigned word

theorem isDigit_of_mem_toDigits {k : ℕ} {c : Char} (hc : c ∈ Nat.toDigits 10 k) : c.isDigit :=
  Nat.isDigit_of_mem_toDigits (by norm_num) le_rfl hc

theorem isDigit_of_mem_padded {places k : ℕ} {c : Char} (hc : c ∈ padded places k) :
    c.isDigit := by
  rcases List.mem_append.mp hc with hc | hc
  · rw [List.eq_of_mem_replicate hc]
    rfl
  · exact isDigit_of_mem_toDigits hc

theorem length_padded {places k : ℕ} (hplaces : 0 < places) (hk : k < 10 ^ places) :
    (padded places k).length = places := by
  have hle := (Nat.length_toDigits_le_iff (by norm_num : 1 < 10) hplaces).mpr hk
  rw [padded, List.length_append, List.length_replicate]
  omega

/-- The zeros in front count for nothing. -/
theorem ofDigitChars_padded {places k : ℕ} (hplaces : 0 < places) (hk : k < 10 ^ places)
    (front : ℕ) : Nat.ofDigitChars 10 (padded places k) front = 10 ^ places * front + k := by
  have hlength := length_padded hplaces hk
  rw [Nat.ofDigitChars_eq_ofDigitChars_zero, hlength, padded, Nat.ofDigitChars_append,
    Nat.ofDigitChars_replicate_zero, Nat.mul_zero,
    Nat.ofDigitChars_toDigits (by norm_num) le_rfl]

theorem dot_notMem_of_isDigit {w : List Char} (hw : ∀ c ∈ w, c.isDigit) : '.' ∉ w := fun hmem =>
  absurd (hw '.' hmem) (by decide)

/-- What is read from the digits of a number of units. -/
theorem readUnsigned_units {places : ℕ} (hplaces : 0 < places) (units : ℕ) :
    readUnsigned (Nat.toDigits 10 (units / 10 ^ places) ++
      '.' :: padded places (units % 10 ^ places)) = some ((units : ℚ) / 10 ^ places) := by
  have hfraction : units % 10 ^ places < 10 ^ places := Nat.mod_lt _ (by positivity)
  have hwhole : ∀ c ∈ Nat.toDigits 10 (units / 10 ^ places), c.isDigit :=
    fun c hc => isDigit_of_mem_toDigits hc
  have hpadded : ∀ c ∈ padded places (units % 10 ^ places), c.isDigit :=
    fun c hc => isDigit_of_mem_padded hc
  have hsplit : (Nat.toDigits 10 (units / 10 ^ places) ++
      '.' :: padded places (units % 10 ^ places)).splitOn '.' =
        [Nat.toDigits 10 (units / 10 ^ places), padded places (units % 10 ^ places)] := by
    rw [List.splitOn_append_cons_self_of_not_mem (dot_notMem_of_isDigit hwhole),
      List.splitOn_eq_singleton (dot_notMem_of_isDigit hpadded)]
  have hdigits : (Nat.toDigits 10 (units / 10 ^ places) ++
      padded places (units % 10 ^ places)).all Char.isDigit := by
    rw [List.all_append, List.all_eq_true.mpr hwhole, List.all_eq_true.mpr hpadded]
    rfl
  rw [readUnsigned, hsplit]
  simp only
  rw [if_pos ⟨Nat.toDigits_ne_nil, hdigits⟩, Nat.ofDigitChars_append,
    Nat.ofDigitChars_toDigits (by norm_num) le_rfl, ofDigitChars_padded hplaces hfraction,
    Nat.div_add_mod, length_padded hplaces hfraction]

theorem head?_toDigits_ne_minus (k : ℕ) (w : List Char) :
    (Nat.toDigits 10 k ++ w).head? ≠ some '-' := by
  intro hhead
  obtain ⟨c, l, hdigits⟩ := List.exists_cons_of_ne_nil (Nat.toDigits_ne_nil (n := k) (b := 10))
  rw [hdigits, List.cons_append, List.head?_cons, Option.some.injEq] at hhead
  have hdigit : c.isDigit := isDigit_of_mem_toDigits (by rw [hdigits]; exact List.mem_cons_self)
  rw [hhead] at hdigit
  exact absurd hdigit (by decide)

/-- The round trip: the text of a number is read as the number rounded to its digits. -/
theorem readNumber_fixed (n : Nearest) {places : ℕ} (hplaces : 0 < places) (x : ℚ) :
    readNumber (fixed n places x) = some (n.shown places x) := by
  have hunits := readUnsigned_units hplaces (n.round (|x| * 10 ^ places))
  by_cases hneg : x < 0
  · simp [readNumber, fixed, Nearest.shown, hneg, hunits]
  · have hfixed : fixed n places x = Nat.toDigits 10 (n.round (|x| * 10 ^ places) / 10 ^ places) ++
        '.' :: padded places (n.round (|x| * 10 ^ places) % 10 ^ places) := by
      rw [fixed, if_neg hneg, List.nil_append]
    rw [hfixed, readNumber, if_neg (head?_toDigits_ne_minus _ _), hunits, Nearest.shown,
      if_neg hneg, one_mul]

theorem readNumber_toDigits (k : ℕ) : readNumber (Nat.toDigits 10 k) = some (k : ℚ) := by
  have hdigits : ∀ c ∈ Nat.toDigits 10 k, c.isDigit := fun c hc => isDigit_of_mem_toDigits hc
  have hhead := head?_toDigits_ne_minus k []
  rw [List.append_nil] at hhead
  rw [readNumber, if_neg hhead, readUnsigned,
    List.splitOn_eq_singleton (dot_notMem_of_isDigit hdigits)]
  simp only [List.append_nil]
  rw [if_pos ⟨Nat.toDigits_ne_nil, List.all_eq_true.mpr hdigits⟩,
    Nat.ofDigitChars_toDigits (by norm_num) le_rfl, List.length_nil, pow_zero, div_one]

/-! ## Tables -/

/-- What stands between the numbers of a line. -/
def blank (c : Char) : Bool := c = ' ' || c = ',' || c = '\r'

/-- The words of a line. -/
def words (line : List Char) : List (List Char) := (line.splitOnP blank).filter (· ≠ [])

/-- The numbers of each line that has any. -/
def readTable (text : List Char) : Option (List (List ℚ)) :=
  (((text.splitOn '\n').map words).filter (· ≠ [])).mapM fun line => line.mapM readNumber

/-- A word has characters, and no blank among them. -/
structure IsWord (w : List Char) : Prop where
  ne_nil : w ≠ []
  blank : ∀ c ∈ w, blank c = false
  line : '\n' ∉ w

theorem isDigit_not_blank {c : Char} (hc : c.isDigit) : blank c = false ∧ c ≠ '\n' := by
  refine ⟨?_, fun h => ?_⟩
  · by_contra hblank
    rw [Bool.not_eq_false, blank, Bool.or_eq_true, Bool.or_eq_true] at hblank
    rcases hblank with (hblank | hblank) | hblank <;>
      exact absurd (of_decide_eq_true hblank ▸ hc) (by decide)
  · exact absurd (h ▸ hc) (by decide)

theorem isWord_toDigits (k : ℕ) : IsWord (Nat.toDigits 10 k) where
  ne_nil := Nat.toDigits_ne_nil
  blank := fun _ hc => (isDigit_not_blank (isDigit_of_mem_toDigits hc)).1
  line := fun hmem => (isDigit_not_blank (isDigit_of_mem_toDigits hmem)).2 rfl

theorem mem_fixed {n : Nearest} {places : ℕ} {x : ℚ} {c : Char} (hc : c ∈ fixed n places x) :
    c = '-' ∨ c = '.' ∨ c.isDigit := by
  rw [fixed, List.mem_append, List.mem_append, List.mem_cons] at hc
  rcases hc with hc | hc | hc | hc
  · split_ifs at hc
    · exact .inl (List.mem_singleton.mp hc)
    · exact absurd hc List.not_mem_nil
  · exact .inr (.inr (isDigit_of_mem_toDigits hc))
  · exact .inr (.inl hc)
  · exact .inr (.inr (isDigit_of_mem_padded hc))

theorem isWord_fixed (n : Nearest) (places : ℕ) (x : ℚ) : IsWord (fixed n places x) where
  ne_nil := by simp [fixed]
  blank := fun _ hc => by
    rcases mem_fixed hc with rfl | rfl | hdigit
    · rfl
    · rfl
    · exact (isDigit_not_blank hdigit).1
  line := fun hmem => by
    rcases mem_fixed hmem with hc | hc | hdigit
    · exact absurd hc (by decide)
    · exact absurd hc (by decide)
    · exact (isDigit_not_blank hdigit).2 rfl

/-- Blanks in front are skipped. -/
theorem words_blanks_append {blanks : List Char} (h : ∀ c ∈ blanks, blank c) (line : List Char) :
    words (blanks ++ line) = words line := by
  induction blanks with
  | nil => rfl
  | cons c blanks ih =>
    have hrest := ih fun d hd => h d (List.mem_cons_of_mem c hd)
    rw [words, List.cons_append, List.splitOnP_cons_eq_if_modifyHead,
      if_pos (h c List.mem_cons_self)]
    exact hrest

theorem words_blanks {blanks : List Char} (h : ∀ c ∈ blanks, blank c) : words blanks = [] := by
  have hwords := words_blanks_append h []
  rwa [List.append_nil] at hwords

/-- A word ends at the first blank behind it. -/
theorem words_append {w blanks : List Char} (hw : IsWord w) (hne : blanks ≠ [])
    (h : ∀ c ∈ blanks, blank c) (line : List Char) :
    words (w ++ (blanks ++ line)) = w :: words line := by
  obtain ⟨c, blanks, rfl⟩ := List.exists_cons_of_ne_nil hne
  have hrest := words_blanks_append (fun d hd => h d (List.mem_cons_of_mem c hd)) line
  rw [words, List.cons_append, List.splitOnP_append_cons_of_forall_mem hw.blank c
    (h c List.mem_cons_self), List.filter_cons_of_pos (by simpa using hw.ne_nil)]
  exact congrArg (w :: ·) hrest

/-- A line of words, each with blanks behind it, and more blanks at its end. -/
theorem words_line {ws : List (List Char)} {blanks last : List Char} (hws : ∀ w ∈ ws, IsWord w)
    (hne : blanks ≠ []) (hblanks : ∀ c ∈ blanks, blank c) (hlast : ∀ c ∈ last, blank c) :
    words (ws.flatMap (· ++ blanks) ++ last) = ws := by
  induction ws with
  | nil => exact words_blanks hlast
  | cons w ws ih =>
    obtain ⟨hw, hws⟩ := List.forall_mem_cons.mp hws
    rw [List.flatMap_cons, List.append_assoc, List.append_assoc, words_append hw hne hblanks,
      ih hws]

theorem splitOn_lines {lines : List (List Char)} (h : ∀ l ∈ lines, '\n' ∉ l) (last : List Char) :
    (lines.flatMap (· ++ ['\n']) ++ last).splitOn '\n' = lines ++ last.splitOn '\n' := by
  induction lines with
  | nil => rfl
  | cons l lines ih =>
    obtain ⟨hl, hlines⟩ := List.forall_mem_cons.mp h
    rw [List.flatMap_cons, List.append_assoc, List.append_assoc, List.singleton_append,
      List.splitOn_append_cons_self_of_not_mem hl, ih hlines, List.cons_append]

theorem mapM_eq_some {α β : Type} {f : α → Option β} {e : α → β} {l : List α}
    (h : ∀ a ∈ l, f a = some (e a)) : l.mapM f = some (l.map e) := by
  induction l with
  | nil => rfl
  | cons a l ih =>
    obtain ⟨ha, hl⟩ := List.forall_mem_cons.mp h
    rw [List.mapM_cons, ha, ih hl]
    rfl

/-- A text of lines, each of which has the words of one row. -/
theorem readTable_lines {α : Type} {rows : List (List α)} {line : List α → List Char}
    (word : α → List Char) (value : α → ℚ) (hrows : ∀ row ∈ rows, row ≠ [])
    (hline : ∀ row ∈ rows, '\n' ∉ line row ∧ words (line row) = row.map word)
    (hword : ∀ a, readNumber (word a) = some (value a)) :
    readTable (rows.flatMap fun row => line row ++ ['\n']) =
      some (rows.map fun row => row.map value) := by
  have hsplit : (rows.flatMap fun row => line row ++ ['\n']).splitOn '\n' =
      rows.map line ++ [[]] := by
    have hnone : ∀ l ∈ rows.map line, '\n' ∉ l := by
      intro l hl
      obtain ⟨row, hrow, rfl⟩ := List.mem_map.mp hl
      exact (hline row hrow).1
    have hlines := splitOn_lines hnone []
    rwa [List.append_nil, List.flatMap_map] at hlines
  have hwords : (rows.map line).map words = rows.map fun row => row.map word := by
    rw [List.map_map]
    exact List.map_congr_left fun row hrow => (hline row hrow).2
  have hkept : (rows.map fun row => row.map word).filter (· ≠ []) =
      rows.map fun row => row.map word := by
    refine List.filter_eq_self.mpr fun l hl => ?_
    obtain ⟨row, hrow, rfl⟩ := List.mem_map.mp hl
    simpa using hrows row hrow
  rw [readTable, hsplit, List.map_append, List.filter_append, hwords, hkept,
    show (List.map words [[]]).filter (· ≠ []) = [] from rfl, List.append_nil, List.mapM_map]
  refine mapM_eq_some fun row _ => ?_
  rw [Function.comp_apply, List.mapM_map]
  exact mapM_eq_some fun a _ => hword a

/-- A text of one line that is not ended. -/
theorem readTable_line {α : Type} {row : List α} {line : List Char} {word : α → List Char}
    {value : α → ℚ} (hrow : row ≠ []) (hline : '\n' ∉ line) (hwords : words line = row.map word)
    (hword : ∀ a, readNumber (word a) = some (value a)) :
    readTable line = some [row.map value] := by
  have hkept : [row.map word].filter (· ≠ []) = [row.map word] := by simpa using hrow
  have hread : row.mapM (readNumber ∘ word) = some (row.map value) :=
    mapM_eq_some fun a _ => hword a
  rw [readTable, List.splitOn_eq_singleton hline, List.map_singleton, hwords, hkept,
    List.mapM_cons, List.mapM_map, hread]
  rfl

end HadamardIMS.Decimals
