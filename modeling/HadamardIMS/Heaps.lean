import Mathlib.Algebra.Order.BigOperators.Group.List
import Mathlib.Data.List.Nodup
import Mathlib.Data.Nat.Notation
import Mathlib.Tactic.Common
import Mathlib.Tactic.Ring

/-!
# A heap of bounded size

The heap is the list of its live blocks, each with its number and its size in
bytes. A request is refused exactly when it would exceed the capacity, so the
bound on the total size is a field of the heap and not a theorem about it.
-/
namespace HadamardIMS.Heaps

/-- Live blocks with distinct numbers whose sizes fit together. -/
structure Heap where
  capacity : ℕ
  live : List (ℕ × ℕ)
  nextBlock : ℕ
  fits : (live.map Prod.snd).sum ≤ capacity
  fresh : ∀ p ∈ live, p.1 < nextBlock
  distinct : (live.map Prod.fst).Nodup

namespace Heap

/-- The total size of the live blocks. -/
def used (h : Heap) : ℕ := (h.live.map Prod.snd).sum

/-- The heap before the first request. -/
def empty (capacity : ℕ) : Heap where
  capacity := capacity
  live := []
  nextBlock := 0
  fits := by simp
  fresh := by simp
  distinct := by simp

/-- `malloc`: the number of the new block, or `NULL`. -/
def malloc (h : Heap) (size : ℕ) : Option (ℕ × Heap) :=
  if hfit : h.used + size ≤ h.capacity then
    some (h.nextBlock, {
      capacity := h.capacity
      live := (h.nextBlock, size) :: h.live
      nextBlock := h.nextBlock + 1
      fits := by
        rw [List.map_cons, List.sum_cons, Nat.add_comm]
        exact hfit
      fresh := by
        intro p hp
        rcases List.mem_cons.mp hp with rfl | hp
        · exact Nat.lt_succ_self _
        · exact Nat.lt_succ_of_lt (h.fresh p hp)
      distinct := by
        rw [List.map_cons, List.nodup_cons]
        refine ⟨fun hmem => ?_, h.distinct⟩
        obtain ⟨p, hp, hnext⟩ := List.mem_map.mp hmem
        exact absurd (h.fresh p hp) (by omega) })
  else none

/-- `free` of a block; a number that is not live is ignored. -/
def free (h : Heap) (b : ℕ) : Heap where
  capacity := h.capacity
  live := h.live.filter fun p => p.1 ≠ b
  nextBlock := h.nextBlock
  fits := ((List.filter_sublist.map Prod.snd).sum_le_sum fun _ _ => Nat.zero_le _).trans h.fits
  fresh := fun p hp => h.fresh p (List.mem_of_mem_filter hp)
  distinct := (List.filter_sublist.map Prod.fst).nodup h.distinct

@[simp] theorem used_empty (capacity : ℕ) : (empty capacity).used = 0 := rfl

@[simp] theorem capacity_free (h : Heap) (b : ℕ) : (h.free b).capacity = h.capacity := rfl

/-- The requests that are refused. -/
theorem malloc_eq_none_iff (h : Heap) (size : ℕ) :
    h.malloc size = none ↔ h.capacity < h.used + size := by
  unfold malloc
  split_ifs with hfit
  · simp only [false_iff]
    omega
  · simp only [true_iff]
    omega

/-- A request that is granted adds one live block. -/
theorem malloc_eq_some {h h' : Heap} {size b : ℕ} (hm : h.malloc size = some (b, h')) :
    h'.live = (b, size) :: h.live ∧ b = h.nextBlock ∧ h'.capacity = h.capacity := by
  unfold malloc at hm
  split_ifs at hm
  cases hm
  exact ⟨rfl, rfl, rfl⟩

theorem used_malloc {h h' : Heap} {size b : ℕ} (hm : h.malloc size = some (b, h')) :
    h'.used = h.used + size := by
  rw [used, (malloc_eq_some hm).1, List.map_cons, List.sum_cons, Nat.add_comm]
  rfl

theorem used_le (h : Heap) : h.used ≤ h.capacity := h.fits

/-- Freeing a live block gives back its size. -/
theorem used_free {h : Heap} {b size : ℕ} (hb : (b, size) ∈ h.live) :
    (h.free b).used + size = h.used := by
  have key : ∀ l : List (ℕ × ℕ), (b, size) ∈ l → (l.map Prod.fst).Nodup →
      ((l.filter fun p => p.1 ≠ b).map Prod.snd).sum + size = (l.map Prod.snd).sum := by
    intro l
    induction l with
    | nil => exact nofun
    | cons p l ih =>
      intro hmem hnodup
      rw [List.map_cons, List.nodup_cons] at hnodup
      rcases List.mem_cons.mp hmem with rfl | hmem
      · -- The block is at the head; no later entry carries its number.
        have hrest : l.filter (fun p => p.1 ≠ b) = l := List.filter_eq_self.mpr fun p hp => by
          simp only [ne_eq, decide_not, Bool.not_eq_eq_eq_not, Bool.not_true, decide_eq_false_iff_not]
          exact fun heq => hnodup.1 (List.mem_map.mpr ⟨p, hp, heq⟩)
        rw [List.filter_cons_of_neg (by simp), hrest, List.map_cons, List.sum_cons, Nat.add_comm]
      · have hne : p.1 ≠ b := fun heq => hnodup.1 (List.mem_map.mpr ⟨_, hmem, heq.symm⟩)
        rw [List.filter_cons_of_pos (by simpa using hne), List.map_cons, List.map_cons,
          List.sum_cons, List.sum_cons, Nat.add_assoc, ih hmem hnodup.2]
  exact key h.live hb h.distinct

theorem mem_free {h : Heap} {b : ℕ} {p : ℕ × ℕ} (hp : p ∈ h.live) (hne : p.1 ≠ b) :
    p ∈ (h.free b).live :=
  List.mem_filter.mpr ⟨hp, by simpa using hne⟩

/-- `n` requests of one size; `none` as soon as one is refused. -/
def mallocMany (size : ℕ) : ℕ → Heap → Option (List ℕ × Heap)
  | 0, h => some ([], h)
  | n + 1, h => do
    let (b, h) ← h.malloc size
    let (bs, h) ← mallocMany size n h
    some (b :: bs, h)

/-- The blocks of a series of requests are live afterwards, different from each
other and from every block of before. -/
theorem mallocMany_eq_some {size n : ℕ} {h h' : Heap} {bs : List ℕ}
    (hm : mallocMany size n h = some (bs, h')) :
    h'.used = h.used + n * size ∧ h'.capacity = h.capacity ∧ bs.length = n ∧ bs.Nodup ∧
      (∀ b ∈ bs, (b, size) ∈ h'.live) ∧ (∀ b ∈ bs, h.nextBlock ≤ b) ∧
      ∀ p ∈ h.live, p ∈ h'.live := by
  induction n generalizing h bs with
  | zero =>
    cases hm
    simp
  | succ n ih =>
    simp only [mallocMany, Option.bind_eq_bind, Option.bind_eq_some_iff, Prod.exists] at hm
    obtain ⟨b, h₁, hfirst, bs', h₂, hrest, hcons⟩ := hm
    cases hcons
    obtain ⟨hused, hcapacity, hlength, hnodup, hlive, hlow, hkeep⟩ := ih hrest
    obtain ⟨hcell, hb, hsame⟩ := malloc_eq_some hfirst
    have hnext : h₁.nextBlock = h.nextBlock + 1 := by
      unfold malloc at hfirst
      split_ifs at hfirst
      cases hfirst
      rfl
    rw [used_malloc hfirst] at hused
    refine ⟨by rw [hused]; ring, hcapacity.trans hsame, by simp [hlength],
      List.nodup_cons.mpr ⟨fun hmem => ?_, hnodup⟩, ?_, ?_,
      fun p hp => hkeep p (by rw [hcell]; exact List.mem_cons_of_mem _ hp)⟩
    · have := hlow b hmem
      omega
    · refine List.forall_mem_cons.mpr ⟨hkeep _ (by rw [hcell]; exact List.mem_cons_self), hlive⟩
    · refine List.forall_mem_cons.mpr ⟨hb.ge, fun c hc => ?_⟩
      have := hlow c hc
      omega

/-- Freeing different live blocks of one size. -/
theorem used_foldl_free {size : ℕ} {bs : List ℕ} {h : Heap} (hnodup : bs.Nodup)
    (hlive : ∀ b ∈ bs, (b, size) ∈ h.live) :
    (bs.foldl free h).used + bs.length * size = h.used := by
  induction bs generalizing h with
  | nil => simp
  | cons b bs ih =>
    obtain ⟨hb, hnodup⟩ := List.nodup_cons.mp hnodup
    obtain ⟨hhead, htail⟩ := List.forall_mem_cons.mp hlive
    have hrest := ih (h := h.free b) hnodup fun c hc =>
      mem_free (htail c hc) fun heq => hb (heq ▸ hc)
    have hfree := used_free hhead
    rw [List.foldl_cons, List.length_cons, Nat.succ_mul]
    omega

/-- Freeing other blocks keeps a block live. -/
theorem mem_foldl_free {bs : List ℕ} {h : Heap} {p : ℕ × ℕ} (hp : p ∈ h.live) (hne : p.1 ∉ bs) :
    p ∈ (bs.foldl free h).live := by
  induction bs generalizing h with
  | nil => exact hp
  | cons b bs ih =>
    rw [List.mem_cons, not_or] at hne
    exact ih (mem_free hp hne.1) hne.2

theorem capacity_foldl_free (bs : List ℕ) (h : Heap) :
    (bs.foldl free h).capacity = h.capacity := by
  induction bs generalizing h with
  | nil => rfl
  | cons b bs ih => rw [List.foldl_cons, ih, capacity_free]

end Heap

end HadamardIMS.Heaps
