import Mathlib.Data.List.Range
import Mathlib.Data.Nat.Notation
import Mathlib.Tactic.Common

/-!
# Bursts of a timer interrupt that switches itself off

An update of the timer sets its flag and puts the preloaded compare value into
effect. The handler writes the next value of a list that is numbered by a
counter, and disables its own interrupt at the last one. Nothing else is known
about the order in which the updates meet the commands that start the burst.
-/
namespace HadamardIMS.Bursts

/-- The registers of a timer: the update flag, the enable bit of its interrupt
and the preloaded compare value. -/
structure Timer where
  uif : Bool
  uie : Bool
  ccr1 : ℕ
  deriving Repr, DecidableEq

/-- A timer with the counter of its handler. The value that each run of the
handler left and the value that each update put into effect are kept, the newest
first. -/
structure Channel where
  timer : Timer
  count : ℕ
  runs : List ℕ
  periods : List ℕ
  deriving Repr, DecidableEq

/-- What happens to a channel from outside its handler. -/
inductive Event where
  | reset
  | clear
  | enable
  | update
  deriving Repr, DecidableEq

variable {f : ℕ → ℕ} {last : ℕ}

namespace Channel

/-- The interrupt of the timer is raised. -/
def Pending (c : Channel) : Prop := c.timer.uif = true ∧ c.timer.uie = true

instance (c : Channel) : Decidable c.Pending := inferInstanceAs (Decidable (_ ∧ _))

/-- The handler runs when the interrupt is raised. -/
def serve (f : ℕ → ℕ) (last : ℕ) (c : Channel) : Channel :=
  if c.Pending then
    { timer := ⟨false, decide (c.count ≠ last), f c.count⟩
      count := c.count + 1
      runs := f c.count :: c.runs
      periods := c.periods }
  else c

/-- The effect of an event before the interrupt is served. -/
def apply (c : Channel) : Event → Channel
  | .reset => { c with count := 0 }
  | .clear => { c with timer := ⟨false, c.timer.uie, c.timer.ccr1⟩ }
  | .enable => { c with timer := ⟨c.timer.uif, true, c.timer.ccr1⟩ }
  | .update =>
    { c with timer := ⟨true, c.timer.uie, c.timer.ccr1⟩, periods := c.timer.ccr1 :: c.periods }

/-- An event and the interrupt that it may raise. -/
def step (f : ℕ → ℕ) (last : ℕ) (c : Channel) (e : Event) : Channel := (c.apply e).serve f last

/-- A sequence of events. -/
def exec (f : ℕ → ℕ) (last : ℕ) (c : Channel) (es : List Event) : Channel :=
  es.foldl (step f last) c

/-- The channel with nothing in its records. -/
def fresh (c : Channel) : Channel := { c with runs := [], periods := [] }

@[simp] theorem exec_cons (c : Channel) (e : Event) (es : List Event) :
    exec f last c (e :: es) = exec f last (step f last c e) es := rfl

theorem exec_append (c : Channel) (es es' : List Event) :
    exec f last c (es ++ es') = exec f last (exec f last c es) es' := List.foldl_append

theorem serve_of_not_pending {c : Channel} (hc : ¬c.Pending) : c.serve f last = c := if_neg hc

theorem serve_of_pending {c : Channel} (hc : c.Pending) : c.serve f last =
    ⟨⟨false, decide (c.count ≠ last), f c.count⟩, c.count + 1, f c.count :: c.runs, c.periods⟩ :=
  if_pos hc

/-- After the handler nothing is pending. -/
theorem not_pending_serve (c : Channel) : ¬(c.serve f last).Pending := by
  unfold serve
  split_ifs with hc
  · rintro ⟨huif, -⟩
    exact Bool.false_ne_true huif
  · exact hc

/-- An interrupt that is off has left the value `v` in the compare register. -/
def Rested (v : ℕ) (c : Channel) : Prop := c.timer.uie = false → c.timer.ccr1 = v

/-- Only the last run of the handler switches the interrupt off. -/
theorem Rested.serve {v : ℕ} {c : Channel} (hv : f last = v) (hc : c.Rested v) :
    (c.serve f last).Rested v := by
  unfold Channel.serve
  split_ifs with hp
  · intro hoff
    have hcount : c.count = last := by simpa using hoff
    exact (congrArg f hcount).trans hv
  · exact hc

theorem Rested.apply {v : ℕ} {c : Channel} (hc : c.Rested v) (e : Event) :
    (c.apply e).Rested v := by
  cases e with
  | enable => exact fun hoff => absurd hoff.symm Bool.false_ne_true
  | _ => exact hc

end Channel

open Channel

/-! ## The phases of a burst -/

/-- The value in effect at the `i`-th update when the first run of the handler
came with update `b`, counted from one. -/
def wave (f : ℕ → ℕ) (last idle b i : ℕ) : ℕ := if i < b then idle else f (min (i - b) last)

/-- The interrupt is off, and `b` updates have put the idle value into effect. -/
structure Dormant (idle b : ℕ) (c : Channel) : Prop where
  uie : c.timer.uie = false
  ccr1 : c.timer.ccr1 = idle
  runs : c.runs = []
  periods : c.periods = List.replicate b idle

/-- The interrupt is on, and no update has raised it yet. -/
structure Armed (idle b : ℕ) (c : Channel) : Prop where
  uif : c.timer.uif = false
  uie : c.timer.uie = true
  ccr1 : c.timer.ccr1 = idle
  count : c.count = 0
  runs : c.runs = []
  periods : c.periods = List.replicate b idle

/-- The handler has run, and `m` updates came after its first run. -/
structure Started (f : ℕ → ℕ) (last idle b m : ℕ) (c : Channel) : Prop where
  settled : ¬c.Pending
  uie : c.timer.uie = decide (m < last)
  ccr1 : c.timer.ccr1 = f (min m last)
  count : c.count = min m last + 1
  runs : c.runs = ((List.range (min m last + 1)).map f).reverse
  periods : c.periods = ((List.range (b + m)).map (wave f last idle b)).reverse

variable {idle b m : ℕ} {c : Channel}

theorem wave_of_lt {i : ℕ} (hi : i < b) : wave f last idle b i = idle := if_pos hi

theorem wave_add (f : ℕ → ℕ) (last idle b i : ℕ) : wave f last idle b (b + i) = f (min i last) := by
  rw [wave, if_neg (by omega), Nat.add_sub_cancel_left]

/-- Until the first run the idle value stays in effect. -/
theorem map_wave_range (f : ℕ → ℕ) (last idle b : ℕ) :
    ((List.range b).map (wave f last idle b)).reverse = List.replicate b idle := by
  have hidle : (List.range b).map (wave f last idle b) = (List.range b).map fun _ => idle := by
    apply List.map_congr_left
    intro i hi
    exact wave_of_lt (List.mem_range.mp hi)
  rw [hidle, List.map_const', List.length_range, List.reverse_replicate]

theorem Dormant.not_pending (hc : Dormant idle b c) : ¬c.Pending := by
  rintro ⟨-, huie⟩
  rw [hc.uie] at huie
  exact Bool.false_ne_true huie

theorem Dormant.apply (hc : Dormant idle b c) {e : Event} (he : e ≠ .enable) :
    Dormant idle (b + [e].count .update) (c.apply e) := by
  cases e with
  | enable => exact absurd rfl he
  | reset => exact ⟨hc.uie, hc.ccr1, hc.runs, hc.periods⟩
  | clear => exact ⟨hc.uie, hc.ccr1, hc.runs, hc.periods⟩
  | update =>
    refine ⟨hc.uie, hc.ccr1, hc.runs, ?_⟩
    change c.timer.ccr1 :: c.periods = _
    rw [hc.ccr1, hc.periods]
    rfl

/-- A dormant channel does nothing but record the event. -/
theorem Dormant.step_eq (f : ℕ → ℕ) (last : ℕ) (hc : Dormant idle b c) {e : Event}
    (he : e ≠ .enable) : c.step f last e = c.apply e :=
  serve_of_not_pending (hc.apply he).not_pending

/-- Only the enable bit ends the dormant phase, and a counter that has been reset
stays at zero in it. -/
theorem Dormant.exec (f : ℕ → ℕ) (last : ℕ) (hc : Dormant idle b c) {es : List Event}
    (hes : .enable ∉ es) :
    Dormant idle (b + es.count .update) (c.exec f last es) ∧
      (c.count = 0 ∨ .reset ∈ es → (c.exec f last es).count = 0) := by
  induction es generalizing b c with
  | nil => exact ⟨hc, fun h => h.resolve_right List.not_mem_nil⟩
  | cons e es ih =>
    rw [List.mem_cons, not_or] at hes
    have he : e ≠ .enable := Ne.symm hes.1
    obtain ⟨hphase, hcount⟩ := ih (hc.apply he) hes.2
    rw [Nat.add_assoc, ← List.count_append, List.singleton_append] at hphase
    rw [exec_cons, hc.step_eq f last he]
    refine ⟨hphase, fun hzero => hcount ?_⟩
    cases e with
    | reset => exact .inl rfl
    | _ => exact hzero.imp_right fun hmem => by simpa using hmem

/-- The first run of the handler. -/
theorem first_run (hpending : c.Pending) (hcount : c.count = 0) (hruns : c.runs = [])
    (hperiods : c.periods = List.replicate b idle) :
    Started f last idle b 0 (c.serve f last) := by
  refine ⟨not_pending_serve _, ?_, ?_, ?_, ?_, ?_⟩ <;> rw [Channel.serve, if_pos hpending]
  · simp [hcount, Nat.pos_iff_ne_zero, eq_comm]
  · simp [hcount]
  · simp [hcount]
  · simp [hcount, hruns]
  · exact hperiods.trans (map_wave_range f last idle b).symm

/-- Enabling raises the interrupt at once when an update is pending. -/
theorem Dormant.enable_pending (f : ℕ → ℕ) (last : ℕ) (hc : Dormant idle b c)
    (hcount : c.count = 0) (huif : c.timer.uif = true) :
    Started f last idle b 0 (c.step f last .enable) :=
  first_run ⟨huif, rfl⟩ hcount hc.runs hc.periods

theorem Dormant.enable (f : ℕ → ℕ) (last : ℕ) (hc : Dormant idle b c) (hcount : c.count = 0)
    (huif : c.timer.uif = false) : Armed idle b (c.step f last .enable) := by
  have hquiet : ¬(c.apply .enable).Pending := by
    rintro ⟨hpending, -⟩
    exact Bool.false_ne_true (huif.symm.trans hpending)
  rw [Channel.step, serve_of_not_pending hquiet]
  exact ⟨huif, rfl, hc.ccr1, hcount, hc.runs, hc.periods⟩

/-- The first update of an armed channel. It finds the idle value in the register
before it raises the interrupt. -/
theorem Armed.update (f : ℕ → ℕ) (last : ℕ) (hc : Armed idle b c) :
    Started f last idle (b + 1) 0 (c.step f last .update) := by
  refine first_run ⟨rfl, hc.uie⟩ hc.count hc.runs ?_
  change c.timer.ccr1 :: c.periods = _
  rw [hc.ccr1, hc.periods]
  rfl

/-- One more update: the value that the last run left comes into effect, and the
handler runs again unless it has switched itself off. -/
theorem Started.update (hc : Started f last idle b m c) :
    Started f last idle b (m + 1) (c.step f last .update) := by
  have hperiods : c.timer.ccr1 :: c.periods =
      ((List.range (b + (m + 1))).map (wave f last idle b)).reverse := by
    rw [← Nat.add_assoc, List.range_succ, List.map_append, List.reverse_append, hc.ccr1,
      hc.periods,
      ← wave_add f last idle b m]
    rfl
  by_cases hm : m < last
  · have huie : c.timer.uie = true := hc.uie.trans (decide_eq_true hm)
    have hcount : c.count = m + 1 := by rw [hc.count, Nat.min_eq_left (by omega)]
    have hstep : c.step f last .update =
        ⟨⟨false, decide (c.count ≠ last), f c.count⟩, c.count + 1, f c.count :: c.runs,
          c.timer.ccr1 :: c.periods⟩ := if_pos ⟨rfl, huie⟩
    have hmin : min (m + 1) last = m + 1 := Nat.min_eq_left hm
    refine ⟨not_pending_serve _, ?_, ?_, ?_, ?_, ?_⟩ <;> rw [hstep]
    · rw [hcount]
      exact decide_eq_decide.mpr (by omega)
    · rw [hcount, hmin]
    · rw [hcount, hmin]
    · rw [hcount, hc.runs, hmin, Nat.min_eq_left (by omega), List.range_succ (n := m + 1),
        List.map_append, List.reverse_append]
      rfl
    · exact hperiods
  · have huie : c.timer.uie = false := hc.uie.trans (decide_eq_false hm)
    have hmin : min (m + 1) last = min m last := by omega
    have hoff : ¬(c.apply .update).Pending := by
      rintro ⟨-, hon⟩
      exact Bool.false_ne_true (huie.symm.trans hon)
    have hstep : c.step f last .update = c.apply .update := serve_of_not_pending hoff
    rw [hstep]
    refine ⟨hoff, ?_, ?_, ?_, ?_, hperiods⟩
    · exact huie.trans (decide_eq_false (by omega)).symm
    · rw [hmin]
      exact hc.ccr1
    · rw [hmin]
      exact hc.count
    · rw [hmin]
      exact hc.runs

theorem Started.updates (hc : Started f last idle b m c) (n : ℕ) :
    Started f last idle b (m + n) (c.exec f last (.replicate n .update)) := by
  induction n generalizing m c with
  | zero => exact hc
  | succ n ih =>
    rw [List.replicate_succ, exec_cons, ← Nat.add_assoc, Nat.add_right_comm]
    exact ih hc.update

theorem Armed.updates (f : ℕ → ℕ) (last : ℕ) (hc : Armed idle b c) (n : ℕ) :
    Started f last idle (b + 1) n (c.exec f last (.replicate (n + 1) .update)) := by
  have := (hc.update f last).updates n
  rwa [Nat.zero_add] at this

/-! ## Starting a burst -/

/-- A list of events without commands consists of updates. -/
theorem eq_replicate_of_filter {es : List Event} (hes : es.filter (· ≠ .update) = []) :
    es = .replicate es.length .update := by
  rw [List.filter_eq_nil_iff] at hes
  exact List.eq_replicate_of_mem fun e he => by simpa using hes e he

/-- However the updates fall between the commands of a start, the burst has run to
its end when enough of them have followed. -/
theorem Dormant.start (hc : Dormant idle b c) {es : List Event} {k n : ℕ}
    (hes : es.filter (· ≠ .update) = .reset :: (.replicate k .clear ++ [.enable]))
    (hn : last + 1 ≤ n) :
    ∃ b' m, last ≤ m ∧
      Started f last idle b' m (c.exec f last (es ++ .replicate n .update)) := by
  obtain ⟨pre, post, rfl, hpre, hpost⟩ : ∃ pre post, es = pre ++ .enable :: post ∧
      pre.filter (· ≠ .update) = .reset :: .replicate k .clear ∧
      post.filter (· ≠ .update) = [] := by
    rw [← List.cons_append] at hes
    obtain ⟨pre, rest, rfl, hpre, hrest⟩ := List.filter_eq_append_iff.mp hes
    obtain ⟨mid, post, rfl, hmid, -, hpost⟩ := List.filter_eq_cons_iff.mp hrest
    refine ⟨pre ++ mid, post, (List.append_assoc _ _ _).symm, ?_, hpost⟩
    rw [List.filter_append, hpre, List.filter_eq_nil_iff.mpr hmid, List.append_nil]
  have hreset : .reset ∈ pre :=
    List.mem_of_mem_filter (hpre ▸ List.mem_cons_self : _ ∈ pre.filter (· ≠ .update))
  have henable : .enable ∉ pre := by
    intro hmem
    have := hpre ▸ List.mem_filter.mpr ⟨hmem, by decide⟩
    simp at this
  obtain ⟨hphase, hzero⟩ := hc.exec f last henable
  have hexec : c.exec f last (pre ++ .enable :: post ++ .replicate n .update) =
      ((c.exec f last pre).step f last .enable).exec f last
        (.replicate (post.length + n) .update) := by
    rw [← List.replicate_append_replicate, ← eq_replicate_of_filter hpost]
    simp only [exec_append, exec_cons]
  rw [hexec]
  generalize c.exec f last pre = d at *
  cases huif : d.timer.uif with
  | true =>
    have := (hphase.enable_pending f last (hzero (.inr hreset)) huif).updates (post.length + n)
    exact ⟨_, _, by omega, this⟩
  | false =>
    obtain ⟨r, hr⟩ : ∃ r, post.length + n = r + 1 := ⟨post.length + n - 1, by omega⟩
    rw [hr]
    exact ⟨_, r, by omega, (hphase.enable f last (hzero (.inr hreset)) huif).updates f last r⟩

/-- The burst begins with the first update after the last time the flag was
cleared, whether that update comes before or after the enable bit. -/
theorem Dormant.burst (hc : Dormant idle b c) (pre : List Event) (hpre : .enable ∉ pre)
    (hreset : .reset ∈ pre) {i n : ℕ} (hi : i ≤ 1) (hn : i + n = m + 1) :
    Started f last idle (b + pre.count .update + 1) m
      (c.exec f last
        (pre ++ .clear :: (.replicate i .update ++ .enable :: .replicate n .update))) := by
  obtain ⟨hphase, hcount⟩ := hc.exec f last hpre
  rw [exec_append, exec_cons]
  generalize c.exec f last pre = d at *
  have hstep : d.step f last .clear = d.apply .clear := hphase.step_eq f last (by decide)
  have hclear : Dormant idle (b + pre.count .update) (d.apply .clear) :=
    hphase.apply (e := .clear) (by decide)
  have huif : (d.apply .clear).timer.uif = false := rfl
  have hzero : (d.apply .clear).count = 0 := hcount (.inr hreset)
  rw [hstep]
  generalize d.apply .clear = d' at *
  match i, hi with
  | 0, _ =>
    obtain rfl : n = m + 1 := by omega
    exact (hclear.enable f last hzero huif).updates f last m
  | 1, _ =>
    obtain rfl : n = m := by omega
    have hstep' : d'.step f last .update = d'.apply .update := hclear.step_eq f last (by decide)
    have hupdate := hclear.apply (e := .update) (by decide)
    have hstarted : Started f last idle (b + pre.count .update + 1) 0
        ((d'.apply .update).step f last .enable) := hupdate.enable_pending f last hzero rfl
    rw [← hstep'] at hstarted
    have := hstarted.updates n
    rwa [Nat.zero_add] at this

/-! ## The end of a burst -/

/-- The handler has run for every number up to the last and for no other. -/
theorem Started.runs_reverse (hc : Started f last idle b m c) (hm : last ≤ m) :
    c.runs.reverse = (List.range (last + 1)).map f := by
  rw [hc.runs, List.reverse_reverse, Nat.min_eq_right hm]

theorem Started.periods_reverse (hc : Started f last idle b m c) :
    c.periods.reverse = (List.range (b + m)).map (wave f last idle b) := by
  rw [hc.periods, List.reverse_reverse]

theorem Started.uie_eq_false (hc : Started f last idle b m c) (hm : last ≤ m) :
    c.timer.uie = false := hc.uie.trans (decide_eq_false (by omega))

theorem Started.ccr1_eq (hc : Started f last idle b m c) (hm : last ≤ m) :
    c.timer.ccr1 = f last := by rw [hc.ccr1, Nat.min_eq_right hm]

/-- When all values but the last are `v`, then `v` is in effect from the first run
on for one update after each of them. -/
theorem filter_wave {v N : ℕ} (hidle : idle ≠ v) (hlast : f last ≠ v) (hf : ∀ i < last, f i = v)
    (hN : b + last ≤ N) :
    (List.range N).filter (fun i => wave f last idle b i = v) =
      (List.range last).map (b + ·) := by
  obtain ⟨r, rfl⟩ := Nat.exists_eq_add_of_le hN
  have hbefore : (List.range b).filter (fun i => wave f last idle b i = v) = [] := by
    rw [List.filter_eq_nil_iff]
    intro i hi
    rw [wave_of_lt (List.mem_range.mp hi)]
    simpa using hidle
  have hduring : ((List.range last).map (b + ·)).filter (fun i => wave f last idle b i = v) =
      (List.range last).map (b + ·) := by
    rw [List.filter_eq_self]
    intro i hi
    obtain ⟨j, hj, rfl⟩ := List.mem_map.mp hi
    have hj : j < last := List.mem_range.mp hj
    rw [wave_add, Nat.min_eq_left (by omega), hf j hj]
    exact decide_eq_true rfl
  have hafter : ((List.range r).map (b + last + ·)).filter (fun i => wave f last idle b i = v) =
      [] := by
    rw [List.filter_eq_nil_iff]
    intro i hi
    obtain ⟨j, -, rfl⟩ := List.mem_map.mp hi
    rw [Nat.add_assoc, wave_add, Nat.min_eq_right (by omega)]
    simpa using hlast
  rw [List.range_add, List.range_add, List.filter_append, List.filter_append, hbefore, hduring,
    hafter, List.nil_append, List.append_nil]

/-- The number of updates at which a value that all runs but the last leave is in
effect. -/
theorem Started.count_periods {v : ℕ} (hc : Started f last idle b m c) (hm : last ≤ m)
    (hidle : idle ≠ v) (hlast : f last ≠ v) (hf : ∀ i < last, f i = v) :
    c.periods.count v = last := by
  have hN : b + last ≤ b + m := by omega
  have hlength := congrArg List.length (filter_wave hidle hlast hf hN)
  rw [List.length_map, List.length_range] at hlength
  rw [← List.count_reverse, hc.periods_reverse, List.count_eq_length_filter, List.filter_map,
    List.length_map]
  simpa [Function.comp_def, Bool.beq_eq_decide_eq, eq_comm] using hlength

end HadamardIMS.Bursts
