import Mathlib.Data.List.Basic
import Mathlib.Data.Nat.Notation
import Mathlib.Tactic.Common

/-!
# Runs of a machine driven by events

A machine answers an event with its next state, or not at all when the event
cannot happen or its program faults. A run keeps every state it has left together
with the event that ended it, the newest first, so that statements about the past
are statements about a list.
-/
namespace HadamardIMS.Runs

universe u v w x

variable {σ : Type u} {ε : Type v} {step : σ → ε → Option σ}

/-- `Run step s₀ h s`: from `s₀` the events of the history `h` lead to `s`. -/
inductive Run (step : σ → ε → Option σ) (s₀ : σ) : List (σ × ε) → σ → Prop
  | start : Run step s₀ [] s₀
  | next {h : List (σ × ε)} {s : σ} {e : ε} {s' : σ} :
      Run step s₀ h s → step s e = some s' → Run step s₀ ((s, e) :: h) s'

namespace Run

variable {s₀ s : σ} {h : List (σ × ε)}

/-- The invariant rule for runs all of whose steps meet a condition on the state
before the step and its event. -/
theorem invariant_of_guarded (I : List (σ × ε) → σ → Prop) (G : σ → ε → Prop) (hinit : I [] s₀)
    (hstep : ∀ h s e s', Run step s₀ h s → I h s → G s e → step s e = some s' → I ((s, e) :: h) s')
    (hrun : Run step s₀ h s) (hG : ∀ p ∈ h, G p.1 p.2) : I h s := by
  induction hrun with
  | start => exact hinit
  | next hrun hs ih =>
    obtain ⟨hnew, hold⟩ := List.forall_mem_cons.mp hG
    exact hstep _ _ _ _ hrun (ih hold) hnew hs

/-- The invariant rule for all runs. -/
theorem invariant (I : List (σ × ε) → σ → Prop) (hinit : I [] s₀)
    (hstep : ∀ h s e s', Run step s₀ h s → I h s → step s e = some s' → I ((s, e) :: h) s')
    (hrun : Run step s₀ h s) : I h s :=
  invariant_of_guarded I (fun _ _ => True) hinit
    (fun h s e s' hrun hI _ hs => hstep h s e s' hrun hI hs) hrun fun _ _ => trivial

/-- Each entry of a history was reached by a part of the run, which went on from there. -/
theorem exists_of_mem {p : σ × ε} (hrun : Run step s₀ h s) (hp : p ∈ h) :
    ∃ h' s', h' ⊆ h ∧ Run step s₀ h' p.1 ∧ step p.1 p.2 = some s' := by
  induction hrun with
  | start => exact absurd hp List.not_mem_nil
  | @next h s e s' hrun hs ih =>
    rcases List.mem_cons.mp hp with rfl | hp
    · exact ⟨h, s', List.subset_cons_self _ h, hrun, hs⟩
    · obtain ⟨h', t, hsub, hrun', ht⟩ := ih hp
      exact ⟨h', t, List.subset_cons_of_subset _ hsub, hrun', ht⟩

theorem trans {h' : List (σ × ε)} {s' : σ} (hrun : Run step s₀ h s) (hrun' : Run step s h' s') :
    Run step s₀ (h' ++ h) s' := by
  induction hrun' with
  | start => exact hrun
  | next _ hs ih => exact .next ih hs

theorem single {e : ε} (hs : step s₀ e = some s) : Run step s₀ [(s₀, e)] s := .next .start hs

end Run

/-! ## Simulation -/

section Simulation

variable {τ : Type w} {δ : Type x} {step' : τ → δ → Option τ} {s₀ s : σ} {h : List (σ × ε)}

/-- What a step of one machine is to another: a step with the given label, or nothing. -/
def Follows (step' : τ → δ → Option τ) (t : τ) : Option δ → τ → Prop
  | some e, t' => step' t e = some t'
  | none, t' => t' = t

/-- The part of a history that the other machine sees. -/
def observed (view : σ → τ) (label : σ → ε → Option δ) (h : List (σ × ε)) : List (τ × δ) :=
  h.filterMap fun p => (label p.1 p.2).map fun e => (view p.1, e)

theorem mem_observed {view : σ → τ} {label : σ → ε → Option δ} {q : τ × δ} :
    q ∈ observed view label h ↔ ∃ p ∈ h, view p.1 = q.1 ∧ label p.1 p.2 = some q.2 := by
  rw [observed, List.mem_filterMap]
  refine exists_congr fun p => and_congr_right fun _ => ?_
  rw [Option.map_eq_some_iff]
  constructor
  · rintro ⟨e, he, rfl⟩
    exact ⟨rfl, he⟩
  · rintro ⟨hview, hlabel⟩
    exact ⟨q.2, hlabel, Prod.ext hview rfl⟩

/-- Forward simulation with silent steps, along an invariant, for runs all of whose steps
meet a condition. -/
theorem Run.simulation (I : σ → Prop) (G : σ → ε → Prop) (view : σ → τ) (label : σ → ε → Option δ)
    (hinit : I s₀) (hstep : ∀ s e s', I s → G s e → step s e = some s' →
      I s' ∧ Follows step' (view s) (label s e) (view s'))
    (hrun : Run step s₀ h s) (hG : ∀ p ∈ h, G p.1 p.2) :
    I s ∧ Run step' (view s₀) (observed view label h) (view s) := by
  induction hrun with
  | start => exact ⟨hinit, .start⟩
  | @next h s e s' hrun hs ih =>
    obtain ⟨hnew, hold⟩ := List.forall_mem_cons.mp hG
    obtain ⟨hI, hrun'⟩ := ih hold
    obtain ⟨hI', hfollows⟩ := hstep s e s' hI hnew hs
    refine ⟨hI', ?_⟩
    rw [observed, List.filterMap_cons]
    cases hlabel : label s e with
    | none =>
      rw [hlabel] at hfollows
      have hview : view s' = view s := hfollows
      exact hview.symm ▸ hrun'
    | some e' =>
      rw [hlabel] at hfollows
      exact .next hrun' hfollows

end Simulation

/-! ## Lock step -/

section LockStep

variable {τ : Type w} {step' : τ → ε → Option τ} {G : ε → Prop} {R : σ → τ → Prop} {s₀ s : σ}
  {t₀ t : τ}

/-- Two machines answer each event that meets the condition alike: both with a next state,
and the two are related again, or both not at all. What is known of the states of the second
machine may be used. -/
structure LockStep (step : σ → ε → Option σ) (step' : τ → ε → Option τ) (G : ε → Prop)
    (R : σ → τ → Prop) (s₀ : σ) (t₀ : τ) : Prop where
  start : R s₀ t₀
  next : ∀ {h t s e}, Run step' t₀ h t → (∀ q ∈ h, G q.2) → G e → R s t →
    Option.Rel R (step s e) (step' t e)

/-- The same events, in related states. -/
def Agree (R : σ → τ → Prop) (p : σ × ε) (q : τ × ε) : Prop := R p.1 q.1 ∧ p.2 = q.2

namespace LockStep

/-- What means the same for agreeing steps holds along both histories or along neither. -/
theorem forall_of_agree {P : σ × ε → Prop} {Q : τ × ε → Prop}
    (hiff : ∀ p q, Agree R p q → (P p ↔ Q q)) {h : List (σ × ε)} {h' : List (τ × ε)}
    (hagree : List.Forall₂ (Agree R) h h') : (∀ p ∈ h, P p) ↔ ∀ q ∈ h', Q q := by
  induction hagree with
  | nil => simp
  | cons hpq _ ih => rw [List.forall_mem_cons, List.forall_mem_cons, ih, hiff _ _ hpq]

theorem guard_of_agree {h : List (σ × ε)} {h' : List (τ × ε)}
    (hagree : List.Forall₂ (Agree R) h h') : (∀ p ∈ h, G p.2) ↔ ∀ q ∈ h', G q.2 :=
  forall_of_agree (fun _ _ hpq => by rw [hpq.2]) hagree

/-- A run of the first machine is one of the second. -/
theorem run (hlock : LockStep step step' G R s₀ t₀) {h : List (σ × ε)} (hrun : Run step s₀ h s)
    (hG : ∀ p ∈ h, G p.2) :
    ∃ h' t, Run step' t₀ h' t ∧ R s t ∧ List.Forall₂ (Agree R) h h' := by
  induction hrun with
  | start => exact ⟨[], t₀, .start, hlock.start, .nil⟩
  | @next h s e s' _ hs ih =>
    obtain ⟨he, hG⟩ := List.forall_mem_cons.mp hG
    obtain ⟨h', t, hrun', hR, hagree⟩ := ih hG
    have hnext := hlock.next hrun' ((guard_of_agree hagree).mp hG) he hR
    rw [hs] at hnext
    cases ht : step' t e with
    | none => simp [ht] at hnext
    | some t' =>
      rw [ht, Option.rel_some_some] at hnext
      exact ⟨_, t', hrun'.next ht, hnext, .cons ⟨hR, rfl⟩ hagree⟩

/-- And the other way round. -/
theorem run_back (hlock : LockStep step step' G R s₀ t₀) {h' : List (τ × ε)}
    (hrun : Run step' t₀ h' t) (hG : ∀ q ∈ h', G q.2) :
    ∃ h s, Run step s₀ h s ∧ R s t ∧ List.Forall₂ (Agree R) h h' := by
  induction hrun with
  | start => exact ⟨[], s₀, .start, hlock.start, .nil⟩
  | @next h' t e t' hrun' ht ih =>
    obtain ⟨he, hG⟩ := List.forall_mem_cons.mp hG
    obtain ⟨h, s, hrun, hR, hagree⟩ := ih hG
    have hnext := hlock.next hrun' hG he hR
    rw [ht] at hnext
    cases hs : step s e with
    | none => simp [hs] at hnext
    | some s' =>
      rw [hs, Option.rel_some_some] at hnext
      exact ⟨_, s', hrun.next hs, hnext, .cons ⟨hR, rfl⟩ hagree⟩

end LockStep

end LockStep

/-- Some run from `s` to `t` takes steps that satisfy `P` only. -/
def Leads (step : σ → ε → Option σ) (P : σ → ε → Prop) (s t : σ) : Prop :=
  ∃ h, Run step s h t ∧ ∀ p ∈ h, P p.1 p.2

namespace Leads

variable {P : σ → ε → Prop} {s t u : σ}

theorem refl (s : σ) : Leads step P s s := ⟨[], .start, nofun⟩

theorem exists_run (h : Leads step P s t) : ∃ l, Run step s l t := h.imp fun _ => And.left

theorem trans (h₁ : Leads step P s t) (h₂ : Leads step P t u) : Leads step P s u := by
  obtain ⟨l₁, hrun₁, hP₁⟩ := h₁
  obtain ⟨l₂, hrun₂, hP₂⟩ := h₂
  exact ⟨l₂ ++ l₁, hrun₁.trans hrun₂, List.forall_mem_append.mpr ⟨hP₂, hP₁⟩⟩

theorem head {e : ε} (hs : step s e = some t) (hP : P s e) (h : Leads step P t u) :
    Leads step P s u :=
  trans ⟨[(s, e)], .single hs, List.forall_mem_singleton.mpr hP⟩ h

end Leads

/-! ## Work that runs out -/

section Work

variable {I : σ → Prop} {G busy : σ → ε → Prop} {work : σ → ℕ} {s₀ s : σ} {h : List (σ × ε)}

/-- A measure of the work that is left: along an invariant no step that meets the guard
raises it, and each busy one lowers it. -/
structure Works (step : σ → ε → Option σ) (I : σ → Prop) (G busy : σ → ε → Prop)
    (work : σ → ℕ) : Prop where
  invariant : ∀ s e s', I s → G s e → step s e = some s' → I s'
  le : ∀ s e s', I s → G s e → step s e = some s' → work s' ≤ work s
  lt : ∀ s e s', I s → G s e → step s e = some s' → busy s e → work s' < work s

/-- None of the steps that meet the guard is busy. -/
def Settled (step : σ → ε → Option σ) (G busy : σ → ε → Prop) (s : σ) : Prop :=
  ∀ e s', G s e → step s e = some s' → ¬busy s e

namespace Works

/-- In whatever order its steps come, a run takes no more busy ones than the work it does. -/
theorem countP_le [∀ s e, Decidable (busy s e)] (hworks : Works step I G busy work)
    (hinit : I s₀) (hrun : Run step s₀ h s) (hG : ∀ p ∈ h, G p.1 p.2) :
    I s ∧ h.countP (fun p => busy p.1 p.2) + work s ≤ work s₀ := by
  refine hrun.invariant_of_guarded
    (fun h s => I s ∧ h.countP (fun p => busy p.1 p.2) + work s ≤ work s₀) G ⟨hinit, ?_⟩ ?_ hG
  · exact Nat.le_of_eq (Nat.zero_add _)
  · rintro h s e s' - ⟨hI, hle⟩ hG hs
    refine ⟨hworks.invariant s e s' hI hG hs, ?_⟩
    have hnever := hworks.le s e s' hI hG hs
    rw [List.countP_cons]
    split_ifs with hbusy
    · have hlt := hworks.lt s e s' hI hG hs (of_decide_eq_true hbusy)
      omega
    · omega

/-- Every state leads to one in which nothing busy is left. -/
theorem exists_settled (hworks : Works step I G busy work) (hI : I s) :
    ∃ t, Leads step G s t ∧ Settled step G busy t := by
  induction hn : work s using Nat.strongRecOn generalizing s with
  | ind n ih =>
    subst hn
    by_cases hsettled : Settled step G busy s
    · exact ⟨s, .refl s, hsettled⟩
    · simp only [Settled, not_forall, not_not] at hsettled
      obtain ⟨e, s', hG, hs, hbusy⟩ := hsettled
      obtain ⟨t, hlead, ht⟩ := ih _ (hworks.lt s e s' hI hG hs hbusy)
        (hworks.invariant s e s' hI hG hs) rfl
      exact ⟨t, .head hs hG hlead, ht⟩

end Works

end Work

/-- The history and the state after the events of a list, taken in order. -/
def exec (step : σ → ε → Option σ) (s : σ) : List ε → Option (List (σ × ε) × σ)
  | [] => some ([], s)
  | e :: es => (step s e).bind fun s' => (exec step s' es).map fun p => (p.1 ++ [(s, e)], p.2)

/-- What the evaluation reaches is reached by a run. -/
theorem exec_run {es : List ε} {s t : σ} {h : List (σ × ε)} (hexec : exec step s es = some (h, t)) :
    Run step s h t := by
  induction es generalizing s h with
  | nil =>
    cases hexec
    exact .start
  | cons e es ih =>
    obtain ⟨s', hs, hexec⟩ := Option.bind_eq_some_iff.mp hexec
    obtain ⟨⟨h', t'⟩, hrest, hexec⟩ := Option.map_eq_some_iff.mp hexec
    cases hexec
    exact (Run.single hs).trans (ih hrest)

/-- A property of a run that is checked by evaluating it. -/
theorem exists_run_of_exec (step : σ → ε → Option σ) (s : σ) (es : List ε)
    (P : List (σ × ε) → σ → Prop) [∀ h s, Decidable (P h s)]
    (hcheck : (exec step s es).any (fun p => decide (P p.1 p.2)) = true) :
    ∃ h t, Run step s h t ∧ P h t := by
  obtain ⟨⟨h, t⟩, hexec, hP⟩ := (Option.any_eq_true _ _).mp hcheck
  exact ⟨h, t, exec_run hexec, of_decide_eq_true hP⟩

/-- The same for a run in two parts. -/
theorem exists_runs_of_exec (step : σ → ε → Option σ) (s : σ) (es es' : List ε)
    (P : List (σ × ε) → σ → List (σ × ε) → σ → Prop) [∀ h t h' t', Decidable (P h t h' t')]
    (hcheck : (exec step s es).any (fun p =>
      (exec step p.2 es').any fun q => decide (P p.1 p.2 q.1 q.2)) = true) :
    ∃ h t h' t', Run step s h t ∧ Run step t h' t' ∧ P h t h' t' := by
  obtain ⟨⟨h, t⟩, hexec, hcheck⟩ := (Option.any_eq_true _ _).mp hcheck
  obtain ⟨h', t', hrun', hP⟩ := exists_run_of_exec step t es' (P h t) hcheck
  exact ⟨h, t, h', t', exec_run hexec, hrun', hP⟩

end HadamardIMS.Runs
