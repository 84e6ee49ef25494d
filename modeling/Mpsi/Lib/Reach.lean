/-
Transition systems: what one step preserves holds in every reachable state, and a system whose
steps lower a measure runs into a state without a step. Where the states on the way count, a run is a
function of the number of steps taken.
-/
import Mathlib.Logic.Relation
import Mathlib.Tactic

namespace Reach

open Relation

variable {σ : Type} {step : σ → σ → Prop}

/-- A property that holds initially and is preserved by every step holds in every reachable
state. -/
theorem inv_of_step {I : σ → Prop} {s₀ s : σ} (h₀ : I s₀) (hs : ∀ s t, I s → step s t → I t)
    (h : ReflTransGen step s₀ s) : I s := by
  induction h with
  | refl => exact h₀
  | tail _ hst ih => exact hs _ _ ih hst

/-- The states of a run up to `n` steps. -/
structure Run (step : σ → σ → Prop) (s₀ : σ) (run : ℕ → σ) (n : ℕ) : Prop where
  start : run 0 = s₀
  next : ∀ m, m < n → step (run m) (run (m + 1))

namespace Run

variable {s₀ : σ} {run : ℕ → σ} {m n : ℕ}

theorem initial (h : Run step s₀ run n) (hm : m ≤ n) : Run step s₀ run m :=
  ⟨h.start, fun k hk => h.next k (hk.trans_le hm)⟩

theorem reaches (h : Run step s₀ run n) : ReflTransGen step s₀ (run n) := by
  induction n with
  | zero => rw [h.start]
  | succ n ih => exact (ih (h.initial n.le_succ)).tail (h.next n n.lt_succ_self)

/-- What no step lowers is not lowered along a run. -/
theorem le_of_step (h : Run step s₀ run n) {f : σ → ℕ} (hf : ∀ s t, step s t → f s ≤ f t) (hm : m ≤ n) : f (run m) ≤ f (run n) := by
  induction n, hm using Nat.le_induction with
  | base => exact le_rfl
  | succ n _ ih => exact (ih (h.initial n.le_succ)).trans (hf _ _ (h.next n n.lt_succ_self))

end Run

/-- Every reachable state is the last one of a run. -/
theorem exists_run {s₀ s : σ} (h : ReflTransGen step s₀ s) : ∃ run n, Run step s₀ run n ∧ run n = s := by
  induction h with
  | refl => exact ⟨fun _ => s₀, 0, ⟨rfl, fun m hm => absurd hm m.not_lt_zero⟩, rfl⟩
  | @tail t u _ hst ih =>
    obtain ⟨run, n, hrun, rfl⟩ := ih
    refine ⟨Function.update run (n + 1) u, n + 1, ⟨?_, fun m hm => ?_⟩, Function.update_self ..⟩
    · rw [Function.update_of_ne (Nat.succ_ne_zero n).symm, hrun.start]
    · rw [Function.update_of_ne hm.ne]
      rcases Nat.lt_succ_iff_lt_or_eq.1 hm with hlt | rfl
      · rw [Function.update_of_ne (by omega)]
        exact hrun.next m hlt
      · rwa [Function.update_self]

/-- A state without a next step. -/
def Stopped (step : σ → σ → Prop) (s : σ) : Prop := ∀ t, ¬ step s t

/-- When every step of a state satisfying the invariant lowers a measure, some run from it ends
in a state without a next step. -/
theorem exists_stopped {I : σ → Prop} (hs : ∀ s t, I s → step s t → I t) (m : σ → ℕ)
    (hm : ∀ s t, I s → step s t → m t < m s) :
    ∀ s, I s → ∃ t, ReflTransGen step s t ∧ I t ∧ Stopped step t := by
  intro s
  induction hn : m s using Nat.strong_induction_on generalizing s with
  | _ n ih =>
    intro hI
    by_cases hstop : Stopped step s
    · exact ⟨s, .refl, hI, hstop⟩
    · simp only [Stopped, not_forall, not_not] at hstop
      obtain ⟨t, hst⟩ := hstop
      obtain ⟨u, htu, hu⟩ := ih (m t) (hn ▸ hm s t hI hst) t rfl (hs s t hI hst)
      exact ⟨u, .head hst htu, hu⟩

/-- From a state that begins no infinite run some run ends in a state without a next step. -/
theorem exists_stopped_of_acc {s : σ} (h : Acc (fun t s => step s t) s) : ∃ t, ReflTransGen step s t ∧ Stopped step t := by
  induction h with
  | intro s _ ih =>
    by_cases hstop : Stopped step s
    · exact ⟨s, .refl, hstop⟩
    · simp only [Stopped, not_forall, not_not] at hstop
      obtain ⟨t, hst⟩ := hstop
      obtain ⟨u, htu, hu⟩ := ih t hst
      exact ⟨u, .head hst htu, hu⟩

/-- A run from a state satisfying the invariant is no longer than the measure of the state. -/
theorem length_le_of_chain {I : σ → Prop} (hs : ∀ s t, I s → step s t → I t) (m : σ → ℕ)
    (hm : ∀ s t, I s → step s t → m t < m s) {l : List σ} :
    ∀ {s}, I s → List.IsChain step (s :: l) → l.length ≤ m s := by
  induction l with
  | nil => exact fun _ _ => Nat.zero_le _
  | cons t l ih =>
    intro s hI h
    obtain ⟨hst, hl⟩ := List.isChain_cons_cons.1 h
    have hlt := hm s t hI hst
    have hle := ih (hs s t hI hst) hl
    rw [List.length_cons]
    omega

end Reach
