/-
Threads that run through scripts of actions, where an action may have to wait for actions of other
threads. When a rank rises along every script and over every wait, the threads never block each
other: of the actions that come next, one of the lowest rank finds everything done that it waits for.
With every action there is less left to do (`left_advance`), so a run comes to its end.
-/
import Mathlib.Data.List.Basic
import Mathlib.Tactic

namespace Blocking

variable {τ α : Type}

/-- The actions thread `t` has done when it stands at place `pc t` of its script. -/
def done (script : τ → List α) (pc : τ → ℕ) (t : τ) : List α := (script t).take (pc t)

/-- The action it comes to next. -/
def next (script : τ → List α) (pc : τ → ℕ) (t : τ) : Option α := (script t)[pc t]?

variable {script : τ → List α} {pc : τ → ℕ}

theorem mem_of_next {t : τ} {a : α} (h : next script pc t = some a) : a ∈ script t := List.mem_of_getElem? h

theorem mem_of_done {t : τ} {a : α} (h : a ∈ done script pc t) : a ∈ script t := List.mem_of_mem_take h

/-- At the end of its script a thread has done all of it. -/
theorem done_of_next_none {t : τ} (h : next script pc t = none) : done script pc t = script t :=
  List.take_of_length_le (List.getElem?_eq_none_iff.1 h)

theorem done_start (t : τ) : done script (fun _ => 0) t = [] := List.take_zero

section Advance

variable [DecidableEq τ]

/-- A thread does its next action. -/
def advance (pc : τ → ℕ) (t : τ) : τ → ℕ := Function.update pc t (pc t + 1)

theorem done_advance {t : τ} {a : α} (h : next script pc t = some a) :
    done script (advance pc t) t = done script pc t ++ [a] := by
  obtain ⟨hlt, rfl⟩ := List.getElem?_eq_some_iff.1 h
  rw [done, advance, Function.update_self, List.take_succ_eq_append_getElem hlt]
  rfl

theorem done_advance_of_ne {t u : τ} (h : u ≠ t) : done script (advance pc t) u = done script pc u := by
  rw [done, advance, Function.update_of_ne h]
  rfl

theorem mem_done_advance {t u : τ} {a b : α} (h : next script pc t = some a) :
    b ∈ done script (advance pc t) u ↔ b ∈ done script pc u ∨ (u = t ∧ b = a) := by
  by_cases hu : u = t
  · subst hu
    rw [done_advance h, List.mem_append, List.mem_singleton]
    simp
  · rw [done_advance_of_ne hu]
    simp [hu]

/-- The number of actions the threads of `T` still have to do. -/
def left (script : τ → List α) (T : Finset τ) (pc : τ → ℕ) : ℕ := ∑ t ∈ T, ((script t).length - pc t)

theorem left_advance {T : Finset τ} {t : τ} {a : α} (ht : t ∈ T) (h : next script pc t = some a) :
    left script T (advance pc t) < left script T pc := by
  have hlt : pc t < (script t).length := (List.getElem?_eq_some_iff.1 h).1
  refine Finset.sum_lt_sum (fun u _ => ?_) ⟨t, ht, ?_⟩
  · unfold advance
    by_cases hu : u = t
    · subst hu
      rw [Function.update_self]
      omega
    · rw [Function.update_of_ne hu]
  · rw [advance, Function.update_self]
    omega

end Advance

/-- A rank that rises along the scripts and over the waits. What is waited for is in some script. -/
structure Ranked (script : τ → List α) (waits : α → α → Prop) (rank : α → ℕ) : Prop where
  rising : ∀ t, (script t).Pairwise fun a b => rank a < rank b
  lower : ∀ t, ∀ a ∈ script t, ∀ b, waits a b → rank b < rank a
  exists_script : ∀ t, ∀ a ∈ script t, ∀ b, waits a b → ∃ u, b ∈ script u

variable {waits : α → α → Prop} {rank : α → ℕ}

/-- What is in a script and not yet done is not below the next action. -/
theorem le_rank_of_not_done {t : τ} (h : (script t).Pairwise fun a b => rank a < rank b) {b : α} (hb : b ∈ script t)
    (hd : b ∉ done script pc t) : ∃ a, next script pc t = some a ∧ rank a ≤ rank b := by
  obtain ⟨k, hk, rfl⟩ := List.mem_iff_getElem.1 hb
  have hle : pc t ≤ k := by
    by_contra hlt
    exact hd (List.mem_take_iff_getElem.2 ⟨k, by omega, rfl⟩)
  refine ⟨(script t)[pc t], List.getElem?_eq_getElem (hle.trans_lt hk), ?_⟩
  rcases hle.eq_or_lt with heq | hlt
  · exact le_of_eq (congrArg rank (by congr 1))
  · exact (List.pairwise_iff_getElem.1 h _ _ (by omega) hk hlt).le

/-- The next action is not done yet. -/
theorem next_not_mem_done {t : τ} (h : (script t).Pairwise fun a b => rank a < rank b) {a : α}
    (ha : next script pc t = some a) : a ∉ done script pc t := by
  intro hd
  obtain ⟨hlt, hget⟩ := List.getElem?_eq_some_iff.1 ha
  obtain ⟨k, hk, hka⟩ := List.mem_take_iff_getElem.1 hd
  have := List.pairwise_iff_getElem.1 h k (pc t) (by omega) hlt (by omega)
  rw [hka, hget] at this
  exact lt_irrefl _ this

/-- Either every thread is at the end of its script, or some thread's next action finds everything
done that it waits for. -/
theorem Ranked.exists_ready (h : Ranked script waits rank) (pc : τ → ℕ) :
    (∀ t, next script pc t = none) ∨
      ∃ t a, next script pc t = some a ∧ ∀ b, waits a b → ∃ u, b ∈ done script pc u := by
  by_cases hall : ∀ t, next script pc t = none
  · exact Or.inl hall
  right
  push Not at hall
  obtain ⟨t₀, ht₀⟩ := hall
  obtain ⟨a₀, ha₀⟩ := Option.ne_none_iff_exists'.1 ht₀
  -- a next action of the lowest rank
  have hex : ∃ r t a, next script pc t = some a ∧ rank a = r := ⟨_, t₀, a₀, ha₀, rfl⟩
  classical
  obtain ⟨t, a, ha, hr⟩ := Nat.find_spec hex
  refine ⟨t, a, ha, fun b hb => ?_⟩
  obtain ⟨u, hu⟩ := h.exists_script t a (mem_of_next ha) b hb
  refine ⟨u, ?_⟩
  by_contra hd
  obtain ⟨c, hc, hle⟩ := le_rank_of_not_done (h.rising u) hu hd
  have hmin := Nat.find_min' hex ⟨u, c, hc, rfl⟩
  have hlt := h.lower t a (mem_of_next ha) b hb
  omega

end Blocking
