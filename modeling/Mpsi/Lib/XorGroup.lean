/-
Sums in a group where every element is its own inverse: when a sum is zero, sums in which every
term meets its twin, and sums that change at one term only.
-/
import Mathlib.Algebra.BigOperators.Group.Finset.Basic
import Mathlib.Algebra.BigOperators.Ring.Finset
import Mathlib.Data.ZMod.Basic
import Mathlib.Tactic

namespace XorGroup

open ZModModule

variable {G ι : Type*} [AddCommGroup G] [Module (ZMod 2) G]

theorem add_eq_zero_iff_eq {a b : G} : a + b = 0 ↔ a = b := by
  rw [← sub_eq_add, sub_eq_zero]

theorem add_cancel_left (a b : G) : a + (a + b) = b := by
  rw [← add_assoc, add_self, zero_add]

theorem add_cancel_right (a b : G) : a + b + b = a := by
  rw [add_assoc, add_self, add_zero]

theorem even_smul {n : ℕ} (hn : Even n) (a : G) : n • a = 0 := by
  obtain ⟨k, rfl⟩ := hn
  rw [add_smul, add_self]

theorem odd_smul {n : ℕ} (hn : Odd n) (a : G) : n • a = a := by
  obtain ⟨k, rfl⟩ := hn
  rw [add_smul, one_smul, even_smul (even_two_mul k), zero_add]

/-- Every ordered pair once on each side: the sum over all `p` of what `p` shares with every other
`q` is zero when `p` and `q` share the same two elements. -/
theorem sum_pairs [DecidableEq ι] (s : Finset ι) (k : ι → ι → G) :
    ∑ p ∈ s, ∑ q ∈ s.erase p, (k p q + k q p) = 0 := by
  have h : ∀ p ∈ s, ∑ q ∈ s.erase p, (k p q + k q p) = ∑ q ∈ s, (k p q + k q p) := by
    intro p hp
    rw [← Finset.add_sum_erase s _ hp, add_self, zero_add]
  rw [Finset.sum_congr rfl h]
  simp only [Finset.sum_add_distrib]
  rw [Finset.sum_comm (f := fun p q => k q p)]
  exact add_self _

/-- Masks for the elements that the others of `H` share with `h₀`. -/
def mask [DecidableEq ι] (H : Finset ι) (h₀ : ι) (δ : ι → G) (p q : ι) : G := if q = h₀ ∧ p ∈ H.erase h₀ then δ p else 0

/-- With masks that cancel each of `H` gets its own one, also `h₀`. -/
theorem sum_mask [DecidableEq ι] {s H : Finset ι} {h₀ p : ι} {δ : ι → G} (hH : H ⊆ s) (h₀H : h₀ ∈ H) (hδ : ∑ p ∈ H, δ p = 0) :
    ∑ q ∈ s.erase p, (mask H h₀ δ p q + mask H h₀ δ q p) = if p ∈ H then δ p else 0 := by
  by_cases hp : p = h₀
  · subst hp
    have hq : ∀ q ∈ s.erase p, mask H p δ p q + mask H p δ q p = if q ∈ H.erase p then δ q else 0 := by
      intro q _
      simp [mask]
    rw [Finset.sum_congr rfl hq, Finset.sum_ite_mem, Finset.inter_eq_right.2 (Finset.erase_subset_erase p hH), if_pos h₀H]
    rw [← Finset.add_sum_erase H δ h₀H, add_eq_zero_iff_eq] at hδ
    exact hδ.symm
  · have hq : ∀ q ∈ s.erase p, mask H h₀ δ p q + mask H h₀ δ q p = if q = h₀ then (if p ∈ H then δ p else 0) else 0 := by
      intro q _
      by_cases hq : q = h₀
      · simp [mask, hq, hp]
      · simp [mask, hq, hp]
    rw [Finset.sum_congr rfl hq, Finset.sum_ite_eq', if_pos (Finset.mem_erase.2 ⟨Ne.symm hp, hH h₀H⟩)]

omit [Module (ZMod 2) G] in
/-- A sum over a finite set with one term changed by `d`. -/
theorem sum_update_add [DecidableEq ι] {s : Finset ι} {i : ι} (hi : i ∈ s) (f : ι → G) (d : G) :
    ∑ j ∈ s, Function.update f i (f i + d) j = ∑ j ∈ s, f j + d := by
  rw [Finset.sum_update_of_mem hi, ← Finset.add_sum_erase s f hi, Finset.sdiff_singleton_eq_erase]
  abel

end XorGroup
