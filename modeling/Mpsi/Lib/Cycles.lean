/-
Cycles of a permutation before and after an exchange: exchanging points of different cycles joins the two
cycles, exchanging points of one cycle leaves at most two.
-/
import Mathlib.GroupTheory.Perm.Cycle.Basic
import Mathlib.Logic.Equiv.Fin.Basic

namespace Cycles

open Equiv Equiv.Perm

variable {α : Type} {f : Perm α} {a b x y : α}

/-- A set closed under a permutation and its inverse holds with a point its whole cycle. -/
theorem mem_of_sameCycle {P : α → Prop} (hf : ∀ x, P x → P (f x)) (hb : ∀ x, P (f x) → P x) (h : f.SameCycle x y)
    (hx : P x) : P y := by
  obtain ⟨i, rfl⟩ := h
  induction i using Int.induction_on with
  | zero => exact hx
  | succ i ih =>
    rw [add_comm, zpow_add, zpow_one, mul_apply]
    exact hf _ ih
  | pred i ih =>
    apply hb _
    rwa [← mul_apply, ← zpow_one_add, add_sub_cancel]

/-- Points of one cycle are related by every equivalence that relates each point to its image. -/
theorem rel_of_sameCycle {r : α → α → Prop} (hr : Equivalence r) (hf : ∀ x, r x (f x)) (h : f.SameCycle x y) : r x y :=
  mem_of_sameCycle (P := r x) (fun _ hz => hr.trans hz (hf _)) (fun _ hz => hr.trans hz (hr.symm (hf _))) h (hr.refl x)

section Swap

variable [DecidableEq α]

theorem swap_mul_of_ne (ha : f x ≠ a) (hb : f x ≠ b) : (swap a b * f) x = f x := by
  rw [mul_apply, swap_apply_of_ne_of_ne ha hb]

/-- Once the two points share a cycle, all points that shared one still do. -/
theorem sameCycle_swap_mul (hab : (swap a b * f).SameCycle a b) (h : f.SameCycle x y) : (swap a b * f).SameCycle x y := by
  refine rel_of_sameCycle (SameCycle.equivalence _) (fun z => ?_) h
  have hz : (swap a b * f).SameCycle z ((swap a b * f) z) := sameCycle_apply_right.2 .rfl
  by_cases ha : f z = a
  · rw [mul_apply, ha, swap_apply_left] at hz
    rw [ha]
    exact hz.trans hab.symm
  · by_cases hb : f z = b
    · rw [mul_apply, hb, swap_apply_right] at hz
      rw [hb]
      exact hz.trans hab
    · rwa [swap_mul_of_ne ha hb] at hz

/-- A fixed point joins the cycle of the other point. -/
theorem swap_mul_fixed (ha : f a = a) : (swap a b * f).SameCycle a b := by
  refine ⟨1, ?_⟩
  rw [zpow_one, mul_apply, ha, swap_apply_left]

/-- Points of different cycles of a finite set share one after the exchange. -/
theorem swap_mul_joins [Finite α] (hab : ¬ f.SameCycle a b) : (swap a b * f).SameCycle a b := by
  -- the cycle of `a` is passed unchanged, up to the point before `a`
  have hpow : ∀ n : ℕ, (swap a b * f).SameCycle a ((f ^ n) a) := by
    intro n
    induction n with
    | zero => exact .rfl
    | succ n ih =>
      rw [pow_succ', mul_apply]
      have hb : f ((f ^ n) a) ≠ b := by
        intro hb
        apply hab
        rw [← hb]
        exact sameCycle_apply_right.2 (sameCycle_pow_right.2 .rfl)
      by_cases ha : f ((f ^ n) a) = a
      · rw [ha]
      · rw [← swap_mul_of_ne ha hb]
        exact sameCycle_apply_right.2 ih
  obtain ⟨n, hn⟩ := (sameCycle_symm_apply_right.2 (SameCycle.refl f a)).exists_nat_pow_eq
  have hlast := hpow n
  rw [hn] at hlast
  have hstep : (swap a b * f) (f.symm a) = b := by rw [mul_apply, apply_symm_apply, swap_apply_left]
  have hnext := sameCycle_apply_right.2 hlast
  rwa [hstep] at hnext

/-- A cycle that is split by the exchange falls into those of the two points. -/
theorem swap_mul_splits (h : f.SameCycle a x) : (swap a b * f).SameCycle a x ∨ (swap a b * f).SameCycle b x := by
  refine mem_of_sameCycle (P := fun z => (swap a b * f).SameCycle a z ∨ (swap a b * f).SameCycle b z)
    (fun z hz => ?_) (fun z hz => ?_) h (Or.inl .rfl)
  · by_cases ha : f z = a
    · rw [ha]; exact Or.inl .rfl
    · by_cases hb : f z = b
      · rw [hb]; exact Or.inr .rfl
      · rw [← swap_mul_of_ne ha hb]
        exact hz.imp sameCycle_apply_right.2 sameCycle_apply_right.2
  · by_cases ha : f z = a
    · refine Or.inr (sameCycle_apply_right.1 ?_)
      rw [mul_apply, ha, swap_apply_left]
    · by_cases hb : f z = b
      · refine Or.inl (sameCycle_apply_right.1 ?_)
        rw [mul_apply, hb, swap_apply_right]
      · rw [← swap_mul_of_ne ha hb] at hz
        exact hz.imp sameCycle_apply_right.1 sameCycle_apply_right.1

end Swap

/-! ## Permutations of an initial part of the numbers -/

/-- A permutation of the numbers below `n`, as one of all numbers. -/
def onNat {n : ℕ} (σ : Perm (Fin n)) : Perm ℕ := σ.extendDomain Fin.equivSubtype

section OnNat

variable {n : ℕ} {σ : Perm (Fin n)}

theorem onNat_val (σ : Perm (Fin n)) (k : Fin n) : onNat σ k = σ k := σ.extendDomain_apply_image Fin.equivSubtype k

theorem onNat_of_ge {k : ℕ} (h : n ≤ k) : onNat σ k = k := σ.extendDomain_apply_not_subtype Fin.equivSubtype (not_lt.2 h)

theorem sameCycle_onNat {j k : Fin n} : (onNat σ).SameCycle j k ↔ σ.SameCycle j k :=
  sameCycle_extendDomain (f := Fin.equivSubtype)

theorem onNat_swap_mul (a b : Fin n) : onNat (swap a b * σ) = swap (a : ℕ) b * onNat σ := by
  ext k
  by_cases hk : k < n
  · rw [mul_apply, show k = ((⟨k, hk⟩ : Fin n) : ℕ) from rfl, onNat_val, onNat_val, mul_apply]
    exact (Fin.val_injective.swap_apply a b _).symm
  · have hne : ∀ c : Fin n, k ≠ c := fun c hc => hk (hc ▸ c.2)
    rw [mul_apply, onNat_of_ge (not_lt.1 hk), onNat_of_ge (not_lt.1 hk), swap_apply_of_ne_of_ne (hne a) (hne b)]

end OnNat

end Cycles
