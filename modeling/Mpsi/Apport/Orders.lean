/-
The orders `shuffling` can produce. Its loop exchanges a place with an earlier one, never with itself, so
it makes one cycle of all places, and every such cycle (`exists_loopPerm`); the exchange before the loop
uses the draw of the last place a second time. What comes out are the permutations that send the first
element to the end and have at most two cycles (`shuffling_reaches_iff`).
-/
import Mpsi.Apport.Shuffle
import Mpsi.Lib.Cycles

namespace Mpsi

open Equiv Equiv.Perm Cycles

/-! ## The loop -/

theorem loopPerm_congr {rand rand' : ℕ → ℕ} : ∀ {i : ℕ}, (∀ j, j ≤ i → rand j = rand' j) → loopPerm rand i = loopPerm rand' i
  | 0, _ => rfl
  | i + 1, h => by
    have ih : loopPerm rand i = loopPerm rand' i := loopPerm_congr fun j hj => h j (by omega)
    rw [loopPerm, loopPerm, h (i + 1) le_rfl, ih]

/-- All places the loop passes are in one cycle. -/
theorem sameCycle_loopPerm (rand : ℕ → ℕ) : ∀ {i k : ℕ}, k ≤ i → (loopPerm rand i).SameCycle 0 k
  | 0, k, hk => by
    obtain rfl := Nat.le_zero.1 hk
    exact .rfl
  | i + 1, k, hk => by
    have hr : rand (i + 1) % (i + 1) < i + 1 := Nat.mod_lt _ (Nat.succ_pos i)
    have hfix : loopPerm rand i (i + 1) = i + 1 := loopPerm_of_gt rand (Nat.lt_succ_self i)
    have hab := swap_mul_fixed (b := rand (i + 1) % (i + 1)) hfix
    have hold : ∀ {j : ℕ}, j ≤ i → (loopPerm rand (i + 1)).SameCycle 0 j := fun hj =>
      sameCycle_swap_mul hab (sameCycle_loopPerm rand hj)
    by_cases hki : k ≤ i
    · exact hold hki
    · obtain rfl : k = i + 1 := by omega
      exact (hold (Nat.lt_succ_iff.1 hr)).trans hab.symm

/-- And every cycle of the places up to `i` comes out of some draws. -/
theorem exists_loopPerm : ∀ (i : ℕ) (c : Perm ℕ), (∀ k, i < k → c k = k) → (∀ k, k ≤ i → c.SameCycle 0 k) →
    ∃ rand : ℕ → ℕ, loopPerm rand i = c
  | 0, c, hfix, _ => by
    refine ⟨fun _ => 0, Equiv.ext fun k => ?_⟩
    have h0 : c 0 = 0 := by
      by_contra hne
      exact hne (c.injective (hfix (c 0) (Nat.pos_of_ne_zero hne)))
    rcases Nat.eq_zero_or_pos k with rfl | hk
    · exact h0.symm
    · exact (hfix k hk).symm
  | i + 1, c, hfix, hcyc => by
    -- the last place of the cycle was exchanged with the one it leads to
    have hr : c (i + 1) < i + 1 := by
      have hne : c (i + 1) ≠ i + 1 := fun h => by
        have h0 := (hcyc (i + 1) le_rfl).eq_of_right h
        omega
      by_contra hlt
      exact hne (c.injective (hfix (c (i + 1)) (by omega)))
    have hlast : (swap (i + 1) (c (i + 1)) * c) (i + 1) = i + 1 := by rw [mul_apply, swap_apply_right]
    have hsplit : ∀ k, k ≤ i → (swap (i + 1) (c (i + 1)) * c).SameCycle (c (i + 1)) k := by
      intro k hk
      have hk' : c.SameCycle (i + 1) k := (hcyc (i + 1) le_rfl).symm.trans (hcyc k (by omega))
      apply (swap_mul_splits hk').resolve_left
      intro h
      have := h.eq_of_left hlast
      omega
    obtain ⟨rand, hrand⟩ := exists_loopPerm i (swap (i + 1) (c (i + 1)) * c)
      (fun k hk => by
        rcases eq_or_ne k (i + 1) with rfl | hne
        · exact hlast
        · rw [mul_apply, hfix k (by omega), swap_apply_of_ne_of_ne hne (by omega)])
      fun k hk => (hsplit 0 (Nat.zero_le i)).symm.trans (hsplit k hk)
    refine ⟨Function.update rand (i + 1) (c (i + 1)), ?_⟩
    have hrest : loopPerm (Function.update rand (i + 1) (c (i + 1))) i = loopPerm rand i :=
      loopPerm_congr fun j hj => Function.update_of_ne (by omega) _ _
    unfold loopPerm
    rw [Function.update_self, Nat.mod_eq_of_lt hr, hrest, hrand, ← mul_assoc, swap_mul_self, one_mul]

/-! ## The whole shuffle -/

/-- A shuffle leaves the places behind its vector alone. -/
theorem shufflePerm_of_ge (rand : ℕ → ℕ) {n k : ℕ} (hn : 2 ≤ n) (hk : n ≤ k) : shufflePerm rand n k = k := by
  have hr : rand (n - 1) % (n - 1) < n - 1 := Nat.mod_lt _ (by omega)
  unfold shufflePerm
  rw [mul_apply, loopPerm_of_gt rand (by omega), swap_apply_of_ne_of_ne (by omega) (by omega)]

/-- The places a shuffle reads through fall into at most two cycles. -/
theorem sameCycle_shufflePerm (rand : ℕ → ℕ) {n : ℕ} (hn : 2 ≤ n) :
    ∃ r, r < n ∧ ∀ k, k < n → (shufflePerm rand n).SameCycle 0 k ∨ (shufflePerm rand n).SameCycle r k := by
  have hr : rand (n - 1) % (n - 1) < n - 1 := Nat.mod_lt _ (by omega)
  exact ⟨rand (n - 1) % (n - 1), by omega, fun k hk => swap_mul_splits (sameCycle_loopPerm rand (by omega))⟩

/-- The permutations of `n` places that send the first element to the end and have at most two cycles. -/
theorem exists_shufflePerm_iff {n : ℕ} (hn : 2 ≤ n) (σ : Perm (Fin n)) : (∃ rand, shufflePerm rand n = onNat σ) ↔
    σ ⟨n - 1, by omega⟩ = ⟨0, by omega⟩ ∧ ∃ r, ∀ k, σ.SameCycle ⟨0, by omega⟩ k ∨ σ.SameCycle r k := by
  let first : Fin n := ⟨0, by omega⟩
  let last : Fin n := ⟨n - 1, by omega⟩
  constructor
  · rintro ⟨rand, hrand⟩
    refine ⟨Fin.ext ?_, ?_⟩
    · rw [← onNat_val, ← hrand]
      exact shufflePerm_last rand hn
    · obtain ⟨r, hr, hcyc⟩ := sameCycle_shufflePerm rand hn
      rw [hrand] at hcyc
      exact ⟨⟨r, hr⟩, fun k => (hcyc k k.2).imp (sameCycle_onNat (j := first)).1 (sameCycle_onNat (j := ⟨r, hr⟩)).1⟩
  · rintro ⟨hlast, r, hcyc⟩
    change σ last = first at hlast
    -- exchanging the first place with one of the other cycle makes a single cycle
    obtain ⟨r, hr, hone⟩ : ∃ r : Fin n, r ≠ last ∧ ∀ k, (swap first r * σ).SameCycle first k := by
      by_cases hr : σ.SameCycle first r
      · refine ⟨first, fun h => ?_, fun k => ?_⟩
        · have : 0 = n - 1 := congrArg Fin.val h
          omega
        · rw [swap_self, show (Equiv.refl (Fin n) : Perm (Fin n)) = 1 from rfl, one_mul]
          exact (hcyc k).elim id hr.trans
      · have hab := swap_mul_joins hr
        refine ⟨r, fun h => ?_, fun k => ?_⟩
        · refine hr (sameCycle_apply_left.1 ?_).symm
          rw [h, hlast]
        · exact (hcyc k).elim (sameCycle_swap_mul hab) fun h => hab.trans (sameCycle_swap_mul hab h)
    have hrval : (r : ℕ) < n - 1 := by
      have hne : (r : ℕ) ≠ n - 1 := fun h => hr (Fin.ext h)
      omega
    obtain ⟨rand, hrand⟩ := exists_loopPerm (n - 1) (onNat (swap first r * σ)) (fun k hk => onNat_of_ge (by omega))
      fun k hk => (sameCycle_onNat (j := first) (k := ⟨k, by omega⟩)).2 (hone _)
    -- the draw of the last place is the one that exchange needs
    have hdraw : rand (n - 1) % (n - 1) = r := by
      obtain ⟨i, hi⟩ : ∃ i, n - 1 = i + 1 := ⟨n - 2, by omega⟩
      have h1 : loopPerm rand (n - 1) (n - 1) = rand (n - 1) % (n - 1) := by
        rw [hi, loopPerm_succ, loopPerm_of_gt rand (Nat.lt_succ_self i), swap_apply_left]
      rw [← h1, hrand]
      change onNat (swap first r * σ) (last : ℕ) = r
      rw [onNat_val, mul_apply, hlast, swap_apply_left]
    refine ⟨rand, ?_⟩
    unfold shufflePerm
    rw [hrand, hdraw, onNat_swap_mul, ← mul_assoc]
    change swap (first : ℕ) (r : ℕ) * swap (first : ℕ) (r : ℕ) * onNat σ = onNat σ
    rw [swap_mul_self, one_mul]

/-! ## The vectors that come out -/

section Vector

variable {arr : List ℤ}

/-- The vector read through `σ` comes out exactly of the draws with this permutation. -/
theorem shuffling_ofFn_iff (h2 : 2 ≤ arr.length) (hnd : arr.Nodup) (σ : Perm (Fin arr.length)) (rand : ℕ → ℕ) :
    shuffling arr rand = .ok (List.ofFn fun k => arr.get (σ k)) ↔ shufflePerm rand arr.length = onNat σ := by
  obtain ⟨arr', hrun, hlen, hget⟩ := shuffling_eq h2 rand
  rw [hrun]
  constructor
  · intro h
    obtain rfl := Except.ok.inj h
    ext k
    by_cases hk : k < arr.length
    · -- entries without a repetition tell their places
      have hsh := shufflePerm_lt rand h2 hk
      have hval := hget k
      rw [List.getElem?_ofFn, dif_pos hk, List.getElem?_eq_getElem hsh] at hval
      have heq := (List.Nodup.getElem_inj_iff hnd).1 (Option.some_injective _ hval)
      rw [← heq]
      exact (onNat_val σ ⟨k, hk⟩).symm
    · -- behind the array neither moves anything
      rw [shufflePerm_of_ge rand h2 (not_lt.1 hk), onNat_of_ge (not_lt.1 hk)]
  · intro h
    refine congrArg Except.ok (List.ext_getElem? fun k => ?_)
    rw [hget, h, List.getElem?_ofFn]
    by_cases hk : k < arr.length
    · have hval : onNat σ k = σ ⟨k, hk⟩ := onNat_val σ ⟨k, hk⟩
      rw [dif_pos hk, hval, List.getElem?_eq_getElem (σ ⟨k, hk⟩).2]
      rfl
    · rw [dif_neg hk, onNat_of_ge (not_lt.1 hk), List.getElem?_eq_none (not_lt.1 hk)]

/-- A rearrangement of a vector of different elements comes out of some draws exactly when it has the
vector's first element last and falls into at most two cycles. -/
theorem shuffling_reaches_iff (h2 : 2 ≤ arr.length) (hnd : arr.Nodup) (σ : Perm (Fin arr.length)) :
    (∃ rand, shuffling arr rand = .ok (List.ofFn fun k => arr.get (σ k))) ↔
      σ ⟨arr.length - 1, by omega⟩ = ⟨0, by omega⟩ ∧ ∃ r, ∀ k, σ.SameCycle ⟨0, by omega⟩ k ∨ σ.SameCycle r k := by
  simp only [shuffling_ofFn_iff h2 hnd]
  exact exists_shufflePerm_iff h2 σ

/-- The exchange of two elements. -/
theorem shuffling_reaches_iff_two : ∃ rand, shuffling [3, 5] rand = .ok [5, 3] := by
  have h2 : 2 ≤ [(3 : ℤ), 5].length := by decide
  have hnd : [(3 : ℤ), 5].Nodup := by decide
  refine (shuffling_reaches_iff h2 hnd (swap 0 1)).2 ⟨rfl, 1, fun k => ?_⟩
  fin_cases k
  · exact Or.inl .rfl
  · exact Or.inr .rfl

/-- Two elements do not stay in place. -/
theorem shuffling_moves : ¬ ∃ rand, shuffling [3, 5] rand = .ok [3, 5] := by
  rintro ⟨rand, h⟩
  have hone : rand 1 % 1 = 0 := Nat.mod_one _
  simp [shuffling, shuffleLoop, swapRef, readAt, hone] at h

end Vector

end Mpsi
