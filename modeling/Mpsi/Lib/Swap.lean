/-
Exchanging two elements of a list: the result is the list read through a transposition of the indices, and
a list read through a permutation of its indices is a rearrangement.
-/
import Mathlib.Data.List.FinRange
import Mathlib.Data.List.OfFn
import Mathlib.Logic.Equiv.Basic
import Mathlib.Tactic

namespace Swap

variable {α : Type}

/-- `xs` with the elements at `i` and `j` exchanged; unchanged when an index is outside. -/
def swapAt (xs : List α) (i j : ℕ) : List α :=
  match xs[i]?, xs[j]? with
  | some a, some b => (xs.set i b).set j a
  | _, _ => xs

theorem swapAt_of_lt {xs : List α} {i j : ℕ} (hi : i < xs.length) (hj : j < xs.length) :
    swapAt xs i j = (xs.set i xs[j]).set j xs[i] := by
  unfold swapAt; rw [List.getElem?_eq_getElem hi, List.getElem?_eq_getElem hj]

@[simp] theorem length_swapAt (xs : List α) (i j : ℕ) : (swapAt xs i j).length = xs.length := by
  unfold swapAt; split <;> simp

/-- An exchange is a read through the transposition of the two indices. -/
theorem getElem?_swapAt {xs : List α} {i j : ℕ} (hi : i < xs.length) (hj : j < xs.length) (k : ℕ) :
    (swapAt xs i j)[k]? = xs[Equiv.swap i j k]? := by
  rw [swapAt_of_lt hi hj, List.getElem?_set, List.getElem?_set]
  by_cases hkj : j = k
  · subst hkj; simp [hi, hj]
  · by_cases hki : i = k
    · subst hki; simp [hkj, hi, hj]
    · rw [if_neg hkj, if_neg hki, Equiv.swap_apply_of_ne_of_ne (Ne.symm hki) (Ne.symm hkj)]

/-- An exchange of two of the first `n` indices keeps the others among them. -/
theorem swap_lt {i j k n : ℕ} (hi : i < n) (hj : j < n) (hk : k < n) : Equiv.swap i j k < n := by
  by_cases h1 : k = i
  · rwa [h1, Equiv.swap_apply_left]
  · by_cases h2 : k = j
    · rwa [h2, Equiv.swap_apply_right]
    · rwa [Equiv.swap_apply_of_ne_of_ne h1 h2]

/-- A list read through a permutation of its indices is a rearrangement of it. -/
theorem perm_of_reindex {xs ys : List α} (hl : ys.length = xs.length) (e : Equiv.Perm ℕ)
    (he : ∀ k, k < xs.length → e k < xs.length) (h : ∀ k, k < xs.length → ys[k]? = xs[e k]?) : ys.Perm xs := by
  have hinj : Function.Injective fun k : Fin xs.length => (⟨e k, he k k.2⟩ : Fin xs.length) := by
    intro a b hab
    exact Fin.ext (e.injective (by simpa using hab))
  let σ : Equiv.Perm (Fin xs.length) := Equiv.ofBijective _ (Finite.injective_iff_bijective.1 hinj)
  have hy : ys = List.ofFn (fun k => xs.get (σ k)) := by
    apply List.ext_getElem?
    intro k
    by_cases hk : k < xs.length
    · rw [h k hk, List.getElem?_eq_getElem (he k hk), List.getElem?_eq_getElem (by simpa using hk)]
      simp [σ]
    · rw [List.getElem?_eq_none (by omega), List.getElem?_eq_none (by simpa using hk)]
  have hx : xs = List.ofFn xs.get := by simp
  rw [hy]
  conv_rhs => rw [hx]
  exact σ.ofFn_comp_perm xs.get

end Swap
