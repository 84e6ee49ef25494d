/-
Choosing places one after the other: round `c` exchanges place `c` with a place that is not before it, so
the places in front are an ordered selection. Every ordered selection comes from exactly one tuple of draws
(`selection_bijective`), and every set of `k` places from `k !` of them (`card_draws_selecting`).

Choosing them at once: of the sets of `n` places those that meet a given set in at most `m` are counted by
`card_meeting_le`.
-/
import Mpsi.Lib.Swap
import Mathlib.Algebra.BigOperators.Fin
import Mathlib.Data.Fintype.CardEmbedding
import Mathlib.Data.Fintype.Perm
import Mathlib.Data.Nat.Factorial.BigOperators

namespace Selections

open Equiv

section Picks

variable {t t' : ℕ → ℕ} {n c d k : ℕ}

/-- The places a list is read through after `c` rounds that exchange place `i` with place `t i`. -/
def picks (t : ℕ → ℕ) : ℕ → Perm ℕ
  | 0 => 1
  | c + 1 => picks t c * swap c (t c)

theorem picks_succ (t : ℕ → ℕ) (c k : ℕ) : picks t (c + 1) k = picks t c (swap c (t c) k) := rfl

/-- Round `c` brings the drawn place to the front. -/
theorem picks_front (t : ℕ → ℕ) (c : ℕ) : picks t (c + 1) c = picks t c (t c) := by
  rw [picks_succ, swap_apply_left]

/-- Later rounds do not reach the places in front. -/
theorem picks_stable (hk : k < c) (hcd : c ≤ d) (ht : ∀ i < d, i ≤ t i) : picks t d k = picks t c k := by
  induction d, hcd using Nat.le_induction with
  | base => rfl
  | succ d hcd ih =>
    have hd := ht d (Nat.lt_succ_self d)
    rw [picks_succ, swap_apply_of_ne_of_ne (by omega) (by omega), ih fun i hi => ht i (by omega)]

theorem picks_lt (hc : c ≤ n) (ht : ∀ i < c, t i < n) (hk : k < n) : picks t c k < n := by
  induction c generalizing k with
  | zero => exact hk
  | succ c ih =>
    have hdrawn := ht c (Nat.lt_succ_self c)
    exact ih (by omega) (fun i hi => ht i (by omega)) (Swap.swap_lt (by omega) hdrawn hk)

theorem picks_congr (h : ∀ i < c, t i = t' i) : picks t c = picks t' c := by
  induction c with
  | zero => rfl
  | succ c ih =>
    rw [picks, picks, ih fun i hi => h i (by omega), h c (Nat.lt_succ_self c)]

/-- The chosen places give the draws back: before round `c` the same places are left, and only one draw
brings a given one of them to the front. -/
theorem draws_eq_of_picks_eq (ht : ∀ i < k, i ≤ t i) (ht' : ∀ i < k, i ≤ t' i)
    (h : ∀ i < k, picks t k i = picks t' k i) : ∀ c < k, t c = t' c := by
  intro c
  induction c using Nat.strong_induction_on with
  | _ c ih =>
    intro hc
    have hbefore : picks t c = picks t' c := picks_congr fun i hi => ih i hi (by omega)
    have hfront := h c hc
    rw [picks_stable (Nat.lt_succ_self c) hc ht, picks_stable (Nat.lt_succ_self c) hc ht', picks_front, picks_front,
      hbefore] at hfront
    exact (picks t' c).injective hfront

end Picks

/-! ## Counting the draws -/

section Draws

variable {n k : ℕ}

/-- The draws of `k` rounds on `n` places: round `c` has `n - c` places to draw from. -/
abbrev Draws (n k : ℕ) := ∀ c : Fin k, Fin (n - c)

namespace Draws

/-- The draw of round `c`. -/
def word (d : Draws n k) (c : ℕ) : ℕ := if h : c < k then d ⟨c, h⟩ else 0

/-- The place drawn in round `c`. -/
def place (d : Draws n k) (c : ℕ) : ℕ := d.word c + c

theorem word_fin (d : Draws n k) (c : Fin k) : d.word c = d c := dif_pos c.2

theorem le_place (d : Draws n k) (c : ℕ) : c ≤ d.place c := Nat.le_add_left c _

theorem place_lt (d : Draws n k) {c : ℕ} (hc : c < k) : d.place c < n := by
  have hd := (d ⟨c, hc⟩).2
  have hword := d.word_fin ⟨c, hc⟩
  simp only at hd hword
  unfold place
  rw [hword]
  omega

/-- The draws that words of any size give. -/
def ofWords (hk : k ≤ n) (r : ℕ → ℕ) : Draws n k := fun c => ⟨r c % (n - c), Nat.mod_lt _ (by omega)⟩

theorem word_ofWords (hk : k ≤ n) (r : ℕ → ℕ) {c : ℕ} (hc : c < k) : (ofWords hk r).word c = r c % (n - c) := dif_pos hc

theorem ofWords_word (hk : k ≤ n) (d : Draws n k) : ofWords hk d.word = d := by
  funext c
  apply Fin.ext
  change d.word c % (n - c) = d c
  rw [word_fin, Nat.mod_eq_of_lt (d c).2]

end Draws

/-- The chosen places in the order of the rounds. -/
def selection (hk : k ≤ n) (d : Draws n k) : Fin k ↪ Fin n where
  toFun c := ⟨picks d.place k c, picks_lt hk (fun _ hi => d.place_lt hi) (by omega)⟩
  inj' a b h := by
    have hval := (picks d.place k).injective (Fin.mk.inj h)
    exact Fin.ext hval

theorem selection_injective (hk : k ≤ n) : Function.Injective (selection hk) := by
  intro d d' h
  have hpicks : ∀ i < k, picks d.place k i = picks d'.place k i := by
    intro i hi
    exact Fin.mk.inj (DFunLike.congr_fun h ⟨i, hi⟩)
  funext c
  have hplace := draws_eq_of_picks_eq (fun i _ => d.le_place i) (fun i _ => d'.le_place i) hpicks c c.2
  have hword : d.word c = d'.word c := Nat.add_right_cancel hplace
  rw [d.word_fin, d'.word_fin] at hword
  exact Fin.ext hword

theorem card_draws (n k : ℕ) : Fintype.card (Draws n k) = n.descFactorial k := by
  rw [Nat.descFactorial_eq_prod_range, Finset.prod_range, Fintype.card_pi]
  simp

/-- Every ordered selection comes from exactly one tuple of draws: there are as many of the one as of the
other. -/
theorem selection_bijective (hk : k ≤ n) : Function.Bijective (selection hk) := by
  refine (Fintype.bijective_iff_injective_and_card _).2 ⟨selection_injective hk, ?_⟩
  rw [card_draws, Fintype.card_embedding_eq, Fintype.card_fin, Fintype.card_fin]

/-- The orders of a set of `k` places are the bijections of the rounds with it. -/
noncomputable def ordersEquiv (S : Finset (Fin n)) (hS : S.card = k) :
    {f : Fin k ↪ Fin n // Finset.univ.map f = S} ≃ (Fin k ≃ S) where
  toFun f := Equiv.ofBijective
    (fun c => ⟨f.1 c, (Finset.ext_iff.1 f.2 _).1 (Finset.mem_map_of_mem f.1 (Finset.mem_univ c))⟩) (by
      refine (Fintype.bijective_iff_injective_and_card _).2 ⟨fun a b h => f.1.injective (Subtype.mk.inj h), ?_⟩
      rw [Fintype.card_fin, Fintype.card_coe, hS])
  invFun e := ⟨e.toEmbedding.trans (Function.Embedding.subtype _), by
    ext x
    simp only [Finset.mem_map, Finset.mem_univ, true_and, Function.Embedding.trans_apply]
    constructor
    · rintro ⟨c, rfl⟩
      exact (e c).2
    · intro hx
      exact ⟨e.symm ⟨x, hx⟩, by simp⟩⟩
  left_inv _ := rfl
  right_inv _ := Equiv.ext fun _ => rfl

/-- A set of `k` places is chosen by `k !` tuples of draws. -/
theorem card_draws_selecting (hk : k ≤ n) {S : Finset (Fin n)} (hS : S.card = k) :
    Fintype.card {d : Draws n k // Finset.univ.map (selection hk d) = S} = k.factorial := by
  have hfiber : {d : Draws n k // Finset.univ.map (selection hk d) = S} ≃ (Fin k ≃ S) :=
    (Equiv.subtypeEquivOfSubtype (Equiv.ofBijective _ (selection_bijective hk))).trans (ordersEquiv S hS)
  have hone : Fin k ≃ S := (finCongr (by rw [Fintype.card_coe, hS])).trans (Fintype.equivFin S).symm
  rw [Fintype.card_congr hfiber, Fintype.card_equiv hone, Fintype.card_fin]

end Draws

/-! ## Counting the sets that meet another one -/

section Meeting

open Finset

variable {α : Type} [DecidableEq α] {s t : Finset α} {n k : ℕ}

/-- A set of `n` elements that has `k` in common with `t` is `k` elements of `t` and `n - k` others. -/
theorem card_meeting_eq (s t : Finset α) (hk : k ≤ n) :
    #{C ∈ powersetCard n s | #(C ∩ t) = k} = (#(s ∩ t)).choose k * (#(s \ t)).choose (n - k) := by
  rw [← card_powersetCard, ← card_powersetCard, ← card_product]
  have hsplit : ∀ A B : Finset α, A ⊆ t → Disjoint B t → (A ∪ B) ∩ t = A ∧ (A ∪ B) \ t = B := by
    intro A B hA hB
    rw [union_inter_distrib_right, union_sdiff_distrib, inter_eq_left.2 hA, disjoint_iff_inter_eq_empty.1 hB, union_empty,
      sdiff_eq_empty_iff_subset.2 hA, empty_union, sdiff_eq_self_of_disjoint hB]
    exact ⟨rfl, rfl⟩
  apply card_nbij' (fun C => (C ∩ t, C \ t)) fun P => P.1 ∪ P.2
  · intro C hC
    rw [mem_coe, mem_filter, mem_powersetCard] at hC
    obtain ⟨⟨hCs, hCn⟩, hCk⟩ := hC
    have hcard := card_sdiff_add_card_inter C t
    rw [mem_coe, mem_product, mem_powersetCard, mem_powersetCard]
    refine ⟨⟨inter_subset_inter_right hCs, hCk⟩, sdiff_subset_sdiff hCs le_rfl, ?_⟩
    dsimp only
    omega
  · rintro ⟨A, B⟩ hP
    rw [mem_coe, mem_product, mem_powersetCard, mem_powersetCard] at hP
    obtain ⟨⟨hA, hAk⟩, hB, hBk⟩ := hP
    have hBt : Disjoint B t := disjoint_of_subset_left hB sdiff_disjoint
    obtain ⟨hint, hsdiff⟩ := hsplit A B (hA.trans inter_subset_right) hBt
    have hcard := card_sdiff_add_card_inter (A ∪ B) t
    rw [mem_coe, mem_filter, mem_powersetCard]
    refine ⟨⟨union_subset (hA.trans inter_subset_left) (hB.trans sdiff_subset), ?_⟩, by rw [hint, hAk]⟩
    rw [hint, hsdiff] at hcard
    dsimp only at hAk hBk ⊢
    omega
  · intro C _
    exact (union_comm _ _).trans (sdiff_union_inter C t)
  · rintro ⟨A, B⟩ hP
    rw [mem_coe, mem_product, mem_powersetCard, mem_powersetCard] at hP
    obtain ⟨⟨hA, -⟩, hB, -⟩ := hP
    obtain ⟨hint, hsdiff⟩ := hsplit A B (hA.trans inter_subset_right) (disjoint_of_subset_left hB sdiff_disjoint)
    exact Prod.ext hint hsdiff

/-- Sets of `n` elements that have at most `m` in common with `t`. -/
theorem card_meeting_le (s t : Finset α) {m : ℕ} (hm : m ≤ n) : #{C ∈ powersetCard n s | #(C ∩ t) ≤ m} =
    ∑ k ∈ range (m + 1), (#(s ∩ t)).choose k * (#(s \ t)).choose (n - k) := by
  rw [card_eq_sum_card_fiberwise (f := fun C => #(C ∩ t)) (t := range (m + 1)) fun C hC => ?_]
  · apply sum_congr rfl
    intro k hk
    have hkm := mem_range.1 hk
    rw [← card_meeting_eq s t (show k ≤ n by omega), filter_filter]
    congr 1
    apply filter_congr
    intro C _
    constructor
    · exact fun h => h.2
    · exact fun h => ⟨by omega, h⟩
  · have hCm := (mem_filter.1 (mem_coe.1 hC)).2
    exact mem_coe.2 (mem_range.2 (Nat.lt_succ_of_le hCm))

end Meeting

end Selections
