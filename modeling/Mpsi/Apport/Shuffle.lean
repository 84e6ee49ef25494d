/-
`shuffling` and `get_zeros_ones`: the places in front of the opened sub-group are split by their
choice bit, and each of the two vectors is shuffled.

A shuffle is a read through the permutation `shufflePerm` of its draws. The exclusive bound of the
draws (`% i`, not `% (i+1)`) shows in `shufflePerm_last`: the first element always ends up last;
`exists_shufflePerm_second` says that the second one can end up anywhere else. A vector of less than two
elements is no vector for `shuffling` (`shuffling_ok_iff`), so `get_zeros_ones` wants two places of each bit.
-/
import Mpsi.Data.Fault

namespace Mpsi

open Swap

/-! ## `shuffling` -/

/-- The loop of `shuffling`, from place `i` down to place 1. -/
def shuffleLoop (rand : ℕ → ℕ) : ℕ → List ℤ → Except Fault (List ℤ)
  | 0, arr => .ok arr
  | i + 1, arr => do
    let arr ← swapRef arr ((i + 1 : ℕ) : ℤ) ((rand (i + 1) % (i + 1) : ℕ) : ℤ)
    shuffleLoop rand i arr

/-- `shuffling`, where `rand[i]` is `rand i`. An empty vector makes it read `rand[-1]`, and one of a
single element divide by `i = 0`. -/
def shuffling (arr : List ℤ) (rand : ℕ → ℕ) : Except Fault (List ℤ) :=
  match arr.length with
  | 0 => .error .outOfRange
  | 1 => .error .divByZero
  | i + 2 => do
    let arr ← swapRef arr 0 ((rand (i + 1) % (i + 1) : ℕ) : ℤ)
    shuffleLoop rand (i + 1) arr

/-- The places the loop reads its vector through. -/
def loopPerm (rand : ℕ → ℕ) : ℕ → Equiv.Perm ℕ
  | 0 => 1
  | i + 1 => Equiv.swap (i + 1) (rand (i + 1) % (i + 1)) * loopPerm rand i

/-- The places a shuffle of `n` elements reads its vector through. -/
def shufflePerm (rand : ℕ → ℕ) (n : ℕ) : Equiv.Perm ℕ :=
  Equiv.swap 0 (rand (n - 1) % (n - 1)) * loopPerm rand (n - 1)

theorem loopPerm_succ (rand : ℕ → ℕ) (i k : ℕ) :
    loopPerm rand (i + 1) k = Equiv.swap (i + 1) (rand (i + 1) % (i + 1)) (loopPerm rand i k) := rfl

theorem loopPerm_lt (rand : ℕ → ℕ) {n : ℕ} : ∀ {i k : ℕ}, i < n → k < n → loopPerm rand i k < n
  | 0, _, _, hk => hk
  | i + 1, k, hi, hk => by
    have hr : rand (i + 1) % (i + 1) < i + 1 := Nat.mod_lt _ (Nat.succ_pos i)
    exact swap_lt hi (by omega) (loopPerm_lt rand (by omega) hk)

/-- Places above `i` are not touched any more. -/
theorem loopPerm_of_gt (rand : ℕ → ℕ) : ∀ {i k : ℕ}, i < k → loopPerm rand i k = k
  | 0, _, _ => rfl
  | i + 1, k, h => by
    have hr : rand (i + 1) % (i + 1) < i + 1 := Nat.mod_lt _ (Nat.succ_pos i)
    rw [loopPerm_succ, loopPerm_of_gt rand (by omega), Equiv.swap_apply_of_ne_of_ne (by omega) (by omega)]

theorem shufflePerm_lt (rand : ℕ → ℕ) {n k : ℕ} (hn : 2 ≤ n) (hk : k < n) : shufflePerm rand n k < n := by
  have hr : rand (n - 1) % (n - 1) < n - 1 := Nat.mod_lt _ (by omega)
  exact swap_lt (by omega) (by omega) (loopPerm_lt rand (by omega) hk)

theorem shuffleLoop_eq (rand : ℕ → ℕ) : ∀ (i : ℕ) (arr : List ℤ), i < arr.length →
    ∃ arr', shuffleLoop rand i arr = .ok arr' ∧ arr'.length = arr.length ∧
      ∀ k, arr'[k]? = arr[loopPerm rand i k]?
  | 0, arr, _ => ⟨arr, rfl, rfl, fun _ => rfl⟩
  | i + 1, arr, h => by
    have hr : rand (i + 1) % (i + 1) < i + 1 := Nat.mod_lt _ (Nat.succ_pos i)
    have hr' : rand (i + 1) % (i + 1) < arr.length := by omega
    obtain ⟨arr', h1, hl, hg⟩ := shuffleLoop_eq rand i (swapAt arr (i + 1) (rand (i + 1) % (i + 1)))
      (by rw [length_swapAt]; omega)
    refine ⟨arr', ?_, by rw [hl, length_swapAt], fun k => ?_⟩
    · unfold shuffleLoop
      rw [swapRef_nat h hr', ok_bind, h1]
    · rw [hg, getElem?_swapAt h hr', loopPerm_succ]

/-- A shuffle of at least two elements is a read through `shufflePerm`. -/
theorem shuffling_eq {arr : List ℤ} (h : 2 ≤ arr.length) (rand : ℕ → ℕ) :
    ∃ arr', shuffling arr rand = .ok arr' ∧ arr'.length = arr.length ∧
      ∀ k, arr'[k]? = arr[shufflePerm rand arr.length k]? := by
  obtain ⟨i, hi⟩ : ∃ i, arr.length = i + 2 := ⟨arr.length - 2, by omega⟩
  have hr : rand (i + 1) % (i + 1) < i + 1 := Nat.mod_lt _ (Nat.succ_pos i)
  have h0 : 0 < arr.length := by omega
  have hr' : rand (i + 1) % (i + 1) < arr.length := by omega
  obtain ⟨arr', h1, hl, hg⟩ := shuffleLoop_eq rand (i + 1) (swapAt arr 0 (rand (i + 1) % (i + 1)))
    (by rw [length_swapAt]; omega)
  refine ⟨arr', ?_, by rw [hl, length_swapAt], fun k => ?_⟩
  · have hs := swapRef_nat h0 hr'
    rw [Nat.cast_zero] at hs
    unfold shuffling
    rw [hi]
    simp only [hs, ok_bind, h1]
  · rw [hg, getElem?_swapAt h0 hr', hi]; rfl

/-- A shuffle that returns had at least two elements. -/
theorem two_le_of_shuffling {arr arr' : List ℤ} {rand : ℕ → ℕ} (h : shuffling arr rand = .ok arr') :
    2 ≤ arr.length := by
  unfold shuffling at h
  split at h
  · cases h
  · cases h
  · omega

theorem shuffling_perm {arr arr' : List ℤ} {rand : ℕ → ℕ} (h : shuffling arr rand = .ok arr') : arr'.Perm arr := by
  have h2 := two_le_of_shuffling h
  obtain ⟨ys, h1, hl, hg⟩ := shuffling_eq h2 rand
  rw [h] at h1; cases h1
  exact perm_of_reindex hl (shufflePerm rand arr.length) (fun k hk => shufflePerm_lt rand h2 hk) fun k _ => hg k

/-- The first element always ends up last: its place is drawn below the last one, twice from the
same draw, and no later round reaches it. -/
theorem shufflePerm_last (rand : ℕ → ℕ) {n : ℕ} (hn : 2 ≤ n) : shufflePerm rand n (n - 1) = 0 := by
  obtain ⟨i, rfl⟩ : ∃ i, n = i + 2 := ⟨n - 2, by omega⟩
  change Equiv.swap 0 (rand (i + 1) % (i + 1)) (loopPerm rand (i + 1) (i + 1)) = 0
  rw [loopPerm_succ, loopPerm_of_gt rand (Nat.lt_succ_self i), Equiv.swap_apply_left, Equiv.swap_apply_right]

/-- Draws that take the second element to place `p`. -/
def drawsTo (p : ℕ) : ℕ → ℕ := fun i => if i ≤ p then 0 else 1

theorem loopPerm_drawsTo {p i : ℕ} (hp : 1 ≤ p) (hi : p ≤ i) : loopPerm (drawsTo p) i p = 0 := by
  induction i, hi using Nat.le_induction with
  | base =>
    obtain ⟨q, rfl⟩ : ∃ q, p = q + 1 := ⟨p - 1, by omega⟩
    rw [loopPerm_succ, loopPerm_of_gt _ (Nat.lt_succ_self q), Equiv.swap_apply_left]
    simp [drawsTo]
  | succ i hi ih =>
    have hd : drawsTo p (i + 1) % (i + 1) = 1 := by
      unfold drawsTo
      rw [if_neg (by omega), Nat.mod_eq_of_lt (by omega)]
    rw [loopPerm_succ, ih, hd, Equiv.swap_apply_of_ne_of_ne (by omega) (by omega)]

theorem loopPerm_drawsTo_zero {i : ℕ} (hi : 1 ≤ i) : loopPerm (fun _ => 0) i 0 = 1 := by
  induction i, hi using Nat.le_induction with
  | base => rfl
  | succ i hi ih =>
    rw [loopPerm_succ, ih, Nat.zero_mod, Equiv.swap_apply_of_ne_of_ne (by omega) (by omega)]

/-- The second element can end up at any place but the last. -/
theorem exists_shufflePerm_second {n p : ℕ} (hp : p < n - 1) : ∃ rand, shufflePerm rand n p = 1 := by
  by_cases h0 : p = 0
  · subst h0
    refine ⟨fun _ => 0, ?_⟩
    unfold shufflePerm
    rw [Equiv.Perm.mul_apply, loopPerm_drawsTo_zero (by omega), Nat.zero_mod, Equiv.swap_self]
    rfl
  · refine ⟨drawsTo p, ?_⟩
    have hd : drawsTo p (n - 1) % (n - 1) = 1 := by
      unfold drawsTo
      rw [if_neg (by omega), Nat.mod_eq_of_lt (by omega)]
    unfold shufflePerm
    rw [Equiv.Perm.mul_apply, loopPerm_drawsTo (by omega) (by omega), hd, Equiv.swap_apply_left]

/-! ## `get_zeros_ones` -/

/-- `functions::get_zeros_ones`: the places below `Not - Nc` with bit 0 and those with bit 1, each
shuffled (the threads `t1` and `t2` share nothing). -/
def getZerosOnes (bitvector : List Bool) (Not Nc : ℕ) (rand0 rand1 : ℕ → ℕ) : Except Fault (List ℤ × List ℤ) := do
  let arr ← (List.range (Not - Nc)).foldlM (fun (arr : List ℤ × List ℤ) (i : ℕ) => do
    let v ← readAt none bitvector i
    pure (if v = false then (arr.1 ++ [(i : ℤ)], arr.2) else (arr.1, arr.2 ++ [(i : ℤ)]))) ([], [])
  let zeros ← shuffling arr.1 rand0
  let ones ← shuffling arr.2 rand1
  pure (zeros, ones)

/-- The places below `m` whose bit is `v`, in order. -/
def placesOf (bits : List Bool) (m : ℕ) (v : Bool) : List ℕ := (List.range m).filter fun k => bits[k]? = some v

theorem mem_placesOf {bits : List Bool} {m k : ℕ} {v : Bool} : k ∈ placesOf bits m v ↔ k < m ∧ bits[k]? = some v := by
  simp [placesOf]

theorem nodup_placesOf (bits : List Bool) (m : ℕ) (v : Bool) : (placesOf bits m v).Nodup :=
  List.nodup_range.filter _

theorem foldlM_placesOf {bits : List Bool} {m : ℕ} (h : m ≤ bits.length) :
    (List.range m).foldlM (fun (arr : List ℤ × List ℤ) (i : ℕ) => do
      let v ← readAt none bits i
      pure (if v = false then (arr.1 ++ [(i : ℤ)], arr.2) else (arr.1, arr.2 ++ [(i : ℤ)]))) ([], []) =
    (.ok (ofNats (placesOf bits m false), ofNats (placesOf bits m true)) : Except Fault (List ℤ × List ℤ)) := by
  induction m with
  | zero => rfl
  | succ m ih =>
    have hb : bits[m]? = some bits[m] := List.getElem?_eq_getElem h
    rw [List.range_succ, List.foldlM_append, ih (by omega), ok_bind]
    simp only [List.foldlM_cons, List.foldlM_nil, readAt_nat m h, ok_bind, bind_pure]
    cases hv : bits[m] <;> rw [hv] at hb <;>
      simp [placesOf, List.range_succ, List.filter_append, hb, ofNats] <;> rfl

/-- Both vectors are shuffles of the places with their bit. -/
theorem getZerosOnes_eq {bits : List Bool} {Not Nc : ℕ} (h : Not - Nc ≤ bits.length) (rand0 rand1 : ℕ → ℕ) :
    getZerosOnes bits Not Nc rand0 rand1 = (do
      let zeros ← shuffling (ofNats (placesOf bits (Not - Nc) false)) rand0
      let ones ← shuffling (ofNats (placesOf bits (Not - Nc) true)) rand1
      pure (zeros, ones)) := by
  unfold getZerosOnes
  rw [foldlM_placesOf h, ok_bind]

/-- A shuffle returns, and then a rearrangement, exactly when there are two elements. -/
theorem shuffling_ok_iff (arr : List ℤ) (rand : ℕ → ℕ) :
    (∃ arr', shuffling arr rand = .ok arr' ∧ arr'.Perm arr) ↔ 2 ≤ arr.length := by
  constructor
  · rintro ⟨arr', h, _⟩
    exact two_le_of_shuffling h
  · intro h
    obtain ⟨arr', hrun, _⟩ := shuffling_eq h rand
    exact ⟨arr', hrun, shuffling_perm hrun⟩

/-- `get_zeros_ones` ends inside its arrays, with the places of each bit rearranged, exactly when there are
two places of each bit. -/
theorem getZerosOnes_rearranges_iff {bits : List Bool} {Not : ℕ} (hb : bits.length = Not) (Nc : ℕ) (rand0 rand1 : ℕ → ℕ) :
    (∃ zeros ones, getZerosOnes bits Not Nc rand0 rand1 = .ok (zeros, ones) ∧
        zeros.Perm (ofNats (placesOf bits (Not - Nc) false)) ∧ ones.Perm (ofNats (placesOf bits (Not - Nc) true))) ↔
      ∀ v, 2 ≤ (placesOf bits (Not - Nc) v).length := by
  rw [getZerosOnes_eq (by omega), Bool.forall_bool]
  have h0 := shuffling_ok_iff (ofNats (placesOf bits (Not - Nc) false)) rand0
  have h1 := shuffling_ok_iff (ofNats (placesOf bits (Not - Nc) true)) rand1
  rw [length_ofNats] at h0 h1
  rw [← h0, ← h1]
  constructor
  · rintro ⟨zeros, ones, h, hp0, hp1⟩
    obtain ⟨zeros', hz, h⟩ := bind_ok h
    obtain ⟨ones', ho, h⟩ := bind_ok h
    cases h
    exact ⟨⟨zeros, hz, hp0⟩, ⟨ones, ho, hp1⟩⟩
  · rintro ⟨⟨zeros, hz, hp0⟩, ⟨ones, ho, hp1⟩⟩
    refine ⟨zeros, ones, ?_, hp0, hp1⟩
    rw [hz, ok_bind, ho, ok_bind]
    rfl

/-- Two 0s and two 1s. -/
theorem getZerosOnes_rearranges_four : ∃ zeros ones,
    getZerosOnes [false, true, true, false, true] 5 1 (fun i => i) (fun i => i) = .ok (zeros, ones) ∧ zeros.Perm [0, 3] := by
  have hb : [false, true, true, false, true].length = 5 := rfl
  obtain ⟨zeros, ones, h, hp0, _⟩ := (getZerosOnes_rearranges_iff hb 1 (fun i => i) fun i => i).2 (by decide)
  exact ⟨zeros, ones, h, hp0⟩

/-- A single 0: its shuffle divides by `i = 0`. -/
theorem not_getZerosOnes_rearranges : ¬ ∃ zeros ones,
    getZerosOnes [false, true, true] 3 0 (fun i => i) (fun i => i) = .ok (zeros, ones) ∧
      zeros.Perm (ofNats (placesOf [false, true, true] 3 false)) ∧ ones.Perm (ofNats (placesOf [false, true, true] 3 true)) := by
  rintro ⟨zeros, ones, h, _⟩
  rw [getZerosOnes_eq (by decide)] at h
  have hrun : shuffling (ofNats (placesOf [false, true, true] (3 - 0) false)) (fun i => i) = .error .divByZero := rfl
  rw [hrun] at h
  cases h

end Mpsi
