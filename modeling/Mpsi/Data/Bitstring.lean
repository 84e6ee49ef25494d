/-
`Bitstring(length, numOfOnes, c)`: the random choice vector of an instance. The loop brings `numOfOnes` places
to the front of the index array, and the bits at these places are set.

The constructor stays inside its arrays and sets the bits of the places chosen (`bitstring_eq`); so each vector
of the weight comes from the same number of draws (`bitstring_uniform`).
-/
import Mpsi.Data.Fault
import Mpsi.Lib.Selections

namespace Mpsi

open Swap Selections

/-- `Bitstring::set_bit`. -/
def setBit (arr : List UInt8) (place new_val : ℤ) : Except Fault (List UInt8) := do
  let _ ← readAt none arr place
  pure (arr.set place.toNat (UInt8.ofInt new_val))

/-- `Bitstring::get_bit`. -/
def getBit (arr : List UInt8) (place : ℤ) : Except Fault ℤ := do
  let b ← readAt none arr place
  pure b.toNat

/-- The loop of the constructor: `n` rounds from `counter` on, with the words `r` of the generator. -/
def chooseLoop (r : List ℕ) (length : ℕ) : ℕ → ℕ → List ℤ → Except Fault (List ℤ)
  | 0, _, indexes => .ok indexes
  | n + 1, counter, indexes => do
    let w ← readAt none r counter
    if length - counter = 0 then .error .divByZero
    else do
      let indexes ← swapRef indexes ((w % (length - counter) + counter : ℕ) : ℤ) counter
      chooseLoop r length n (counter + 1) indexes

/-- `Bitstring::Bitstring(length, numOfOnes, c)`, where word number `i` of `c->gen_rnd` is `rnd i`. -/
def bitstring (length numOfOnes : ℤ) (rnd : ℕ → ℕ) : Except Fault (List UInt8) := do
  newArray length
  let arr := List.replicate length.toNat 0
  if numOfOnes = 0 then pure arr
  else do
    newArray numOfOnes
    let indexes ← chooseLoop ((List.range numOfOnes.toNat).map rnd) length.toNat numOfOnes.toNat 0
      (ofNats (List.range length.toNat))
    (List.range numOfOnes.toNat).foldlM (fun arr (i : ℕ) => do
      let place ← readAt none indexes i
      setBit arr place 1) arr

/-! ## Vectors of a weight -/

/-- A vector of 0s and 1s of the given length and weight. -/
structure OfWeight (length numOfOnes : ℕ) (v : List UInt8) : Prop where
  length_eq : v.length = length
  bits : ∀ b ∈ v, b = 0 ∨ b = 1
  ones : v.count 1 = numOfOnes

/-- The vector with 1s at the places of a set. -/
def vectorOf {n : ℕ} (S : Finset (Fin n)) : List UInt8 := List.ofFn fun i => if i ∈ S then 1 else 0

section VectorOf

variable {n k : ℕ} {S S' : Finset (Fin n)} {v : List UInt8}

@[simp] theorem length_vectorOf (S : Finset (Fin n)) : (vectorOf S).length = n := by simp [vectorOf]

theorem getElem_vectorOf {i : ℕ} (hi : i < n) :
    (vectorOf S)[i]? = some (if (⟨i, hi⟩ : Fin n) ∈ S then 1 else 0) := by
  simp [vectorOf, hi]

theorem count_vectorOf (S : Finset (Fin n)) : (vectorOf S).count 1 = S.card := by
  have hcount := Fin.card_filter_univ_eq_vector_get_eq_count (1 : UInt8)
    (List.Vector.ofFn fun i => if i ∈ S then 1 else 0)
  rw [List.Vector.toList_ofFn] at hcount
  unfold vectorOf
  rw [← hcount]
  congr 1
  ext i
  simp

theorem ofWeight_vectorOf (h : S.card = k) : OfWeight n k (vectorOf S) where
  length_eq := length_vectorOf S
  bits b hb := by
    obtain ⟨i, rfl⟩ := (List.mem_ofFn' _ _).1 hb
    by_cases hi : i ∈ S
    · exact Or.inr (if_pos hi)
    · exact Or.inl (if_neg hi)
  ones := by rw [count_vectorOf, h]

theorem vectorOf_injective (h : vectorOf S = vectorOf S') : S = S' := by
  ext i
  have hi := List.ofFn_injective h
  have hbit := congrFun hi i
  by_cases h1 : i ∈ S <;> by_cases h2 : i ∈ S' <;> simp_all

/-- A vector of a weight has its 1s at so many places. -/
theorem exists_vectorOf (h : OfWeight n k v) : ∃ S : Finset (Fin n), S.card = k ∧ vectorOf S = v := by
  obtain ⟨hl, hb, ho⟩ := h
  subst hl
  have hv : vectorOf (Finset.univ.filter fun i : Fin v.length => v.get i = 1) = v := by
    conv_rhs => rw [← List.ofFn_get v]
    unfold vectorOf
    congr 1
    funext i
    simp only [Finset.mem_filter, Finset.mem_univ, true_and]
    rcases hb (v.get i) (List.get_mem v i) with h0 | h1
    · rw [h0]; rfl
    · rw [h1]; rfl
  refine ⟨_, ?_, hv⟩
  rw [← count_vectorOf, hv, ho]

end VectorOf

/-! ## The constructor -/

section Run

variable {n k : ℕ} {t : ℕ → ℕ} {c : ℕ}

/-- The index array after `c` rounds. -/
def pickedIndexes (t : ℕ → ℕ) (n c : ℕ) : List ℤ := ofNats ((List.range n).map (picks t c))

@[simp] theorem length_pickedIndexes (t : ℕ → ℕ) (n c : ℕ) : (pickedIndexes t n c).length = n := by simp [pickedIndexes]

theorem getElem_pickedIndexes {i : ℕ} (hi : i < n) : (pickedIndexes t n c)[i]? = some (picks t c i : ℤ) := by
  simp [pickedIndexes, ofNats, hi]

/-- A round exchanges as the permutation says. -/
theorem swapAt_pickedIndexes (hc : c < n) (ht : t c < n) :
    swapAt (pickedIndexes t n c) (t c) c = pickedIndexes t n (c + 1) := by
  apply List.ext_getElem?
  intro i
  rw [getElem?_swapAt (by simpa using ht) (by simpa using hc), Equiv.swap_comm]
  by_cases hi : i < n
  · rw [getElem_pickedIndexes (swap_lt hc ht hi), getElem_pickedIndexes hi, picks_succ]
  · have hswap : Equiv.swap c (t c) i = i := Equiv.swap_apply_of_ne_of_ne (by omega) (by omega)
    rw [hswap, List.getElem?_eq_none (by simpa using hi), List.getElem?_eq_none (by simpa using hi)]

/-- The loop divides by no zero and draws from the places that are left. -/
theorem chooseLoop_eq (hk : k ≤ n) (rnd : ℕ → ℕ) : ∀ j c, c + j = k →
    chooseLoop ((List.range k).map rnd) n j c (pickedIndexes (Draws.ofWords hk rnd).place n c) =
      .ok (pickedIndexes (Draws.ofWords hk rnd).place n k)
  | 0, c, hc => by
    unfold chooseLoop
    rw [show c = k by omega]
  | j + 1, c, hc => by
    have hck : c < k := by omega
    have hword : readAt none ((List.range k).map rnd) c = .ok (rnd c) := by
      rw [readAt_nat c (by simpa using hck)]
      simp
    have hplace : rnd c % (n - c) + c = (Draws.ofWords hk rnd).place c := by
      rw [Draws.place, Draws.word_ofWords hk rnd hck]
    have hlt := (Draws.ofWords hk rnd).place_lt hck
    rw [chooseLoop, hword, ok_bind, if_neg (by omega), hplace,
      swapRef_nat (by simpa using hlt) (by simp; omega), ok_bind, swapAt_pickedIndexes (by omega) hlt]
    exact chooseLoop_eq hk rnd j (c + 1) (by omega)

theorem setBit_vectorOf (S : Finset (Fin n)) (i : Fin n) : setBit (vectorOf S) (i : ℕ) 1 = .ok (vectorOf (insert i S)) := by
  have hi : (i : ℕ) < (vectorOf S).length := by simp
  unfold setBit
  rw [readAt_nat _ hi, ok_bind, Int.toNat_natCast]
  refine congrArg _ (List.ext_getElem? fun j => ?_)
  rw [List.getElem?_set]
  by_cases hj : j < n
  · rw [getElem_vectorOf hj, getElem_vectorOf hj]
    by_cases hij : i = ⟨j, hj⟩
    · subst hij
      simp [hj]
    · have hne : (i : ℕ) ≠ j := fun h => hij (Fin.ext h)
      simp [hne, Ne.symm hij]
  · have hne : (i : ℕ) ≠ j := by omega
    rw [if_neg hne, List.getElem?_eq_none (by simpa using hj), List.getElem?_eq_none (by simpa using hj)]

theorem getBit_vectorOf (S : Finset (Fin n)) (i : Fin n) : getBit (vectorOf S) (i : ℕ) = .ok (if i ∈ S then 1 else 0) := by
  have hi : (i : ℕ) < (vectorOf S).length := by simp
  have hget := getElem_vectorOf (S := S) i.isLt
  rw [List.getElem?_eq_getElem hi, Option.some_inj] at hget
  unfold getBit
  rw [readAt_nat _ hi, ok_bind, hget]
  split <;> rfl

/-- The bits set after `j` rounds of the second loop are those of the first `j` places chosen. -/
theorem setBits_eq (f : Fin k ↪ Fin n) {indexes : List ℤ} (hx : ∀ i : Fin k, indexes[(i : ℕ)]? = some ((f i : ℕ) : ℤ)) :
    ∀ {j : ℕ}, j ≤ k → (List.range j).foldlM (fun arr (i : ℕ) => do
      let place ← readAt none indexes i
      setBit arr place 1) (vectorOf (∅ : Finset (Fin n))) = .ok (vectorOf ((Finset.univ.filter fun i : Fin k => i.val < j).map f))
  | 0, _ => by simp; rfl
  | j + 1, hj => by
    have hread : readAt none indexes (j : ℕ) = .ok ((f ⟨j, hj⟩ : ℕ) : ℤ) := readAt_none_ok.2 ⟨j, rfl, hx ⟨j, hj⟩⟩
    have hset : (Finset.univ.filter fun i : Fin k => i.val < j + 1).map f =
        insert (f ⟨j, hj⟩) ((Finset.univ.filter fun i : Fin k => i.val < j).map f) := by
      rw [← Finset.map_insert]
      congr 1
      ext i
      simp [Fin.ext_iff]
      omega
    rw [List.range_succ, List.foldlM_append, setBits_eq f hx (by omega), ok_bind, hset]
    simp only [List.foldlM_cons, List.foldlM_nil, hread, ok_bind, setBit_vectorOf]
    rfl

/-- The constructor sets the bits of the places its draws select. -/
theorem bitstring_eq (hk : k ≤ n) (rnd : ℕ → ℕ) :
    bitstring n k rnd = .ok (vectorOf (Finset.univ.map (selection hk (Draws.ofWords hk rnd)))) := by
  have hzeros : List.replicate n (0 : UInt8) = vectorOf (∅ : Finset (Fin n)) := by simp [vectorOf]
  have hlength : newArray n = .ok () := newArray_ok.2 (Int.natCast_nonneg n)
  have hones : newArray k = .ok () := newArray_ok.2 (Int.natCast_nonneg k)
  have hstart : ofNats (List.range n) = pickedIndexes (Draws.ofWords hk rnd).place n 0 := by
    simp [pickedIndexes, picks]
  unfold bitstring
  simp only [hlength, ok_bind, Int.toNat_natCast, hzeros, Nat.cast_eq_zero]
  split
  · rename_i h0
    subst h0
    have hnone : (Finset.univ : Finset (Fin 0)) = ∅ := rfl
    simp only [hnone, Finset.map_empty]
    rfl
  · rw [hones, ok_bind, hstart, chooseLoop_eq hk rnd k 0 (by omega), ok_bind]
    have hchosen : ∀ i : Fin k, (pickedIndexes (Draws.ofWords hk rnd).place n k)[(i : ℕ)]? =
        some ((selection hk (Draws.ofWords hk rnd) i : ℕ) : ℤ) := fun i => getElem_pickedIndexes (by omega)
    rw [setBits_eq _ hchosen le_rfl]
    congr 3
    simp

/-- `Bitstring(length)`. -/
theorem bitstring_zeros (n : ℕ) (rnd : ℕ → ℕ) : bitstring n 0 rnd = .ok (vectorOf (∅ : Finset (Fin n))) := by
  have h := bitstring_eq (Nat.zero_le n) rnd
  rwa [Finset.univ_eq_empty, Finset.map_empty, Nat.cast_zero] at h

theorem bitstring_ofWeight (hk : k ≤ n) (rnd : ℕ → ℕ) : ∃ v, bitstring n k rnd = .ok v ∧ OfWeight n k v := by
  refine ⟨_, bitstring_eq hk rnd, ofWeight_vectorOf ?_⟩
  rw [Finset.card_map, Finset.card_univ, Fintype.card_fin]

/-- The vector depends on the residues of the words only, is one of the weight, and each vector of the
weight comes from the same number of residues: the choices are as even as the words are. -/
theorem bitstring_uniform (hk : k ≤ n) :
    (∀ rnd, ∃ v, bitstring n k rnd = .ok v ∧ OfWeight n k v) ∧
      (∀ rnd rnd', (∀ c < k, rnd c % (n - c) = rnd' c % (n - c)) → bitstring n k rnd = bitstring n k rnd') ∧
      ∀ v, OfWeight n k v → Nat.card {d : Draws n k // bitstring n k d.word = .ok v} = k.factorial := by
  refine ⟨bitstring_ofWeight hk, fun rnd rnd' h => ?_, fun v hv => ?_⟩
  · have hdraws : Draws.ofWords hk rnd = Draws.ofWords hk rnd' := funext fun c => Fin.ext (h c c.2)
    rw [bitstring_eq hk, bitstring_eq hk, hdraws]
  · obtain ⟨S, hS, rfl⟩ := exists_vectorOf hv
    have hsel : ∀ d : Draws n k,
        bitstring n k d.word = .ok (vectorOf S) ↔ Finset.univ.map (selection hk d) = S := by
      intro d
      rw [bitstring_eq hk, Draws.ofWords_word, Except.ok.injEq]
      exact ⟨vectorOf_injective, congrArg vectorOf⟩
    rw [Nat.card_congr (Equiv.subtypeEquivRight hsel), Nat.card_eq_fintype_card, card_draws_selecting hk hS]

/-- Two of three places: each of the three vectors comes from two of the six tuples of residues. -/
theorem bitstring_uniform_three : Nat.card {d : Draws 3 2 // bitstring 3 2 d.word = .ok [1, 0, 1]} = 2 :=
  (bitstring_uniform (by decide : 2 ≤ 3)).2.2 [1, 0, 1] ⟨rfl, by simp, rfl⟩

end Run

end Mpsi
