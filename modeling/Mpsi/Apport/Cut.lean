/-
The receiver's part of the cut-and-choose step: `compute_R_r` moves the opened sub-group to the end
of the index array and collects the sub-group's 0-positions and the exclusive or of their strings.

`computeRr_eq` gives its arrays as the original ones read through one permutation `openedPerm`, and
`openedPerm_mem_iff` says that this carries the last `Nc` places onto the sub-group, so that what
remains in front stands for unopened positions only.
-/
import Mpsi.Apport.SubGroup
import Mathlib.Data.List.Sort

namespace Mpsi

open Swap

/-! ## The receiver: `compute_R_r` -/

/-- The arrays of `functions::compute_R_r`. -/
structure RrState where
  indexes : List ℤ
  b : List Bool
  r : Block
  R : List ℤ

/-- One round of the loop of `compute_R_r`: the index and the bit of `target` go to place `ind`;
a 0-position enters `R` and its string `r`. -/
def cutStep (strings : List Block) (st : RrState) (target : ℕ) (ind : ℤ) : Except Fault RrState := do
  let val ← readAt none st.b target
  let indexes ← swapRef st.indexes target ind
  let b ← swapRef st.b target ind
  if val = false then do
    let s ← readAt none strings target
    pure ⟨indexes, b, st.r ^^^ s, st.R ++ [(target : ℤ)]⟩
  else
    pure { st with indexes := indexes, b := b }

def cutLoop (strings : List Block) : List ℕ → ℤ → RrState → Except Fault RrState
  | [], _, st => .ok st
  | target :: rest, ind, st => do
    let st ← cutStep strings st target ind
    cutLoop strings rest (ind - 1) st

/-- `functions::compute_R_r`: the sub-group sorted from big to small (`compare_func`), then one round
for each of its indices. -/
def computeRr (subGroup : List ℕ) (indexes : List ℤ) (b : List Bool) (Not : ℤ) (strings : List Block) :
    Except Fault RrState :=
  cutLoop strings (subGroup.insertionSort (· ≥ ·)) (Not - 1) ⟨indexes, b, toBlock 0 0, []⟩

/-- The positions the loop reads its arrays through: the exchanges of the rounds composed. -/
def cutPerm : List ℕ → ℕ → Equiv.Perm ℕ
  | [], _ => 1
  | t :: ts, n => Equiv.swap t (n - 1) * cutPerm ts (n - 1)

theorem cutPerm_cons (t : ℕ) (ts : List ℕ) (n k : ℕ) :
    cutPerm (t :: ts) n k = Equiv.swap t (n - 1) (cutPerm ts (n - 1) k) := rfl

/-- A sub-group in the order of the loop: from big to small, below `n`. -/
def Descends (ts : List ℕ) (n : ℕ) : Prop := ts.Pairwise (· > ·) ∧ ∀ t ∈ ts, t < n

theorem Descends.tail {t : ℕ} {ts : List ℕ} {n : ℕ} (h : Descends (t :: ts) n) : Descends ts (n - 1) := by
  refine ⟨(List.pairwise_cons.1 h.1).2, fun u hu => ?_⟩
  have h1 := (List.pairwise_cons.1 h.1).1 u hu
  have h2 := h.2 t (List.mem_cons_self ..)
  omega

theorem Descends.head {t : ℕ} {ts : List ℕ} {n : ℕ} (h : Descends (t :: ts) n) : t < n :=
  h.2 t (List.mem_cons_self ..)

theorem Descends.length_le : ∀ {ts : List ℕ} {n : ℕ}, Descends ts n → ts.length ≤ n
  | [], _, _ => Nat.zero_le _
  | t :: ts, n, h => by
    have h1 := h.tail.length_le
    have h2 := h.head
    simp only [List.length_cons]; omega

/-- The places from `n` on are those of earlier rounds and stay. -/
theorem cutPerm_of_ge : ∀ {ts : List ℕ} {n k : ℕ}, Descends ts n → n ≤ k → cutPerm ts n k = k
  | [], _, _, _, _ => rfl
  | t :: ts, n, k, h, hk => by
    have ht := h.head
    rw [cutPerm_cons, cutPerm_of_ge h.tail (by omega), Equiv.swap_apply_of_ne_of_ne (by omega) (by omega)]

theorem cutPerm_lt : ∀ {ts : List ℕ} {n k : ℕ}, Descends ts n → k < n → cutPerm ts n k < n
  | [], _, _, _, hk => hk
  | t :: ts, n, k, h, hk => by
    have ht := h.head
    have hlt : cutPerm ts (n - 1) k < n := by
      by_cases hk' : k < n - 1
      · have := cutPerm_lt h.tail hk'
        omega
      · rw [cutPerm_of_ge h.tail (by omega)]; exact hk
    rw [cutPerm_cons]
    by_cases h1 : cutPerm ts (n - 1) k = t
    · rw [h1, Equiv.swap_apply_left]; omega
    · by_cases h2 : cutPerm ts (n - 1) k = n - 1
      · rw [h2, Equiv.swap_apply_right]; exact ht
      · rwa [Equiv.swap_apply_of_ne_of_ne h1 h2]

/-- The last places hold the sub-group and the others nothing of it. -/
theorem cutPerm_mem_iff : ∀ {ts : List ℕ} {n k : ℕ}, Descends ts n → k < n →
    (cutPerm ts n k ∈ ts ↔ n ≤ k + ts.length)
  | [], n, k, _, hk => by simp; omega
  | t :: ts, n, k, h, hk => by
    have ht := h.head
    rw [cutPerm_cons, List.length_cons]
    by_cases hk' : k < n - 1
    · have ih := cutPerm_mem_iff h.tail hk'
      have hlt := cutPerm_lt h.tail hk'
      have hnot : t ∉ ts := fun hm => absurd ((List.pairwise_cons.1 h.1).1 t hm) (lt_irrefl t)
      by_cases h1 : cutPerm ts (n - 1) k = t
      · -- the place that takes the target of this round is given the index `n - 1`
        rw [h1, Equiv.swap_apply_left]
        rw [h1] at ih hlt
        have h2 : n - 1 ∉ ts := fun hm => absurd (h.tail.2 _ hm) (lt_irrefl _)
        simp only [List.mem_cons, h2, or_false]
        have := mt ih.2 hnot
        omega
      · rw [Equiv.swap_apply_of_ne_of_ne h1 (by omega), List.mem_cons, or_iff_right h1, ih]
        omega
    · have hk1 : k = n - 1 := by omega
      subst hk1
      rw [cutPerm_of_ge h.tail le_rfl, Equiv.swap_apply_right]
      simp only [List.mem_cons, true_or, true_iff]
      omega

/-- The 0-positions of `b` among `ts`, in order. -/
def zeroPositions (b : List Bool) (ts : List ℕ) : List ℕ := ts.filter fun t => b[t]? = some false

/-- The block at an index that is in range. -/
def blockAt (strings : List Block) (t : ℕ) : Block := strings.getD t 0

theorem readAt_blockAt {strings : List Block} {t : ℕ} (h : t < strings.length) :
    readAt none strings t = .ok (blockAt strings t) := by
  rw [readAt_nat t h]; simp [blockAt, h]

/-- The loop from place `n - 1` on arrays longer than `n`. Earlier rounds have only touched places
from `n` on, so a target's bit is still the original one. -/
theorem cutLoop_eq {strings : List Block} {L : ℕ} (hs : strings.length = L) :
    ∀ (ts : List ℕ) (n : ℕ) (st : RrState), Descends ts n → n ≤ L → st.indexes.length = L → st.b.length = L →
      ∃ st', cutLoop strings ts ((n : ℤ) - 1) st = .ok st' ∧
        st'.indexes.length = L ∧ st'.b.length = L ∧
        (∀ k, k < L → st'.indexes[k]? = st.indexes[cutPerm ts n k]?) ∧
        (∀ k, k < L → st'.b[k]? = st.b[cutPerm ts n k]?) ∧
        st'.R = st.R ++ ofNats (zeroPositions st.b ts) ∧
        st'.r = st.r + ((zeroPositions st.b ts).map (blockAt strings)).sum
  | [], n, st, _, _, hi, hb => ⟨st, rfl, hi, hb, fun _ _ => rfl, fun _ _ => rfl, by simp [zeroPositions, ofNats],
      by simp [zeroPositions]⟩
  | t :: ts, n, st, h, hn, hi, hb => by
    have ht := h.head
    have htb : t < st.b.length := by omega
    have hti : t < st.indexes.length := by omega
    have hnb : n - 1 < st.b.length := by omega
    have hni : n - 1 < st.indexes.length := by omega
    have hind : (n : ℤ) - 1 = ((n - 1 : ℕ) : ℤ) := by omega
    -- the round
    obtain ⟨st₁, h1, hi1, hb1, hR1, hr1⟩ : ∃ st₁, cutStep strings st t ((n : ℤ) - 1) = .ok st₁ ∧
        st₁.indexes = swapAt st.indexes t (n - 1) ∧ st₁.b = swapAt st.b t (n - 1) ∧
        st₁.R = st.R ++ ofNats (zeroPositions st.b [t]) ∧
        st₁.r = st.r + ((zeroPositions st.b [t]).map (blockAt strings)).sum := by
      rw [hind]
      simp only [cutStep, readAt_nat t htb, ok_bind, swapRef_nat hti hni, swapRef_nat htb hnb,
        readAt_blockAt (by omega : t < strings.length)]
      have hbt : st.b[t]? = some st.b[t] := List.getElem?_eq_getElem htb
      cases hv : st.b[t] with
      | false => exact ⟨_, rfl, rfl, rfl, by simp [zeroPositions, ofNats, hbt, hv], by simp [zeroPositions, hbt, hv]⟩
      | true => exact ⟨_, rfl, rfl, rfl, by simp [zeroPositions, ofNats, hbt, hv], by simp [zeroPositions, hbt, hv]⟩
    obtain ⟨st₂, h2, hi2, hb2, hgi, hgb, hR2, hr2⟩ := cutLoop_eq hs ts (n - 1) st₁ h.tail (by omega)
      (by simp [hi1, hi]) (by simp [hb1, hb])
    -- the bits of the remaining targets are those of the original array
    have hz : zeroPositions st₁.b ts = zeroPositions st.b ts := by
      apply List.filter_congr
      intro u hu
      have h3 := (List.pairwise_cons.1 h.1).1 u hu
      have h4 := h.tail.2 u hu
      rw [hb1, getElem?_swapAt htb hnb, Equiv.swap_apply_of_ne_of_ne (by omega) (by omega)]
    have hsplit : zeroPositions st.b (t :: ts) = zeroPositions st.b [t] ++ zeroPositions st.b ts := by
      simp only [zeroPositions, ← List.filter_append, List.singleton_append]
    have hlt : ∀ k, k < L → cutPerm ts (n - 1) k < L := by
      intro k hk
      by_cases hk' : k < n - 1
      · have := cutPerm_lt h.tail hk'
        omega
      · rwa [cutPerm_of_ge h.tail (by omega)]
    refine ⟨st₂, ?_, hi2, hb2, fun k hk => ?_, fun k hk => ?_, ?_, ?_⟩
    · unfold cutLoop
      rw [h1, ok_bind, hind]
      exact h2
    · rw [hgi k hk, hi1, getElem?_swapAt hti hni, cutPerm_cons]
    · rw [hgb k hk, hb1, getElem?_swapAt htb hnb, cutPerm_cons]
    · rw [hR2, hz, hR1, hsplit]; simp [ofNats]
    · rw [hr2, hz, hr1, hsplit]; simp [add_assoc]

/-- The sub-group in the order of `compute_R_r`. -/
def sortedDown (subGroup : List ℕ) : List ℕ := subGroup.insertionSort (· ≥ ·)

theorem sortedDown_descends {Not : ℕ} (C : SubGroup Not) : Descends (sortedDown C.elems) Not := by
  have hp := List.pairwise_insertionSort (· ≥ ·) C.elems
  have hnd : (sortedDown C.elems).Nodup := (List.perm_insertionSort (· ≥ ·) C.elems).nodup_iff.2 C.nodup
  refine ⟨(List.pairwise_and_iff.2 ⟨hp, hnd⟩).imp fun h => lt_of_le_of_ne h.1 (Ne.symm h.2), fun t ht => ?_⟩
  exact C.lt t ((List.mem_insertionSort (· ≥ ·)).1 ht)

theorem mem_sortedDown {subGroup : List ℕ} {t : ℕ} : t ∈ sortedDown subGroup ↔ t ∈ subGroup :=
  List.mem_insertionSort (· ≥ ·)

theorem length_sortedDown (subGroup : List ℕ) : (sortedDown subGroup).length = subGroup.length :=
  List.length_insertionSort (· ≥ ·) subGroup

/-- The index array of `Party::compute_R_r`. -/
def freshIndexes (Not : ℕ) : List ℤ := ofNats (List.range Not)

/-- The position of the strings that place `k` of the receiver's arrays stands for once `C` is opened. -/
def openedPerm {Not : ℕ} (C : SubGroup Not) : Equiv.Perm ℕ := cutPerm (sortedDown C.elems) Not

theorem openedPerm_lt {Not : ℕ} (C : SubGroup Not) {k : ℕ} (hk : k < Not) : openedPerm C k < Not :=
  cutPerm_lt (sortedDown_descends C) hk

/-- The opened positions are those of the last places. -/
theorem openedPerm_mem_iff {Not : ℕ} (C : SubGroup Not) {k : ℕ} (hk : k < Not) :
    openedPerm C k ∈ C.elems ↔ Not ≤ k + C.size := by
  have h := cutPerm_mem_iff (sortedDown_descends C) hk
  rwa [mem_sortedDown, length_sortedDown] at h

theorem SubGroup.size_le {Not : ℕ} (C : SubGroup Not) : C.size ≤ Not := by
  have h := (sortedDown_descends C).length_le
  rwa [length_sortedDown] at h

/-- What `compute_R_r` computes from the index array `0, 1, ..., Not - 1`. -/
structure CutResult {Not : ℕ} (C : SubGroup Not) (b : List Bool) (strings : List Block) (st : RrState) : Prop where
  indexes_length : st.indexes.length = Not
  b_length : st.b.length = Not
  indexes : ∀ k, k < Not → st.indexes[k]? = some (openedPerm C k : ℤ)
  bits : ∀ k, k < Not → st.b[k]? = b[openedPerm C k]?
  R : st.R = ofNats (zeroPositions b (sortedDown C.elems))
  r : st.r = ((zeroPositions b (sortedDown C.elems)).map (blockAt strings)).sum

theorem computeRr_eq {Not : ℕ} (C : SubGroup Not) {b : List Bool} {strings : List Block} (hb : b.length = Not)
    (hs : strings.length = Not) :
    ∃ st, computeRr C.elems (freshIndexes Not) b Not strings = .ok st ∧ CutResult C b strings st := by
  have hd := sortedDown_descends C
  obtain ⟨st, h, hi, hbl, hgi, hgb, hR, hr⟩ := cutLoop_eq hs (sortedDown C.elems) Not
    ⟨freshIndexes Not, b, toBlock 0 0, []⟩ hd le_rfl (by simp [freshIndexes]) hb
  refine ⟨st, h, hi, hbl, fun k hk => ?_, hgb, by simpa using hR, by simpa using hr⟩
  have hk' := cutPerm_lt hd hk
  rw [hgi k hk]
  simp [openedPerm, freshIndexes, ofNats, hk']

/-! ## A sub-group in any order -/

namespace SubGroup

variable {Not : ℕ}

/-- The sub-group with the members of a list. -/
def ofList : (l : List ℕ) → (∀ t ∈ l, t < Not) → SubGroup Not
  | [], _ => .empty
  | t :: l, h => ⟨(ofList l fun u hu => h u (List.mem_cons_of_mem _ hu)).set.insert t, fun u hu => by
      rcases OrdSet.mem_insert.1 hu with rfl | hu
      · exact h _ (List.mem_cons_self ..)
      · exact (ofList l _).lt u hu⟩

theorem mem_ofList : ∀ {l : List ℕ} {h : ∀ t ∈ l, t < Not} {u : ℕ}, u ∈ (ofList l h).elems ↔ u ∈ l
  | [], _, u => by simp [ofList, elems, empty]
  | t :: l, h, u => by
    have ih := mem_ofList (l := l) (h := fun u hu => h u (List.mem_cons_of_mem _ hu)) (u := u)
    rw [List.mem_cons, ← ih]
    exact OrdSet.mem_insert

theorem ofList_perm {l : List ℕ} (hl : l.Nodup) (h : ∀ t ∈ l, t < Not) : (ofList l h).elems.Perm l :=
  (List.perm_ext_iff_of_nodup (ofList l h).nodup hl).2 fun _ => mem_ofList

theorem size_ofList {l : List ℕ} (hl : l.Nodup) (h : ∀ t ∈ l, t < Not) : (ofList l h).size = l.length :=
  (ofList_perm hl h).length_eq

end SubGroup

/-- `compute_R_r` sorts, so the order of the sub-group does not show. -/
theorem sortedDown_eq_of_perm {l l' : List ℕ} (h : l.Perm l') : sortedDown l = sortedDown l' :=
  (((List.perm_insertionSort (· ≥ ·) l).trans h).trans (List.perm_insertionSort (· ≥ ·) l').symm).eq_of_pairwise
    (fun _ _ _ _ h1 h2 => le_antisymm h2 h1) (List.pairwise_insertionSort (· ≥ ·) l)
    (List.pairwise_insertionSort (· ≥ ·) l')

theorem computeRr_eq_of_perm {l l' : List ℕ} (h : l.Perm l') (indexes : List ℤ) (b : List Bool) (Not : ℤ)
    (strings : List Block) : computeRr l indexes b Not strings = computeRr l' indexes b Not strings := by
  change cutLoop strings (sortedDown l) _ _ = cutLoop strings (sortedDown l') _ _
  rw [sortedDown_eq_of_perm h]

end Mpsi
