/-
Both sides of the cut-and-choose step when both are honest: what `compute_R_r` finds on the
receiver's permuted arrays is the list of the sub-group's 0-positions and the exclusive or of their
strings, and the sender's check of it passes exactly when few enough 1-positions were opened.
-/
import Mpsi.Apport.Cut
import Mpsi.Apport.Check

namespace Mpsi

/-- `strings_choices[k] = strings[k][b[k]]`. -/
def chosenStrings (strings : List (Block × Block)) (b : List Bool) : List Block :=
  List.zipWith (fun s v => if v then s.2 else s.1) strings b

/-- The message of a receiver after `compute_R_r`, as `Party::send_R_r` writes it. -/
def RrState.message (st : RrState) : RMessage := ⟨st.R.length, st.R, st.r, by simp⟩

section Receiver

variable {Not : ℕ} {b : List Bool} {strings : List (Block × Block)}

/-- At a 0-position the receiver holds the 0-string. -/
theorem blockAt_chosenStrings {t : ℕ} (ht : t < strings.length) (hbt : b[t]? = some false) :
    blockAt (chosenStrings strings b) t = zeroString strings t := by
  simp [blockAt, zeroString, chosenStrings, List.getD_eq_getElem?_getD, List.getElem?_zipWith, hbt,
    List.getElem?_eq_getElem ht]

theorem zeroPositions_perm {l l' : List ℕ} (h : l.Perm l') : (zeroPositions b l).Perm (zeroPositions b l') :=
  h.filter _

theorem mem_zeroPositions {l : List ℕ} {t : ℕ} : t ∈ zeroPositions b l ↔ t ∈ l ∧ b[t]? = some false := by
  simp [zeroPositions]

/-- Every position of the sub-group has bit 0 or 1. -/
theorem length_zeroPositions {l : List ℕ} (hlt : ∀ t ∈ l, t < b.length) :
    (zeroPositions b l).length + (l.filter fun t => b[t]? = some true).length = l.length := by
  have hones : l.filter (fun t => b[t]? = some true) = l.filter fun t => !decide (b[t]? = some false) := by
    apply List.filter_congr
    intro t ht
    have hget := List.getElem?_eq_getElem (hlt t ht)
    rw [hget]
    cases b.get ⟨t, hlt t ht⟩ <;> simp_all
  rw [hones, zeroPositions]
  exact List.length_eq_length_filter_add (l := l) (fun t => decide (b[t]? = some false)) |>.symm

/-- `R` and `r` in the original indexing, whatever the order of the sub-group. -/
theorem computeRr_zeroPositions {C : List ℕ} (hnd : C.Nodup) (hlt : ∀ t ∈ C, t < Not) (hb : b.length = Not)
    (hs : strings.length = Not) :
    ∃ st, computeRr C (freshIndexes Not) b Not (chosenStrings strings b) = .ok st ∧
      st.R.Perm (ofNats (zeroPositions b C)) ∧ st.r = (st.R.map (zeroString strings)).sum := by
  have hch : (chosenStrings strings b).length = Not := by simp [chosenStrings, hb, hs]
  have hperm := SubGroup.ofList_perm hnd hlt
  obtain ⟨st, h, hcut⟩ := computeRr_eq (.ofList C hlt) hb hch
  rw [computeRr_eq_of_perm hperm] at h
  have hdown : (sortedDown (SubGroup.ofList C hlt).elems).Perm C := (List.perm_insertionSort (· ≥ ·) _).trans hperm
  refine ⟨st, h, ?_, ?_⟩
  · rw [hcut.R]
    exact (zeroPositions_perm hdown).map _
  · rw [hcut.r, hcut.R, ofNats, List.map_map]
    refine congrArg List.sum (List.map_congr_left fun t ht => ?_)
    obtain ⟨hmem, hbt⟩ := mem_zeroPositions.1 ht
    exact blockAt_chosenStrings (by rw [hs]; exact hlt t (hdown.mem_iff.1 hmem)) hbt

end Receiver

/-- The sender's check of a list of positions with the exclusive or of their 0-strings: only the count
decides, and nothing outside the arrays is read. -/
theorem recvRChecked_of_sum {strings : List (Block × Block)} {Nc maxOnes : ℤ} (hm : maxOnes < Nc) {msg : RMessage}
    (hNr : msg.Nr = msg.R.length) (hR : ∀ k ∈ msg.R, ∃ t : ℕ, t < strings.length ∧ k = t)
    (hr : msg.r = (msg.R.map (zeroString strings)).sum) :
    ∃ v, recvRChecked none Nc maxOnes strings msg = .ok v ∧ (v.code = 0 ↔ Nc - msg.Nr ≤ maxOnes) := by
  unfold recvRChecked
  rw [newArray_ok.2 (by omega), ok_bind, checkIfToAbort1]
  by_cases hc : Nc - msg.Nr > maxOnes
  · rw [if_pos hc]
    refine ⟨_, rfl, ?_⟩
    constructor
    · intro h
      cases h
    · intro h
      exact absurd hc (not_lt.2 h)
  · -- the count has passed, so the list is not empty and `compute_r` finds a first entry
    have hne : msg.R ≠ [] := by
      intro h
      rw [h] at hNr
      simp at hNr
      omega
    have hread : ∀ k ∈ msg.R, readAt ((none : Option Outside).map Outside.pairs) strings k =
        .ok (strings.getD k.toNat (0, 0)) := by
      intro k hk
      obtain ⟨t, ht, rfl⟩ := hR k hk
      rw [readAt_nat t ht]
      simp [ht]
    rw [if_neg hc, hNr, computeR_eq hne hread, ok_bind]
    have hsum : (msg.R.map fun k => (strings.getD k.toNat (0, 0)).1).sum = msg.r := by rw [hr]; rfl
    rw [if_neg (not_not.2 hsum)]
    exact ⟨_, rfl, fun _ => by omega, fun _ => rfl⟩

/-- The handshake between an honest receiver and an honest sender. -/
theorem honest_handshake {Not : ℕ} {C : List ℕ} {b : List Bool} {strings : List (Block × Block)} {maxOnes : ℤ}
    (hnd : C.Nodup) (hlt : ∀ t ∈ C, t < Not) (hb : b.length = Not) (hs : strings.length = Not)
    (hm : maxOnes < C.length) :
    ∃ st, computeRr C (freshIndexes Not) b Not (chosenStrings strings b) = .ok st ∧
      st.R.Perm (ofNats (zeroPositions b C)) ∧ st.r = (st.R.map (zeroString strings)).sum ∧
      ∃ v, recvRChecked none C.length maxOnes strings st.message = .ok v ∧
        (v.code = 0 ↔ ((C.filter fun t => b[t]? = some true).length : ℤ) ≤ maxOnes) := by
  obtain ⟨st, h, hR, hr⟩ := computeRr_zeroPositions hnd hlt hb hs
  have hlen : st.R.length = (zeroPositions b C).length := by rw [hR.length_eq, length_ofNats]
  have hsplit := length_zeroPositions (b := b) (l := C) fun t ht => by rw [hb]; exact hlt t ht
  have hNr : st.message.Nr = st.R.length := rfl
  have hread : ∀ k ∈ st.message.R, ∃ t : ℕ, t < strings.length ∧ k = t := by
    intro k hk
    obtain ⟨t, ht, rfl⟩ := mem_ofNats.1 (hR.mem_iff.1 hk)
    exact ⟨t, by rw [hs]; exact hlt t (mem_zeroPositions.1 ht).1, rfl⟩
  obtain ⟨v, hv, hcode⟩ := recvRChecked_of_sum hm hNr hread hr
  refine ⟨st, h, hR, hr, v, hv, ?_⟩
  rw [hcode]
  omega

/-- Of the sub-group `{2, 0, 3}` the positions 0 and 3 have bit 0; one 1-position is too many. -/
theorem honest_handshake_four : ∃ st,
    computeRr [2, 0, 3] (freshIndexes 4) [false, true, true, false] 4 (chosenStrings
      [(toBlock 0 1, 0), (0, 0), (0, toBlock 0 2), (toBlock 0 4, 0)] [false, true, true, false]) = .ok st ∧
    st.R.Perm [0, 3] ∧ ∃ v, recvRChecked none 3 0 [(toBlock 0 1, 0), (0, 0), (0, toBlock 0 2), (toBlock 0 4, 0)]
      st.message = .ok v ∧ v.code ≠ 0 := by
  have hnd : [2, 0, 3].Nodup := by decide
  have hlt : ∀ t ∈ [2, 0, 3], t < 4 := by decide
  have hb : [false, true, true, false].length = 4 := rfl
  have hs : [(toBlock 0 1, (0 : Block)), (0, 0), (0, toBlock 0 2), (toBlock 0 4, 0)].length = 4 := rfl
  have hm : (0 : ℤ) < ([2, 0, 3] : List ℕ).length := by decide
  obtain ⟨st, h, hR, _, v, hv, hcode⟩ := honest_handshake hnd hlt hb hs hm
  refine ⟨st, h, hR, v, hv, ?_⟩
  rw [Ne, hcode]
  decide

end Mpsi
