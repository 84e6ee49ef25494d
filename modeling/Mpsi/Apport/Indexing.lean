/-
The receiver's index function, from the identity index array to the function sent, with reads past a
vector's end that find any value: the sub-group may come in any order, and the only thing that can
go wrong is a filter with more cells of one bit than there are unopened positions (`receiverIndexes_spec`).
-/
import Mpsi.Apport.Choice

namespace Mpsi

/-- `functions::compute_R_r`, `get_zeros_ones` and `arrange_the_indexes` one after the other. -/
def receiverIndexes (around : Around) (Not : ℕ) (subGroup : List ℕ) (b : List Bool) (strings : List Block)
    (BF : List Bool) (rand0 rand1 : ℕ → ℕ) : Except Fault (List ℤ) := do
  let st ← computeRr subGroup (freshIndexes Not) b Not strings
  let (zeros, ones) ← getZerosOnes st.b Not subGroup.length rand0 rand1
  arrangeTheIndexes (some around) BF zeros ones st.indexes

/-- The positions with choice bit `v` outside a list. -/
def positionsOutside (Not : ℕ) (subGroup : List ℕ) (b : List Bool) (v : Bool) : List ℕ :=
  (List.range Not).filter fun t => t ∉ subGroup ∧ b[t]? = some v

section Vectors

variable {Not : ℕ} {C : SubGroup Not} {b : List Bool} {strings : List Block} {st : RrState}

/-- The places in front of the moved sub-group are as many as the positions outside it. -/
theorem length_placesOf (hst : CutResult C b strings st) (v : Bool) :
    (placesOf st.b (Not - C.size) v).length = outside C b v := by
  have hplaces : placesOf st.b (Not - C.size) v = unopenedPlaces C b v := by
    apply List.filter_congr
    intro k hk
    rw [hst.bits k (by have := List.mem_range.1 hk; omega)]
  rw [hplaces, length_unopenedPlaces]

/-- With two positions of each bit outside the sub-group, both shuffles end. -/
theorem getZerosOnes_total (hst : CutResult C b strings st) (h2 : ∀ v, 2 ≤ outside C b v) (rand0 rand1 : ℕ → ℕ) :
    ∃ zeros ones, getZerosOnes st.b Not C.size rand0 rand1 = .ok (zeros, ones) ∧
      ∀ v, (vectors zeros ones v).length = outside C b v := by
  have hlen : ∀ v, (ofNats (placesOf st.b (Not - C.size) v)).length = outside C b v := fun v => by
    rw [length_ofNats, length_placesOf hst]
  obtain ⟨zeros, hz, hzl, _⟩ := shuffling_eq (by rw [hlen]; exact h2 false) rand0
  obtain ⟨ones, ho, hol, _⟩ := shuffling_eq (by rw [hlen]; exact h2 true) rand1
  refine ⟨zeros, ones, ?_, ?_⟩
  · rw [getZerosOnes_eq (by rw [hst.b_length]; omega), hz, ok_bind, ho, ok_bind]
    rfl
  · rintro (_ | _)
    · exact hzl.trans (hlen false)
    · exact hol.trans (hlen true)

/-- Every entry of the vectors is a place of the index array. -/
theorem place_of_vectors (hst : CutResult C b strings st) {rand0 rand1 : ℕ → ℕ} {zeros ones : List ℤ}
    (h : getZerosOnes st.b Not C.size rand0 rand1 = .ok (zeros, ones)) (v : Bool) {k : ℤ}
    (hk : k ∈ vectors zeros ones v) : ∃ n : ℕ, n < st.indexes.length ∧ k = n := by
  obtain ⟨n, hn, rfl⟩ := mem_ofNats.1 ((vectors_perm hst h v).mem_iff.1 hk)
  have := (mem_placesOf.1 hn).1
  exact ⟨n, by rw [hst.indexes_length]; omega, rfl⟩

end Vectors

section Spec

variable {Not : ℕ} {subGroup : List ℕ} {b BF : List Bool} {strings : List Block}

/-- The exit is taken exactly when a bit of the filter is wanted more often than it stands outside the
sub-group. Otherwise every cell gets a position of its own, outside the sub-group and with its bit. -/
theorem receiverIndexes_spec (hnd : subGroup.Nodup) (hlt : ∀ t ∈ subGroup, t < Not) (hb : b.length = Not)
    (hs : strings.length = Not) (h2 : ∀ v, 2 ≤ (positionsOutside Not subGroup b v).length) (around : Around)
    (rand0 rand1 : ℕ → ℕ) :
    (receiverIndexes around Not subGroup b strings BF rand0 rand1 = .error (.exit "Not enough o's/1's - problem!") ↔
        ∃ v, (positionsOutside Not subGroup b v).length < BF.count v) ∧
      ((∀ v, BF.count v ≤ (positionsOutside Not subGroup b v).length) →
        ∃ func, receiverIndexes around Not subGroup b strings BF rand0 rand1 = .ok func ∧ func.length = BF.length ∧
          func.Nodup ∧ ∀ i (h : i < BF.length), ∃ t : ℕ, func[i]? = some (t : ℤ) ∧ t < Not ∧ t ∉ subGroup ∧
            b[t]? = some BF[i]) := by
  let C : SubGroup Not := .ofList subGroup hlt
  have hmem : ∀ t, t ∈ C.elems ↔ t ∈ subGroup := fun t => SubGroup.mem_ofList
  have hsize : C.size = subGroup.length := SubGroup.size_ofList hnd hlt
  have hout : ∀ v, (positionsOutside Not subGroup b v).length = outside C b v := fun v => by
    unfold positionsOutside outside
    simp only [hmem]
  obtain ⟨st, hst, hcut⟩ := computeRr_eq C hb hs
  rw [computeRr_eq_of_perm (SubGroup.ofList_perm hnd hlt)] at hst
  obtain ⟨zeros, ones, hzo, hlen⟩ := getZerosOnes_total hcut (fun v => by rw [← hout]; exact h2 v) rand0 rand1
  have hrun : receiverIndexes around Not subGroup b strings BF rand0 rand1 =
      arrangeTheIndexes (some around) BF zeros ones st.indexes := by
    unfold receiverIndexes
    rw [hst, ok_bind, ← hsize, hzo, ok_bind]
  rw [hrun]
  refine ⟨?_, fun hen => ?_⟩
  · change arrangeTheIndexes (some around) BF (vectors zeros ones false) (vectors zeros ones true) st.indexes = _ ↔ _
    -- the message comes when an enumeration is too short
    rw [arrange_exit_iff]
    simp only [hlen, hout]
  · have hen' : ∀ v, BF.count v ≤ (vectors zeros ones v).length := fun v => by rw [hlen, ← hout]; exact hen v
    obtain ⟨func, hf⟩ := arrange_total hen' fun v k hk => place_of_vectors hcut hzo v hk
    have hfun := indexFunc_of_ok hcut hzo hf
    refine ⟨func, arrange_mono (some around) hf, hfun.length, ?_, fun i hi => ?_⟩
    · rw [List.nodup_iff_getElem?_ne_getElem?]
      intro i j hij hj heq
      have hget : func[j]? = some func[j] := List.getElem?_eq_getElem hj
      exact absurd (hfun.inj i j _ (heq.trans hget) hget) hij.ne
    · obtain ⟨t, ht, htN, htC, hbt⟩ := hfun.entry i hi
      exact ⟨t, ht, htN, fun h => htC ((hmem t).2 h), hbt⟩

/-- Two cells of the filter are served, whatever is drawn and lies around the vectors. -/
theorem receiverIndexes_six : ∃ func, receiverIndexes ⟨fun _ => 7, fun _ => -1, fun _ => 0⟩ 6 [0, 5]
    [false, true, false, true, false, true] [0, 0, 0, 0, 0, 0] [true, false] (fun i => i) (fun i => i + 3) = .ok func ∧
      func.Nodup := by
  have hnd : [0, 5].Nodup := by decide
  have hlt : ∀ t ∈ [0, 5], t < 6 := by decide
  have hs : [(0 : Block), 0, 0, 0, 0, 0].length = 6 := rfl
  have h2 : ∀ v, 2 ≤ (positionsOutside 6 [0, 5] [false, true, false, true, false, true] v).length := by decide
  have hen : ∀ v, [true, false].count v ≤ (positionsOutside 6 [0, 5] [false, true, false, true, false, true] v).length := by
    decide
  obtain ⟨func, hf, _, hnd, _⟩ := (receiverIndexes_spec hnd hlt rfl hs h2 _ _ _).2 hen
  exact ⟨func, hf, hnd⟩

end Spec

end Mpsi
