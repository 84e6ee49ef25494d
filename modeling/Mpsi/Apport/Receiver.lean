/-
The receiver of an approximate OT from the opened sub-group to the function it sends: every cell of
the Bloom filter gets its own unopened position, whose choice bit is the cell's bit (`IndexFunc`).
-/
import Mpsi.Apport.Cut
import Mpsi.Apport.Shuffle
import Mpsi.Apport.Arrange

namespace Mpsi

/-- What the receiver sends to the sender of the strings. -/
structure Sent where
  R : List ℤ
  func : List ℤ
  deriving DecidableEq

/-- `compute_R_r`, `get_zeros_ones` and `arrange_the_indexes` on the choice bits `b`, with the draws
`rand0` and `rand1` of the two shuffles: the messages `R` and `func`. -/
def receiverMessages {Not : ℕ} (C : SubGroup Not) (b : List Bool) (strings : List Block) (BF : List Bool)
    (rand0 rand1 : ℕ → ℕ) : Except Fault Sent := do
  let st ← computeRr C.elems (freshIndexes Not) b Not strings
  let (zeros, ones) ← getZerosOnes st.b Not C.size rand0 rand1
  let func ← arrangeTheIndexes none BF zeros ones st.indexes
  pure ⟨st.R, func⟩

/-- The function serves cell `i` of the filter with an unopened position of the same choice bit, and
different cells with different positions. -/
structure IndexFunc {Not : ℕ} (C : SubGroup Not) (b BF : List Bool) (f : List ℤ) : Prop where
  length : f.length = BF.length
  entry : ∀ i (h : i < BF.length), ∃ t : ℕ, f[i]? = some (t : ℤ) ∧ t < Not ∧ t ∉ C.elems ∧ b[t]? = some BF[i]
  inj : ∀ (i j : ℕ) (t : ℤ), f[i]? = some t → f[j]? = some t → i = j

/-- The two vectors as one family. -/
def vectors (zeros ones : List ℤ) (v : Bool) : List ℤ := if v then ones else zeros

@[simp] theorem vectors_false (zeros ones : List ℤ) : vectors zeros ones false = zeros := rfl
@[simp] theorem vectors_true (zeros ones : List ℤ) : vectors zeros ones true = ones := rfl

section Spec

variable {Not : ℕ} {C : SubGroup Not} {b : List Bool} {strings : List Block} {st : RrState} {rand0 rand1 : ℕ → ℕ}
  {zeros ones : List ℤ}

/-- The vectors hold the unopened places of their bit, each once. -/
theorem vectors_perm (hst : CutResult C b strings st)
    (h : getZerosOnes st.b Not C.size rand0 rand1 = .ok (zeros, ones)) (v : Bool) :
    (vectors zeros ones v).Perm (ofNats (placesOf st.b (Not - C.size) v)) := by
  rw [getZerosOnes_eq (by rw [hst.b_length]; omega)] at h
  obtain ⟨z, hz, h⟩ := bind_ok h
  obtain ⟨o, ho, h⟩ := bind_ok h
  cases h
  cases v
  · exact shuffling_perm hz
  · exact shuffling_perm ho

theorem nodup_ofNats {l : List ℕ} (h : l.Nodup) : (ofNats l).Nodup := h.map Nat.cast_injective

/-- An entry of a vector is the place of an unopened position with its bit. -/
theorem entry_of_vectors (hst : CutResult C b strings st)
    (h : getZerosOnes st.b Not C.size rand0 rand1 = .ok (zeros, ones)) {v : Bool} {s k : ℕ}
    (hk : (vectors zeros ones v)[s]? = some (k : ℤ)) :
    k < Not - C.size ∧ b[openedPerm C k]? = some v := by
  have hmem := (vectors_perm hst h v).mem_iff.1 (List.mem_of_getElem? hk)
  obtain ⟨k', hk', he⟩ := mem_ofNats.1 hmem
  cases Nat.cast_injective he
  obtain ⟨hlt, hb⟩ := mem_placesOf.1 hk'
  exact ⟨hlt, by rw [← hst.bits k (by omega), hb]⟩

theorem indexFunc_of_ok (hst : CutResult C b strings st)
    (h : getZerosOnes st.b Not C.size rand0 rand1 = .ok (zeros, ones)) {BF : List Bool} {f : List ℤ}
    (hf : arrangeTheIndexes none BF zeros ones st.indexes = .ok f) : IndexFunc C b BF f := by
  have hs : Served st.indexes (vectors zeros ones) BF f := served_of_ok hf
  have hentry : ∀ i (hi : i < BF.length), ∃ k : ℕ, k < Not - C.size ∧ f[i]? = some (openedPerm C k : ℤ) ∧
      b[openedPerm C k]? = some BF[i] ∧
      (vectors zeros ones BF[i])[slot BF (fun v => (vectors zeros ones v).length) i BF[i]]? = some (k : ℤ) := by
    intro i hi
    obtain ⟨k, hk, _, hfk⟩ := hs.entry i hi
    obtain ⟨hlt, hb⟩ := entry_of_vectors hst h hk
    exact ⟨k, hlt, by rw [hfk, hst.indexes k (by omega)], hb, hk⟩
  have hrange : ∀ {i : ℕ} {t : ℤ}, f[i]? = some t → i < BF.length := by
    intro i t ht
    rw [← hs.length]
    exact (List.getElem?_eq_some_iff.1 ht).1
  refine ⟨hs.length, fun i hi => ?_, fun i j t hi hj => ?_⟩
  · obtain ⟨k, hlt, hfk, hb, _⟩ := hentry i hi
    refine ⟨openedPerm C k, hfk, openedPerm_lt C (by omega), ?_, hb⟩
    rw [openedPerm_mem_iff C (by omega)]
    omega
  · obtain ⟨k, _, hfk, hbk, hsk⟩ := hentry i (hrange hi)
    obtain ⟨l, _, hfl, hbl, hsl⟩ := hentry j (hrange hj)
    -- one position has one place, one bit and one slot
    have hkl : k = l := by
      rw [hfk] at hi; rw [hfl] at hj
      have ht : (openedPerm C k : ℤ) = openedPerm C l :=
        (Option.some_injective _ hi).trans (Option.some_injective _ hj).symm
      exact (openedPerm C).injective (Nat.cast_injective ht)
    subst hkl
    have hi' := hrange hi
    have hj' := hrange hj
    have hv : BF[i] = BF[j] := Option.some_injective _ (hbk.symm.trans hbl)
    apply slot_inj hs.enough hi' hj' hv
    have hnd : (vectors zeros ones BF[j]).Nodup :=
      (vectors_perm hst h _).nodup_iff.2 (nodup_ofNats (nodup_placesOf _ _ _))
    rw [hv] at hsk ⊢
    exact (List.getElem?_inj (List.getElem?_eq_some_iff.1 hsk).1 hnd).1 (hsk.trans hsl.symm)

end Spec

end Mpsi
