/-
When parties that all follow the program come to their end. The checks and the reads of an array depend on the
inputs at four places only, each at one receiver: the words of the seed hold enough different positions, a
0-position is opened (`compute_r` reads its first index before it looks at the list's length) and not too many
1-positions, each shuffle has two places, and the filter has no more cells of a bit than unopened positions.

Parties that meet this at every instance can go on from every state to their end, in whatever order their threads
have run; of other parties no run ends (`completes_iff`).
-/
import Mpsi.Apport.Detection
import Mpsi.Apport.Indexing
import Mpsi.Protocol.Reference

namespace Mpsi

open Thread Stream Finset

/-! ## The cut-and-choose step of two honest ends -/

section Cut

variable {Not : ℕ} {C : SubGroup Not} {b : List Bool} {strings : List (Block × Block)} {st : RrState} {maxOnes : ℤ}

/-- No list is empty, since the first index is read before the loop. -/
theorem ne_nil_of_accepts {Nc : ℤ} (hm : 0 ≤ st.message.Nr) (h : Accepts none Nc maxOnes strings st.message) : st.R ≠ [] := by
  intro hR
  obtain ⟨v, hv, hcode⟩ := h
  have hNr : st.message.Nr = 0 := by
    change (st.R.length : ℤ) = 0
    rw [hR]
    rfl
  unfold recvRChecked checkIfToAbort1 at hv
  rw [newArray_ok.2 hm, ok_bind] at hv
  split at hv
  · cases hv
    cases hcode
  · rw [hNr, show st.message.R = [] from hR] at hv
    cases hv

/-- The sender accepts an honest answer where a 0-position is opened and not too many 1-positions. -/
theorem accepts_cut_iff (hb : b.length = Not) (hs : strings.length = Not)
    (h : computeRr C.elems (freshIndexes Not) b Not (chosenStrings strings b) = .ok st) :
    Accepts none C.size maxOnes strings st.message ↔
      (∃ t ∈ C.elems, b[t]? = some false) ∧ ((C.elems.filter fun t => b[t]? = some true).length : ℤ) ≤ maxOnes := by
  obtain ⟨st', h', hR, hr⟩ := computeRr_zeroPositions C.nodup C.lt hb hs
  obtain rfl := Except.ok.inj (h.symm.trans h')
  have hlen : st.R.length = (zeroPositions b C.elems).length := by rw [hR.length_eq, length_ofNats]
  have hsplit := length_zeroPositions (b := b) (l := C.elems) fun t ht => by rw [hb]; exact C.lt t ht
  have hNr : st.message.Nr = st.R.length := rfl
  have hsize : C.size = C.elems.length := rfl
  have hzero : (∃ t ∈ C.elems, b[t]? = some false) ↔ st.R ≠ [] := by
    rw [← List.length_pos_iff, hlen, List.length_pos_iff_exists_mem]
    constructor
    · rintro ⟨t, ht, hbt⟩
      exact ⟨t, mem_zeroPositions.2 ⟨ht, hbt⟩⟩
    · rintro ⟨t, ht⟩
      exact ⟨t, mem_zeroPositions.1 ht⟩
  have hin : ∀ k ∈ st.message.R, InStrings strings k := by
    intro k hk
    obtain ⟨t, ht, rfl⟩ := mem_ofNats.1 (hR.mem_iff.1 hk)
    have hlt := C.lt t (mem_zeroPositions.1 ht).1
    exact ⟨by omega, by omega⟩
  rw [hzero]
  constructor
  · intro hacc
    have hne := ne_nil_of_accepts (by omega) hacc
    obtain ⟨hc, _⟩ := (accepts_none_iff hne hin).1 hacc
    exact ⟨hne, by omega⟩
  · rintro ⟨hne, hones⟩
    exact (accepts_none_iff hne hin).2 ⟨by omega, hr⟩

/-- Both shuffles end where there are two unopened positions of each bit, and only there. -/
theorem getZerosOnes_ok_iff {strings : List Block} (hst : CutResult C b strings st) (rand0 rand1 : ℕ → ℕ) :
    (∃ arr, getZerosOnes st.b Not C.size rand0 rand1 = .ok arr) ↔ ∀ v, 2 ≤ outside C b v := by
  constructor
  · rintro ⟨arr, h⟩
    rw [getZerosOnes_eq (by rw [hst.b_length]; omega)] at h
    obtain ⟨zeros, hz, h⟩ := bind_ok h
    obtain ⟨ones, ho, _⟩ := bind_ok h
    have h0 := two_le_of_shuffling hz
    have h1 := two_le_of_shuffling ho
    rw [length_ofNats, length_placesOf hst] at h0 h1
    rintro (_ | _)
    · exact h0
    · exact h1
  · intro h2
    obtain ⟨zeros, ones, h, _⟩ := getZerosOnes_total hst h2 rand0 rand1
    exact ⟨_, h⟩

/-- The function is found where each bit of the filter has enough unopened positions, and only there. -/
theorem arrange_ok_iff {strings : List Block} (hst : CutResult C b strings st) {rand0 rand1 : ℕ → ℕ} {zeros ones : List ℤ}
    (h : getZerosOnes st.b Not C.size rand0 rand1 = .ok (zeros, ones)) {BF : List Bool} :
    (∃ f, arrangeTheIndexes none BF zeros ones st.indexes = .ok f) ↔ ∀ v, BF.count v ≤ outside C b v := by
  have hlen : ∀ v, (vectors zeros ones v).length = outside C b v := by
    intro v
    rw [(vectors_perm hst h v).length_eq, length_ofNats, length_placesOf hst]
  constructor
  · rintro ⟨f, hf⟩ v
    have hserved : Served st.indexes (vectors zeros ones) BF f := served_of_ok hf
    rw [← hlen v]
    exact hserved.enough v
  · intro hen
    have htotal : ∃ f, arrangeTheIndexes none BF (vectors zeros ones false) (vectors zeros ones true) st.indexes = .ok f := by
      apply arrange_total
      · intro v
        rw [hlen]
        exact hen v
      · exact fun v k hk => place_of_vectors hst h v hk
    exact htotal

end Cut

/-! ## One instance -/

section Instance

variable {κ : Type} {e : Env κ} {i a : ℕ} {C : SubGroup e.Not}

/-- What the inputs of an instance have to meet, where its peer opens `C`. -/
structure Serves (e : Env κ) (i a : ℕ) (C : SubGroup e.Not) : Prop where
  drawn : getSubGroup e.aes e.Not e.Nc (e.seed_sub_group (instPeer i a) (Env.peerSlot i)) = .ok C
  zero : ∃ t ∈ C.elems, (e.bits i a)[t]? = some false
  ones : (C.elems.filter fun t => (e.bits i a)[t]? = some true).length ≤ e.maxOnes
  two : ∀ v, 2 ≤ outside C (e.bits i a) v
  enough : ∀ v, (filterOf e i).count v ≤ outside C (e.bits i a) v

/-- The bound of `check_if_to_abort` follows: every cell takes an unopened position. -/
theorem Serves.fits (h : Serves e i a C) : (e.Nc : ℤ) ≤ e.Not - e.Nbf := by
  have hadd := outside_add C (e.bits_length i a)
  have h0 := h.enough false
  have h1 := h.enough true
  have hcount : (filterOf e i).count false + (filterOf e i).count true = e.Nbf := by
    rw [List.count_false_add_count_true]
    simp [filterOf]
  have hsize := getSubGroup_size h.drawn
  have hle := C.size_le
  omega

theorem exists_instanceFunc_iff : (∃ g, instanceFunc e i a = .ok g) ↔ ∃ C, Serves e i a C := by
  have hb := e.bits_length i a
  have hs : (e.peerStrings i a).length = e.Not := e.strings_length _ _
  constructor
  · rintro ⟨g, hg⟩
    obtain ⟨r, hr, hacc, hf⟩ := instanceFunc_ok.1 hg
    obtain ⟨hrcv, hNc, hseed⟩ := receiverOf_ok.1 hr
    have hdrawn := hrcv.sub_group
    have hvec := hrcv.vectors
    rw [hNc, Int.toNat_natCast] at hdrawn hvec
    rw [hseed] at hdrawn
    have hsize := getSubGroup_size hdrawn
    rw [← hsize] at hvec hacc
    obtain ⟨st, hcut, hst⟩ := computeRr_eq r.sub_group hb (e.choiceStrings_length i a)
    obtain rfl := Except.ok.inj (hrcv.cut.symm.trans hcut)
    obtain ⟨hzero, hones⟩ := (accepts_cut_iff hb hs hrcv.cut).1 hacc
    exact ⟨r.sub_group, hdrawn, hzero, by exact_mod_cast hones, (getZerosOnes_ok_iff hst _ _).1 ⟨_, hvec⟩,
      (arrange_ok_iff hst hvec).1 ⟨g, hf⟩⟩
  · rintro ⟨C, h⟩
    have hsize := getSubGroup_size h.drawn
    obtain ⟨st, hcut, hst⟩ := computeRr_eq C hb (e.choiceStrings_length i a)
    obtain ⟨⟨zeros, ones⟩, hvec⟩ := (getZerosOnes_ok_iff hst (e.rand i a false) (e.rand i a true)).2 h.two
    obtain ⟨g, hg⟩ := (arrange_ok_iff hst hvec).2 h.enough
    have hacc : Accepts none C.size e.maxOnes (e.peerStrings i a) st.message :=
      (accepts_cut_iff hb hs hcut).2 ⟨h.zero, by exact_mod_cast h.ones⟩
    rw [hsize] at hvec hacc
    refine ⟨g, instanceFunc_ok.2 ⟨⟨e.Nc, e.seed_sub_group (instPeer i a) (Env.peerSlot i), C, st, zeros, ones⟩,
      receiverOf_ok.2 ⟨⟨Int.natCast_nonneg _, ?_, h.fits, hcut, ?_⟩, rfl, rfl⟩, hacc, hg⟩⟩
    · exact h.drawn
    · exact hvec

end Instance

/-! ## All parties -/

section Main

variable {κ : Type} {e : Env κ}

/-- What the inputs of all parties have to meet. -/
structure Feasible (e : Env κ) : Prop where
  instances : ∀ i < e.parties, ∀ a < slots e.parties i, ∃ C, Serves e i a C
  /-- A hash is a remainder by `Nbf`. -/
  hashed : e.Nbf = 0 → e.seeds_num = 0 ∨ ∀ i < e.parties, e.items i = []

theorem hashAll_ok_iff : hashAll e = .ok () ↔ (e.Nbf = 0 → e.seeds_num = 0 ∨ ∀ i < e.parties, e.items i = []) := by
  rw [hashAll_ok]
  constructor
  · intro h h0
    rcases Nat.eq_zero_or_pos e.seeds_num with hs | hs
    · exact Or.inl hs
    · refine Or.inr fun i hi => List.eq_nil_iff_forall_not_mem.2 fun item hitem => ?_
      exact h i hi item hitem (hashes_ne_nil hs) h0
  · intro h i hi item hitem hne h0
    rcases h h0 with hs | hs
    · rw [hs] at hne
      exact hne hashes_eq_nil
    · rw [hs i hi] at hitem
      cases hitem

variable [DecidableEq κ]

/-- Parties that follow the program come to their end exactly on feasible inputs, and there from every state, in
whatever order their threads have run. -/
theorem completes_iff : ((∃ s : State κ e.Not, HonestReaches e s ∧ Complete s) ↔ Feasible e) ∧
    (Feasible e → ∀ s : State κ e.Not, HonestReaches e s → ∃ t, Relation.ReflTransGen (Step (PStep e)) s t ∧ Complete t) := by
  have hend : Feasible e → ∀ s : State κ e.Not, HonestReaches e s →
      ∃ t, Relation.ReflTransGen (Step (PStep e)) s t ∧ HonestReaches e t ∧ Complete t := by
    intro h s hs
    have hf := funcs_ok.2 ⟨fun i hi a ha => exists_instanceFunc_iff.2 (h.instances i hi a ha), rfl⟩
    exact exists_complete (Instances.honest (ok_of_reference hf (hashAll_ok_iff.2 h.hashed))) hs
  constructor
  · constructor
    · rintro ⟨s, hs, hc⟩
      obtain ⟨D, hD, _⟩ := exists_outcome hs hc
      obtain ⟨hh, f, hf, _⟩ := reference_of_honest hD
      exact ⟨fun i hi a ha => exists_instanceFunc_iff.1 ((funcs_ok.1 hf).1 i hi a ha), hashAll_ok_iff.1 hh⟩
    · intro h
      obtain ⟨t, _, ht, hc⟩ := hend h _ .refl
      exact ⟨t, ht, hc⟩
  · intro h s hs
    obtain ⟨t, hst, _, hc⟩ := hend h s hs
    exact ⟨t, hst, hc⟩

/-- Three parties with the same inputs. -/
theorem completes_iff_three : Feasible (uniform 3 (fun _ => [0]) fun _ _ => 0) :=
  completes_iff.1.1 (uniform_complete 3 (fun _ => [0]) fun _ _ => 0)

end Main

end Mpsi
