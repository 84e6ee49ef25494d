/-
What the messages of a receiver say about its Bloom filter: `sendable` is the set of the messages it
can send under one filter, over all choice vectors of a weight and all draws of the shuffles.

Two filters with the same number of ones should share it. `sendable_eq_iff` gives the exact case in
which they do. The shuffles never leave their first element in place (`shufflePerm_last`), and the
last entry of a vector always serves the cell in the middle of the filter or, when that has the other
bit, a cell of that bit only; this tells the cells apart that agree with the middle one (`agrees_iff`).
-/
import Mpsi.Apport.Choice
import Mathlib.Data.Set.Basic

namespace Mpsi

/-! ## The messages of a receiver -/

/-- The messages `R` and `func` a receiver with filter `BF` can send. -/
def sendable {Not : ℕ} (C : SubGroup Not) (k : ℕ) (BF : List Bool) : Set Sent :=
  {m | ∃ b strings, Qualifies C k BF b ∧ strings.length = Not ∧ ∃ rand : Bool → ℕ → ℕ,
    receiverMessages C b strings BF (rand false) (rand true) = .ok m}

section Func

variable {Not : ℕ} {C : SubGroup Not} {k : ℕ} {BF b : List Bool} {rand : Bool → ℕ → ℕ}

/-- The place that serves cell `i`, when the places of each bit are those of `P` before the shuffle. -/
def shuffledPlace (P : Bool → List ℕ) (rand : Bool → ℕ → ℕ) (BF : List Bool) (i : ℕ) : ℕ :=
  let v := BF.getD i false
  (P v).getD (shufflePerm (rand v) (P v).length (slot BF (fun v => (P v).length) i v)) 0

/-- The function sent. -/
def funcOf (C : SubGroup Not) (b BF : List Bool) (rand : Bool → ℕ → ℕ) : List ℤ :=
  ofNats ((List.range BF.length).map fun i => openedPerm C (shuffledPlace (unopenedPlaces C b) rand BF i))

theorem funcOf_get {i : ℕ} (hi : i < BF.length) :
    (funcOf C b BF rand)[i]? = some (openedPerm C (shuffledPlace (unopenedPlaces C b) rand BF i) : ℤ) := by
  simp [funcOf, ofNats, hi]

/-- The entry of `unopenedPlaces` that serves a cell. -/
theorem place_get (h : Qualifies C k BF b) (rand : Bool → ℕ → ℕ) {i : ℕ} (hi : i < BF.length) :
    (unopenedPlaces C b BF[i])[shufflePerm (rand BF[i]) (outside C b BF[i]) (slot BF (outside C b) i BF[i])]? =
      some (shuffledPlace (unopenedPlaces C b) rand BF i) := by
  have hlen : (fun v => (unopenedPlaces C b v).length) = outside C b := funext (length_unopenedPlaces C b)
  have hlt := shufflePerm_lt (rand BF[i]) (h.two BF[i]) (slot_lt h.enough hi)
  rw [← length_unopenedPlaces] at hlt
  unfold shuffledPlace
  simp only [List.getD_eq_getElem?_getD, List.getElem?_eq_getElem hi, Option.getD_some, hlen]
  rw [length_unopenedPlaces] at hlt ⊢
  rw [List.getElem?_eq_getElem (by rwa [length_unopenedPlaces]), Option.getD_some]

/-- The two vectors after their shuffles. -/
theorem shuffled_vectors (h : Qualifies C k BF b) (rand : Bool → ℕ → ℕ) : ∃ zeros ones,
    shuffling (ofNats (unopenedPlaces C b false)) (rand false) = .ok zeros ∧
      shuffling (ofNats (unopenedPlaces C b true)) (rand true) = .ok ones ∧
      (∀ v, (vectors zeros ones v).length = outside C b v) ∧
      ∀ v s, (vectors zeros ones v)[s]? = (ofNats (unopenedPlaces C b v))[shufflePerm (rand v) (outside C b v) s]? := by
  have hlen : ∀ v, (ofNats (unopenedPlaces C b v)).length = outside C b v := fun v => by
    rw [length_ofNats, length_unopenedPlaces]
  obtain ⟨zeros, hz, hzl, hzg⟩ := shuffling_eq (by rw [hlen]; exact h.two false) (rand false)
  obtain ⟨ones, ho, hol, hog⟩ := shuffling_eq (by rw [hlen]; exact h.two true) (rand true)
  refine ⟨zeros, ones, hz, ho, ?_, ?_⟩
  · rintro (_ | _)
    · exact hzl.trans (hlen false)
    · exact hol.trans (hlen true)
  · rintro (_ | _) s
    · rw [← hlen false]; exact hzg s
    · rw [← hlen true]; exact hog s

/-- The messages of a receiver with a qualifying choice vector. -/
theorem receiverMessages_eq (h : Qualifies C k BF b) {strings : List Block} (hs : strings.length = Not)
    (rand : Bool → ℕ → ℕ) : receiverMessages C b strings BF (rand false) (rand true) =
      .ok ⟨ofNats (zeroPositions b (sortedDown C.elems)), funcOf C b BF rand⟩ := by
  obtain ⟨st, hst, hcut⟩ := computeRr_eq C h.length hs
  have hplaces : ∀ v, placesOf st.b (Not - C.size) v = unopenedPlaces C b v := by
    intro v
    apply List.filter_congr
    intro k hk
    rw [hcut.bits k (by have := List.mem_range.1 hk; omega)]
  obtain ⟨zeros, ones, hz, ho, hvl, hvg⟩ := shuffled_vectors h rand
  have hserved : Served st.indexes (vectors zeros ones) BF (funcOf C b BF rand) := by
    refine ⟨fun v => by rw [hvl]; exact h.enough v, by simp [funcOf], fun i hi => ?_⟩
    have hp := place_get h rand hi
    refine ⟨shuffledPlace (unopenedPlaces C b) rand BF i, ?_, ?_⟩
    · rw [show (fun v => (vectors zeros ones v).length) = outside C b from funext hvl, hvg, ofNats, List.getElem?_map, hp]
      rfl
    · have hlt : shuffledPlace (unopenedPlaces C b) rand BF i < Not :=
        (mem_unopenedPlaces.1 (List.mem_of_getElem? hp)).1.trans_le (Nat.sub_le _ _)
      exact ⟨by rw [hcut.indexes_length]; exact hlt, by rw [funcOf_get hi, hcut.indexes _ hlt]⟩
  obtain ⟨f, hf⟩ := arrange_total hserved.enough fun v x hx => by
    obtain ⟨s, hs⟩ := List.mem_iff_getElem?.1 hx
    rw [hvg] at hs
    obtain ⟨k', hk', rfl⟩ := mem_ofNats.1 (List.mem_of_getElem? hs)
    exact ⟨k', by rw [hcut.indexes_length]; exact (mem_unopenedPlaces.1 hk').1.trans_le (Nat.sub_le _ _), rfl⟩
  -- what serves the filter from these vectors is the function alone
  have hfeq := hserved.unique (served_of_ok hf)
  rw [receiverMessages, hst, ok_bind, getZerosOnes_eq (by rw [hcut.b_length]; omega), hplaces, hplaces, hz, ok_bind, ho,
    ok_bind]
  simp only [vectors_false, vectors_true] at hf
  simp only [pure, Except.pure, ok_bind, hf, hcut.R, hfeq]

theorem mem_sendable {m : Sent} : m ∈ sendable C k BF ↔ ∃ b, Qualifies C k BF b ∧
    m.R = ofNats (zeroPositions b (sortedDown C.elems)) ∧ ∃ rand, m.func = funcOf C b BF rand := by
  constructor
  · rintro ⟨b, strings, h, hs, rand, hm⟩
    rw [receiverMessages_eq h hs rand] at hm
    cases hm
    exact ⟨b, h, rfl, rand, rfl⟩
  · rintro ⟨b, h, hR, rand, hf⟩
    refine ⟨b, List.replicate Not 0, h, List.length_replicate, rand, ?_⟩
    rw [receiverMessages_eq h List.length_replicate rand]
    cases m; cases hR; cases hf; rfl

theorem funcOf_get_iff {i t : ℕ} (hi : i < BF.length) :
    (funcOf C b BF rand)[i]? = some (openedPerm C t : ℤ) ↔ shuffledPlace (unopenedPlaces C b) rand BF i = t := by
  rw [funcOf_get hi, Option.some_inj, Nat.cast_inj]
  exact (openedPerm C).injective.eq_iff

/-- The cell in the middle is served by the first place of its bit. -/
theorem place_mid (h : Qualifies C k BF b) (rand : Bool → ℕ → ℕ) (hm : BF.length / 2 < BF.length) :
    (unopenedPlaces C b BF[BF.length / 2])[0]? = some (shuffledPlace (unopenedPlaces C b) rand BF (BF.length / 2)) := by
  rw [← place_get h rand hm, slot_half, shufflePerm_last _ (h.two _)]

/-- In an ascending list only the first entry can be a lower bound of it. -/
theorem index_zero_of_le {l : List ℕ} (hl : l.Pairwise (· < ·)) {x j : ℕ} (hx : ∀ y ∈ l, x ≤ y) (hj : l[j]? = some x) :
    j = 0 := by
  rcases Nat.eq_zero_or_pos j with h0 | h0
  · exact h0
  · obtain ⟨hlt, hj⟩ := List.getElem?_eq_some_iff.1 hj
    have h1 := List.pairwise_iff_getElem.1 hl 0 j (by omega) hlt h0
    have h2 := hx _ (List.getElem_mem (by omega : 0 < l.length))
    omega

/-- And its first entry is one. -/
theorem le_of_head {l : List ℕ} (hl : l.Pairwise (· < ·)) {x y : ℕ} (hx : l[0]? = some x) (hy : y ∈ l) : x ≤ y := by
  cases l with
  | nil => cases hy
  | cons z l =>
    obtain rfl : z = x := Option.some_injective _ hx
    rcases List.mem_cons.1 hy with rfl | hy
    · exact le_rfl
    · exact (List.rel_of_pairwise_cons hl hy).le

theorem asc_unopenedPlaces (C : SubGroup Not) (b : List Bool) (v : Bool) : (unopenedPlaces C b v).Pairwise (· < ·) :=
  List.pairwise_lt_range.filter _

/-- A cell served by the least place of its bit has the last slot. -/
theorem slot_of_least (h : Qualifies C k BF b) {i : ℕ} (hi : i < BF.length)
    (hle : ∀ y ∈ unopenedPlaces C b BF[i], shuffledPlace (unopenedPlaces C b) rand BF i ≤ y) :
    slot BF (outside C b) i BF[i] = outside C b BF[i] - 1 := by
  have h0 := index_zero_of_le (asc_unopenedPlaces C b _) hle (place_get h rand hi)
  exact (shufflePerm (rand BF[i]) (outside C b BF[i])).injective (h0.trans (shufflePerm_last _ (h.two _)).symm)

/-! ## Choice vectors that begin with one bit -/

/-- The choice vector whose unopened places hold all bits `v` first. -/
def firstBits (C : SubGroup Not) (b : List Bool) (v : Bool) : List Bool :=
  withOutside C b fun k => if k < outside C b v then v else !v

theorem range_filter_lt {m n : ℕ} (h : n ≤ m) : (List.range m).filter (fun k => k < n) = List.range n := by
  obtain ⟨d, rfl⟩ := Nat.exists_eq_add_of_le h
  rw [List.range_add, List.filter_append, List.filter_eq_self.2 (by simp), List.filter_eq_nil_iff.2 (by simp),
    List.append_nil]

theorem range_filter_not_lt {m n : ℕ} (h : n ≤ m) :
    (List.range m).filter (fun k => ¬ k < n) = (List.range (m - n)).map (n + ·) := by
  obtain ⟨d, rfl⟩ := Nat.exists_eq_add_of_le h
  rw [List.range_add, List.filter_append, List.filter_eq_nil_iff.2 (by simp), List.filter_eq_self.2 (by simp),
    List.nil_append, Nat.add_sub_cancel_left]

theorem firstBits_places (hb : b.length = Not) (v : Bool) :
    unopenedPlaces C (firstBits C b v) v = List.range (outside C b v) := by
  have hadd := outside_add C hb
  have hle : outside C b v ≤ Not - C.size := by cases v <;> omega
  unfold firstBits
  rw [unopenedPlaces_withOutside, ← range_filter_lt hle]
  apply List.filter_congr
  intro k _
  by_cases hk : k < outside C b v <;> simp [hk]

theorem firstBits_places_not (hb : b.length = Not) (v : Bool) :
    unopenedPlaces C (firstBits C b v) (!v) = (List.range (outside C b (!v))).map (outside C b v + ·) := by
  have hadd := outside_add C hb
  have hle : outside C b v ≤ Not - C.size := by cases v <;> omega
  have hsub : outside C b (!v) = Not - C.size - outside C b v := by cases v <;> simp <;> omega
  unfold firstBits
  rw [unopenedPlaces_withOutside, hsub, ← range_filter_not_lt hle]
  apply List.filter_congr
  intro k _
  by_cases hk : k < outside C b v <;> simp [hk]

theorem firstBits_spec (h : Qualifies C k BF b) (v : Bool) :
    Qualifies C k BF (firstBits C b v) ∧ (∀ u, outside C (firstBits C b v) u = outside C b u) ∧
      zeroPositions (firstBits C b v) (sortedDown C.elems) = zeroPositions b (sortedDown C.elems) := by
  apply h.withOutside
  rw [← unopenedPlaces_withOutside C b]
  cases v
  · exact (congrArg List.length (firstBits_places_not h.length false)).trans (by simp)
  · exact (congrArg List.length (firstBits_places h.length true)).trans (by simp)

/-! ## What the messages tell -/

/-- The functions sent together with `R`. -/
def sentWith (S : Set Sent) (R : List ℤ) : Set (List ℤ) := {f | ⟨R, f⟩ ∈ S}

/-- The answer `R` of a choice vector. -/
def answer (C : SubGroup Not) (b : List Bool) : List ℤ := ofNats (zeroPositions b (sortedDown C.elems))

theorem mem_sentWith {R f : List ℤ} : f ∈ sentWith (sendable C k BF) R ↔
    ∃ b, Qualifies C k BF b ∧ R = answer C b ∧ ∃ rand, f = funcOf C b BF rand := mem_sendable

/-- Qualifying vectors with one answer have the same numbers of bits outside the sub-group. -/
theorem outside_of_answer {b' BF' : List Bool} (h : Qualifies C k BF b) (h' : Qualifies C k BF' b')
    (hR : answer C b = answer C b') (v : Bool) : outside C b' v = outside C b v := by
  have hz : zeroPositions b' (sortedDown C.elems) = zeroPositions b (sortedDown C.elems) :=
    (List.map_injective_iff.2 Nat.cast_injective hR).symm
  exact outside_congr h.length h'.length (h'.weight.trans h.weight.symm)
    (fun t ht => bits_of_zeroPositions h'.length h.length hz ht) v

/-- Whether cell `i` has the bit of the middle cell shows in the functions sent: then it can be served
by the second place when the middle cell is served by the first, but never by the first itself. -/
theorem agrees_iff (h : Qualifies C k BF b) (hm : BF.length / 2 < BF.length) {i : ℕ} (hi : i < BF.length)
    (hne : i ≠ BF.length / 2) : BF[i] = BF[BF.length / 2] ↔
      (∃ f ∈ sentWith (sendable C k BF) (answer C b), f[BF.length / 2]? = some (openedPerm C 0 : ℤ) ∧
        f[i]? = some (openedPerm C 1 : ℤ)) ∧
      ¬ ∃ f ∈ sentWith (sendable C k BF) (answer C b), f[i]? = some (openedPerm C 0 : ℤ) := by
  constructor
  · intro hv
    constructor
    · -- all bits of the middle cell in front, and draws that bring the second place to the slot of `i`
      obtain ⟨hq, hout, hz⟩ := firstBits_spec h BF[i]
      have hlt := slot_lt h.enough hi
      have hlast : slot BF (outside C b) (BF.length / 2) BF[BF.length / 2] = outside C b BF[BF.length / 2] - 1 :=
        slot_half BF _ _
      have hslot : slot BF (outside C b) i BF[i] < outside C b BF[i] - 1 := by
        have : slot BF (outside C b) i BF[i] ≠ outside C b BF[i] - 1 := by
          intro he
          refine hne (slot_inj h.enough hi hm hv ?_)
          rw [he, hlast, hv]
        omega
      obtain ⟨r, hr⟩ := exists_shufflePerm_second hslot
      have htwo := h.two BF[i]
      have hP := firstBits_places (C := C) h.length BF[i]
      refine ⟨funcOf C (firstBits C b BF[i]) BF fun _ => r,
        mem_sentWith.2 ⟨_, hq, by rw [answer, answer, hz], _, rfl⟩, ?_, ?_⟩
      · have hpm := place_mid hq (fun _ => r) hm
        rw [← hv, hP, List.getElem?_range (by omega)] at hpm
        exact (funcOf_get_iff hm).2 (Option.some_injective _ hpm).symm
      · have hpi := place_get hq (fun _ => r) hi
        rw [hP, show outside C (firstBits C b BF[i]) = outside C b from funext hout, hr, List.getElem?_range (by omega)] at hpi
        exact (funcOf_get_iff hi).2 (Option.some_injective _ hpi).symm
    · rintro ⟨f, hf, hfi⟩
      obtain ⟨b', h', _, rand, rfl⟩ := mem_sentWith.1 hf
      have hp := (funcOf_get_iff hi).1 hfi
      have hs := slot_of_least h' hi (by rw [hp]; exact fun _ _ => Nat.zero_le _)
      refine hne (slot_inj h'.enough hi hm hv ?_)
      rw [hs, slot_half, hv]
  · rintro ⟨⟨f, hf, hfm, hfi⟩, hno⟩
    by_contra hv
    obtain ⟨b', h', hR, rand, rfl⟩ := mem_sentWith.1 hf
    have hpm := (funcOf_get_iff hm).1 hfm
    have hpi := (funcOf_get_iff hi).1 hfi
    -- the first place has the other bit, so the second one is the least of the bit of `i`
    have h0 : 0 ∉ unopenedPlaces C b' BF[i] := by
      intro hmem
      have hmid := List.mem_of_getElem? (place_mid h' rand hm)
      rw [hpm] at hmid
      have h1 := (mem_unopenedPlaces.1 hmem).2
      rw [(mem_unopenedPlaces.1 hmid).2] at h1
      exact hv (Option.some_injective _ h1).symm
    have hs := slot_of_least h' hi (by
      rw [hpi]
      intro y hy
      rcases Nat.eq_zero_or_pos y with rfl | hy0
      · exact absurd hy h0
      · exact hy0)
    -- then the first place could serve `i` as well
    obtain ⟨hq, hout, hz⟩ := firstBits_spec h' BF[i]
    refine hno ⟨funcOf C (firstBits C b' BF[i]) BF rand, mem_sentWith.2 ⟨_, hq, ?_, _, rfl⟩, ?_⟩
    · rw [hR, answer, answer, hz]
    · have htwo := h'.two BF[i]
      have hp := place_get hq rand hi
      rw [firstBits_places h'.length, show outside C (firstBits C b' BF[i]) = outside C b' from funext hout, hs,
        shufflePerm_last _ htwo, List.getElem?_range (by omega)] at hp
      exact (funcOf_get_iff hi).2 (Option.some_injective _ hp).symm

/-- The middle cell can be served by the place behind all places of the other bit. -/
theorem exists_middle (h : Qualifies C k BF b) (hm : BF.length / 2 < BF.length) :
    ∃ f ∈ sentWith (sendable C k BF) (answer C b),
      f[BF.length / 2]? = some (openedPerm C (outside C b (!BF[BF.length / 2])) : ℤ) := by
  obtain ⟨hq, hout, hz⟩ := firstBits_spec h (!BF[BF.length / 2])
  have htwo := h.two BF[BF.length / 2]
  refine ⟨funcOf C (firstBits C b (!BF[BF.length / 2])) BF fun _ _ => 0,
    mem_sentWith.2 ⟨_, hq, by rw [answer, answer, hz], _, rfl⟩, ?_⟩
  have hpm := place_mid hq (fun _ _ => 0) hm
  have hP := firstBits_places_not (C := C) h.length (!BF[BF.length / 2])
  rw [Bool.not_not] at hP
  rw [hP, List.getElem?_map, List.getElem?_range (by omega)] at hpm
  exact (funcOf_get_iff hm).2 (Option.some_injective _ hpm).symm

/-- And by none behind it. -/
theorem middle_le (h : Qualifies C k BF b) (hm : BF.length / 2 < BF.length) {f : List ℤ}
    (hf : f ∈ sentWith (sendable C k BF) (answer C b)) {t : ℕ} (ht : f[BF.length / 2]? = some (openedPerm C t : ℤ)) :
    t ≤ outside C b (!BF[BF.length / 2]) := by
  obtain ⟨b', h', hR, rand, rfl⟩ := mem_sentWith.1 hf
  have hpm := place_mid h' rand hm
  rw [(funcOf_get_iff hm).1 ht] at hpm
  obtain ⟨h0, hpm⟩ := List.getElem?_eq_some_iff.1 hpm
  have htm := (mem_unopenedPlaces.1 (hpm ▸ List.getElem_mem h0)).1
  rw [← outside_of_answer h h' hR, ← length_unopenedPlaces]
  have hsub : List.range t ⊆ unopenedPlaces C b' (!BF[BF.length / 2]) := by
    intro x hx
    have hxt := List.mem_range.1 hx
    have hlt : openedPerm C x < b'.length := by rw [h'.length]; exact openedPerm_lt C (by omega)
    refine mem_unopenedPlaces.2 ⟨by omega, ?_⟩
    rw [List.getElem?_eq_getElem hlt]
    -- a place of the middle bit is not below the first one
    by_contra hx
    have hv : b'[openedPerm C x] = BF[BF.length / 2] := by
      revert hx
      cases b'[openedPerm C x] <;> cases BF[BF.length / 2] <;> simp
    have hmem : x ∈ unopenedPlaces C b' BF[BF.length / 2] :=
      mem_unopenedPlaces.2 ⟨by omega, by rw [List.getElem?_eq_getElem hlt, hv]⟩
    have hle := le_of_head (asc_unopenedPlaces C b' _) (List.getElem?_eq_getElem h0) hmem
    omega
  have hperm := List.subperm_of_subset List.nodup_range hsub
  simpa using hperm.length_le

/-- Filters with the same numbers of bits have the same qualifying vectors. -/
theorem Qualifies.congr {BF' : List Bool} (hc : ∀ v, BF'.count v = BF.count v) (h : Qualifies C k BF b) :
    Qualifies C k BF' b := ⟨h.length, h.weight, h.two, fun v => by rw [hc]; exact h.enough v⟩

/-- Filters with the same messages are equal, or each other's complement with as many unopened 0s as 1s. -/
theorem of_sendable_eq {BF' : List Bool} (hlen : BF'.length = BF.length) (hc : ∀ v, BF'.count v = BF.count v)
    (hS : sendable C k BF = sendable C k BF') (hne : BF ≠ BF') (h : Qualifies C k BF b) :
    BF' = BF.map (!·) ∧ 2 * outside C b true = Not - C.size := by
  have h' : Qualifies C k BF' b := h.congr hc
  have hpos : 0 < BF.length := by
    rcases Nat.eq_zero_or_pos BF.length with h0 | h0
    · exact absurd ((List.eq_nil_of_length_eq_zero h0).trans
        (List.eq_nil_of_length_eq_zero (hlen.trans h0)).symm) hne
    · exact h0
  have hm : BF.length / 2 < BF.length := by omega
  have hm' : BF'.length / 2 < BF'.length := by omega
  have hmid : BF'[BF'.length / 2] = BF'[BF.length / 2] := by congr 2
  have hagree : ∀ i (hi : i < BF.length), BF[i] = BF[BF.length / 2] ↔ BF'[i] = BF'[BF.length / 2] := by
    intro i hi
    by_cases hih : i = BF.length / 2
    · subst hih; simp
    · have h1 := agrees_iff h hm hi hih
      have h2 := agrees_iff h' hm' (hlen ▸ hi) (hlen ▸ hih)
      rw [hmid] at h2
      rw [h1, h2, hS, hlen]
  -- the middle cells differ, so all cells do
  have hdiff : BF'[BF.length / 2] = !BF[BF.length / 2] := by
    by_contra hsame
    refine hne (List.ext_getElem hlen.symm fun i hi hi' => ?_)
    have h1 := hagree i hi
    revert h1 hsame
    cases BF[i] <;> cases BF'[i] <;> cases BF[BF.length / 2] <;> cases BF'[BF.length / 2] <;> simp
  have hcompl : BF' = BF.map (!·) := by
    apply List.ext_getElem (by simp [hlen])
    intro i hi hi'
    have h1 := hagree i (hlen ▸ hi)
    rw [List.getElem_map]
    revert h1 hdiff
    cases BF[i] <;> cases BF'[i] <;> cases BF[BF.length / 2] <;> cases BF'[BF.length / 2] <;> simp
  refine ⟨hcompl, ?_⟩
  -- each filter bounds the place of the middle cell by the number of the other bit
  obtain ⟨f, hf, hft⟩ := exists_middle h hm
  obtain ⟨f', hf', hft'⟩ := exists_middle h' hm'
  have h1 := middle_le h' hm' (hS ▸ hf) (by rw [hlen]; exact hft)
  have h2 := middle_le h hm (hS ▸ hf') (by rw [← hlen]; exact hft')
  rw [hmid, hdiff, Bool.not_not] at h1 h2
  have hadd := outside_add C h.length
  revert h1 h2
  cases BF[BF.length / 2] <;> simp <;> omega

/-! ## Complementary filters -/

theorem count_map_not (l : List Bool) (v : Bool) : (l.map (!·)).count v = l.count (!v) := by
  have h := List.count_map_of_injective l (!·) (fun _ _ h => Bool.not_inj h) (!v)
  rwa [Bool.not_not] at h

theorem slot_compl (BF : List Bool) (n : Bool → ℕ) (i : ℕ) (v : Bool) :
    slot (BF.map (!·)) (fun u => n (!u)) i (!v) = slot BF n i v := by
  simp only [slot, List.length_map, ← List.map_take, ← List.map_drop, count_map_not, Bool.not_not]

/-- The choice vector with all bits outside the sub-group changed. -/
def flipOutside (C : SubGroup Not) (b : List Bool) : List Bool :=
  withOutside C b fun k => !b.getD (openedPerm C k) false

theorem flipOutside_places (hb : b.length = Not) (v : Bool) :
    unopenedPlaces C (flipOutside C b) v = unopenedPlaces C b (!v) := by
  unfold flipOutside
  rw [unopenedPlaces_withOutside]
  apply List.filter_congr
  intro k hk
  have hlt := openedPerm_lt_length C hb hk
  simp only [List.getD_eq_getElem?_getD, List.getElem?_eq_getElem hlt, Option.getD_some]
  cases b[openedPerm C k] <;> cases v <;> simp

/-- With as many unopened 0s as 1s, what a filter can send its complement can. -/
theorem sendable_compl (hbal : ∀ b, Qualifies C k BF b → 2 * outside C b true = Not - C.size)
    (hc : ∀ v, (BF.map (!·)).count v = BF.count v) : sendable C k BF ⊆ sendable C k (BF.map (!·)) := by
  rintro m hm
  obtain ⟨b, h, hR, rand, hf⟩ := mem_sendable.1 hm
  have hadd := outside_add C h.length
  have hb2 := hbal b h
  have heven : ((List.range (Not - C.size)).filter fun k => (!b.getD (openedPerm C k) false) = true).length =
      outside C b true := by
    have := congrArg List.length (flipOutside_places (C := C) h.length true)
    unfold flipOutside at this
    rw [unopenedPlaces_withOutside, length_unopenedPlaces] at this
    rw [this]
    simp only [Bool.not_true]
    omega
  obtain ⟨hq, _, hz⟩ := h.withOutside heven
  refine mem_sendable.2 ⟨flipOutside C b, hq.congr hc, by rw [hR, flipOutside, hz], fun v => rand (!v), ?_⟩
  have hplace : ∀ i, i < BF.length → shuffledPlace (unopenedPlaces C (flipOutside C b)) (fun v => rand (!v)) (BF.map (!·)) i =
      shuffledPlace (unopenedPlaces C b) rand BF i := by
    intro i hi
    have hget : (BF.map (!·)).getD i false = !BF.getD i false := by simp [hi]
    have hP : unopenedPlaces C (flipOutside C b) = fun v => unopenedPlaces C b (!v) :=
      funext (flipOutside_places h.length)
    simp only [shuffledPlace, hget, hP, Bool.not_not]
    rw [slot_compl BF (fun v => (unopenedPlaces C b v).length)]
  rw [hf, funcOf, funcOf, List.length_map]
  refine congrArg ofNats (List.map_congr_left fun i hi => ?_)
  rw [hplace i (List.mem_range.1 hi)]

end Func

/-- A receiver can send the same messages under two filters with the same number of ones exactly when
the filters are equal, or every qualifying choice vector has as many 0s as 1s outside the sub-group
and the filters are complementary. -/
theorem sendable_eq_iff {Not : ℕ} (C : SubGroup Not) (k : ℕ) (BF BF' : List Bool) (hlen : BF'.length = BF.length)
    (hones : BF'.count true = BF.count true) : sendable C k BF = sendable C k BF' ↔
      BF = BF' ∨ ∀ b, Qualifies C k BF b → BF' = BF.map (!·) ∧ 2 * outside C b true = Not - C.size := by
  have hc : ∀ v, BF'.count v = BF.count v := by
    have h := List.count_false_add_count_true BF
    have h' := List.count_false_add_count_true BF'
    rintro (_ | _) <;> omega
  constructor
  · intro hS
    by_cases hne : BF = BF'
    · exact Or.inl hne
    · exact Or.inr fun b h => of_sendable_eq hlen hc hS hne h
  · rintro (rfl | h)
    · rfl
    · by_cases hex : ∃ b, Qualifies C k BF b
      · obtain ⟨b, hb⟩ := hex
        obtain ⟨rfl, _⟩ := h b hb
        refine Set.Subset.antisymm (sendable_compl (fun b hb => (h b hb).2) hc) ?_
        have hback := sendable_compl (fun b hb => (h b (hb.congr fun v => (hc v).symm)).2) fun v => by
          rw [count_map_not, hc, count_map_not]
        rwa [List.map_map, show (fun x => !x) ∘ (fun x => !x) = (id : Bool → Bool) by ext; simp, List.map_id] at hback
      · have hempty : ∀ BF'', (∀ v, BF''.count v = BF.count v) → sendable C k BF'' = ∅ := by
          intro BF'' hc''
          apply Set.eq_empty_of_forall_notMem
          intro m hm
          obtain ⟨b, hb, _⟩ := mem_sendable.1 hm
          exact hex ⟨b, hb.congr fun v => (hc'' v).symm⟩
        rw [hempty BF fun _ => rfl, hempty BF' hc]

theorem sendable_eq_iff_four : sendable (.empty : SubGroup 4) 2 [false, false, true, true] =
      sendable (.empty : SubGroup 4) 2 [false, true, false, true] ↔
    [false, false, true, true] = [false, true, false, true] ∨
      ∀ b, Qualifies (.empty : SubGroup 4) 2 [false, false, true, true] b →
        [false, true, false, true] = [false, false, true, true].map (!·) ∧
          2 * outside (.empty : SubGroup 4) b true = 4 - (.empty : SubGroup 4).size :=
  sendable_eq_iff .empty 2 [false, false, true, true] [false, true, false, true] rfl rfl

/-- A receiver with filter 0011 and the choice vector 0011 can send this function. -/
theorem func_mem_sendable : (⟨[], [1, 0, 2, 3]⟩ : Sent) ∈ sendable (.empty : SubGroup 4) 2 [false, false, true, true] :=
  ⟨[false, false, true, true], List.replicate 4 0, ⟨rfl, rfl, by decide, by decide⟩, rfl, fun _ _ => 0, rfl⟩

/-- One with filter 0101 cannot: position 2 serves the middle cell, so it is the first 0, but position 1 serves a 0. -/
theorem func_notMem_sendable : (⟨[], [1, 0, 2, 3]⟩ : Sent) ∉ sendable (.empty : SubGroup 4) 2 [false, true, false, true] := by
  intro hm
  obtain ⟨b, h, _, rand, hf⟩ := mem_sendable.1 hm
  have hmid := (funcOf_get_iff (C := .empty) (b := b) (t := 2) (by decide)).1 (congrArg (·[2]?) hf).symm
  have h0 := (funcOf_get_iff (C := .empty) (b := b) (t := 1) (by decide)).1 (congrArg (·[0]?) hf).symm
  have hfirst : (unopenedPlaces .empty b false)[0]? = some 2 := hmid ▸ place_mid h rand (by decide)
  obtain ⟨hlt, hj⟩ := List.getElem?_eq_some_iff.1 (place_get h rand (i := 0) (by decide))
  have hmem : 1 ∈ unopenedPlaces .empty b false := h0 ▸ hj ▸ List.getElem_mem hlt
  have hle := le_of_head (asc_unopenedPlaces .empty b false) hfirst hmem
  omega

/-- Four positions, none opened, two of each bit: a receiver with filter 0011 sends a function that one with filter 0101
cannot send. -/
theorem sendable_ne : [false, true, false, true].length = [false, false, true, true].length ∧
    [false, false, true, true].length ≤ 4 - (.empty : SubGroup 4).size ∧
    [false, true, false, true].count true = [false, false, true, true].count true ∧
    (⟨[], [1, 0, 2, 3]⟩ : Sent) ∈ sendable (.empty : SubGroup 4) 2 [false, false, true, true] ∧
    (⟨[], [1, 0, 2, 3]⟩ : Sent) ∉ sendable (.empty : SubGroup 4) 2 [false, true, false, true] ∧
    sendable (.empty : SubGroup 4) 2 [false, false, true, true] ≠ sendable (.empty : SubGroup 4) 2 [false, true, false, true] :=
  ⟨rfl, by decide, rfl, func_mem_sendable, func_notMem_sendable, fun hS => func_notMem_sendable (hS ▸ func_mem_sendable)⟩

end Mpsi
