/-
The choice vector of a receiver around an opened sub-group: how many bits of each kind lie outside
it, in which order the places in front of the index array show them, and how they can be changed
without changing what the sub-group shows.
-/
import Mpsi.Apport.Receiver
import Mathlib.Data.Bool.Count

namespace Mpsi

/-! ## Bits outside the sub-group -/

section Outside

variable {Not : ℕ}

/-- The number of unopened positions with choice bit `v`. -/
def outside (C : SubGroup Not) (b : List Bool) (v : Bool) : ℕ :=
  ((List.range Not).filter fun t => t ∉ C.elems ∧ b[t]? = some v).length

/-- The choice vectors of weight `k` that leave enough of each bit outside the sub-group. -/
structure Qualifies (C : SubGroup Not) (k : ℕ) (BF b : List Bool) : Prop where
  length : b.length = Not
  weight : b.count true = k
  two : ∀ v, 2 ≤ outside C b v
  enough : ∀ v, BF.count v ≤ outside C b v

/-- The places in front of the sub-group whose position has choice bit `v`. -/
def unopenedPlaces (C : SubGroup Not) (b : List Bool) (v : Bool) : List ℕ :=
  (List.range (Not - C.size)).filter fun k => b[openedPerm C k]? = some v

theorem mem_unopenedPlaces {C : SubGroup Not} {b : List Bool} {v : Bool} {k : ℕ} :
    k ∈ unopenedPlaces C b v ↔ k < Not - C.size ∧ b[openedPerm C k]? = some v := by
  simp [unopenedPlaces]

theorem nodup_unopenedPlaces (C : SubGroup Not) (b : List Bool) (v : Bool) : (unopenedPlaces C b v).Nodup :=
  List.nodup_range.filter _

/-- Every unopened position has a place in front. -/
theorem exists_place (C : SubGroup Not) {t : ℕ} (ht : t < Not) (hC : t ∉ C.elems) :
    ∃ k, k < Not - C.size ∧ openedPerm C k = t := by
  refine ⟨(openedPerm C).symm t, ?_, Equiv.apply_symm_apply _ _⟩
  have hk : (openedPerm C).symm t < Not := by
    by_contra h
    have := cutPerm_of_ge (sortedDown_descends C) (not_lt.1 h)
    change openedPerm C _ = _ at this
    rw [Equiv.apply_symm_apply] at this
    omega
  have h := openedPerm_mem_iff C hk
  rw [Equiv.apply_symm_apply] at h
  have := mt h.2 hC
  omega

theorem openedPerm_outside (C : SubGroup Not) {k : ℕ} (hk : k < Not - C.size) :
    openedPerm C k < Not ∧ openedPerm C k ∉ C.elems := by
  refine ⟨openedPerm_lt C (by omega), ?_⟩
  rw [openedPerm_mem_iff C (by omega)]
  omega

theorem length_unopenedPlaces (C : SubGroup Not) (b : List Bool) (v : Bool) :
    (unopenedPlaces C b v).length = outside C b v := by
  rw [← List.length_map (openedPerm C), outside]
  refine ((List.perm_ext_iff_of_nodup ((nodup_unopenedPlaces C b v).map (openedPerm C).injective)
    (List.nodup_range.filter _)).2 fun t => ?_).length_eq
  simp only [List.mem_map, mem_unopenedPlaces, List.mem_filter, List.mem_range, decide_eq_true_eq]
  constructor
  · rintro ⟨k, ⟨hk, hb⟩, rfl⟩
    exact ⟨(openedPerm_outside C hk).1, (openedPerm_outside C hk).2, hb⟩
  · rintro ⟨ht, hC, hb⟩
    obtain ⟨k, hk, rfl⟩ := exists_place C ht hC
    exact ⟨k, ⟨hk, hb⟩, rfl⟩

theorem openedPerm_lt_length (C : SubGroup Not) {b : List Bool} (hb : b.length = Not) {k : ℕ} (hk : k ∈ List.range (Not - C.size)) :
    openedPerm C k < b.length := by
  rw [List.mem_range] at hk
  rw [hb]
  apply openedPerm_lt
  omega

/-- Unopened positions have bit 0 or 1. -/
theorem outside_add (C : SubGroup Not) {b : List Bool} (hb : b.length = Not) :
    outside C b false + outside C b true = Not - C.size := by
  have hf : unopenedPlaces C b false =
      (List.range (Not - C.size)).filter fun k => !decide (b[openedPerm C k]? = some true) := by
    apply List.filter_congr
    intro k hk
    have hlt := openedPerm_lt_length C hb hk
    rw [List.getElem?_eq_getElem hlt]
    cases b[openedPerm C k] <;> simp
  rw [← length_unopenedPlaces, ← length_unopenedPlaces, hf, add_comm]
  have h := List.length_eq_length_filter_add (l := List.range (Not - C.size))
    fun k => decide (b[openedPerm C k]? = some true)
  rw [List.length_range] at h
  exact h.symm

theorem count_eq_length_placesOf (l : List Bool) (v : Bool) : l.count v = (placesOf l l.length v).length := by
  induction l using List.reverseRecOn with
  | nil => rfl
  | append_singleton l a ih =>
    have hcongr : (List.range l.length).filter (fun k => (l ++ [a])[k]? = some v) = placesOf l l.length v := by
      apply List.filter_congr
      intro k hk
      rw [List.getElem?_append_left (List.mem_range.1 hk)]
    rw [List.count_append, placesOf, List.length_append, List.length_singleton, List.range_succ, List.filter_append,
      hcongr, List.length_append, ← ih]
    cases a <;> cases v <;> simp

/-- A choice vector's bits `v` are those outside the sub-group and those in it. -/
theorem count_eq_outside (C : SubGroup Not) {b : List Bool} (hb : b.length = Not) (v : Bool) :
    b.count v = outside C b v + (C.elems.filter fun t => b[t]? = some v).length := by
  have hin : ((placesOf b Not v).filter fun t => t ∈ C.elems).length =
      (C.elems.filter fun t => b[t]? = some v).length := by
    refine ((List.perm_ext_iff_of_nodup ((nodup_placesOf b Not v).filter _) (C.nodup.filter _)).2 fun t => ?_).length_eq
    simp only [List.mem_filter, mem_placesOf, decide_eq_true_eq]
    exact ⟨fun h => ⟨h.2, h.1.2⟩, fun h => ⟨⟨C.lt t h.1, h.2⟩, h.1⟩⟩
  have hout : (placesOf b Not v).filter (fun t => !decide (t ∈ C.elems)) =
      (List.range Not).filter fun t => t ∉ C.elems ∧ b[t]? = some v := by
    unfold placesOf
    rw [List.filter_filter]
    apply List.filter_congr
    intro t _
    simp
  have h := List.length_eq_length_filter_add (l := placesOf b Not v) fun t => decide (t ∈ C.elems)
  rw [count_eq_length_placesOf, hb, h, hout, hin, outside, add_comm]

/-- The 0-positions of the sub-group tell its bits. -/
theorem bits_of_zeroPositions {C : SubGroup Not} {b b' : List Bool} (hb : b.length = Not) (hb' : b'.length = Not)
    (h : zeroPositions b (sortedDown C.elems) = zeroPositions b' (sortedDown C.elems)) {t : ℕ} (ht : t ∈ C.elems) :
    b[t]? = b'[t]? := by
  have hmem : ∀ d : List Bool, t ∈ zeroPositions d (sortedDown C.elems) ↔ d[t]? = some false := by
    intro c
    simp [zeroPositions, mem_sortedDown, ht]
  have hlt := C.lt t ht
  have hiff : b[t]? = some false ↔ b'[t]? = some false := by rw [← hmem b, ← hmem b', h]
  rw [List.getElem?_eq_getElem (by omega), List.getElem?_eq_getElem (by omega)] at hiff ⊢
  cases h1 : b[t] <;> cases h2 : b'[t] <;> simp_all

/-- Choice vectors of one weight that agree on the sub-group agree in their numbers outside it. -/
theorem outside_congr {C : SubGroup Not} {b b' : List Bool} (hb : b.length = Not) (hb' : b'.length = Not)
    (hw : b'.count true = b.count true) (h : ∀ t ∈ C.elems, b'[t]? = b[t]?) (v : Bool) : outside C b' v = outside C b v := by
  have hin : ∀ v, C.elems.filter (fun t => b'[t]? = some v) = C.elems.filter fun t => b[t]? = some v :=
    fun v => List.filter_congr fun t ht => by rw [h t ht]
  have h1 := count_eq_outside C hb true
  have h1' := count_eq_outside C hb' true
  rw [hin] at h1'
  have h2 := outside_add C hb
  have h2' := outside_add C hb'
  cases v <;> omega

/-- A choice vector with given bits outside the sub-group, in the order of the places, and the bits of
`b` in it. -/
def withOutside (C : SubGroup Not) (b : List Bool) (c : ℕ → Bool) : List Bool :=
  (List.range Not).map fun t => if t ∈ C.elems then b.getD t false else c ((openedPerm C).symm t)

theorem length_withOutside (C : SubGroup Not) (b : List Bool) (c : ℕ → Bool) : (withOutside C b c).length = Not := by
  simp [withOutside]

theorem withOutside_inside {C : SubGroup Not} {b : List Bool} (hb : b.length = Not) (c : ℕ → Bool) {t : ℕ}
    (ht : t ∈ C.elems) : (withOutside C b c)[t]? = b[t]? := by
  have hlt := C.lt t ht
  simp [withOutside, hlt, ht, hb]

theorem withOutside_place (C : SubGroup Not) (b : List Bool) (c : ℕ → Bool) {k : ℕ} (hk : k < Not - C.size) :
    (withOutside C b c)[openedPerm C k]? = some (c k) := by
  obtain ⟨hlt, hC⟩ := openedPerm_outside C hk
  simp [withOutside, hlt, hC]

theorem unopenedPlaces_withOutside (C : SubGroup Not) (b : List Bool) (c : ℕ → Bool) (v : Bool) :
    unopenedPlaces C (withOutside C b c) v = (List.range (Not - C.size)).filter fun k => c k = v := by
  apply List.filter_congr
  intro k hk
  rw [withOutside_place C b c (List.mem_range.1 hk)]
  simp

/-- Changing the bits outside the sub-group without changing their numbers keeps `R` and leaves the vector
qualified for the filter (`Qualifies`). -/
theorem Qualifies.withOutside {C : SubGroup Not} {k : ℕ} {BF b : List Bool} (h : Qualifies C k BF b) {c : ℕ → Bool}
    (hc : ((List.range (Not - C.size)).filter fun k => c k = true).length = outside C b true) :
    Qualifies C k BF (withOutside C b c) ∧ (∀ v, outside C (Mpsi.withOutside C b c) v = outside C b v) ∧
      zeroPositions (Mpsi.withOutside C b c) (sortedDown C.elems) = zeroPositions b (sortedDown C.elems) := by
  have hlen := length_withOutside C b c
  have hin : ∀ t ∈ C.elems, (Mpsi.withOutside C b c)[t]? = b[t]? := fun t ht => withOutside_inside h.length c ht
  have htrue : outside C (Mpsi.withOutside C b c) true = outside C b true := by
    rw [← length_unopenedPlaces, unopenedPlaces_withOutside, hc]
  have hw : (Mpsi.withOutside C b c).count true = b.count true := by
    rw [count_eq_outside C hlen, count_eq_outside C h.length, htrue,
      List.filter_congr fun t ht => by rw [hin t ht]]
  have hout := outside_congr h.length hlen hw hin
  refine ⟨⟨hlen, hw.trans h.weight, fun v => by rw [hout]; exact h.two v, fun v => by rw [hout]; exact h.enough v⟩, hout, ?_⟩
  apply List.filter_congr
  intro t ht
  rw [hin t (mem_sortedDown.1 ht)]

end Outside

end Mpsi
