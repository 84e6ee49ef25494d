/-
What the cut-and-choose step detects. A receiver that answers with its 0-positions passes with those sub-groups
that hold at most `maxOnes` of its 1-positions (`card_passing`). Whatever else it lists, the exclusive or of the
0-strings fits one value only of a string that it does not hold and has listed an odd number of times
(`passes_for_one_string`). But nothing ties the list to the sub-group: one 0-position listed often enough passes
with all of them (`one_zero_passes`).
-/
import Mpsi.Apport.Handshake
import Mpsi.Lib.Selections

namespace Mpsi

open Finset Selections

/-! ## An honest answer -/

/-- The answer of `compute_R_r` to this sub-group passes `check_if_to_abort1`. -/
def AnswerPasses (b : List Bool) (strings : List (Block × Block)) (maxOnes : ℤ) (C : Finset ℕ) : Prop :=
  ∃ st, computeRr (C.sort (· ≤ ·)) (freshIndexes b.length) b b.length (chosenStrings strings b) = .ok st ∧
    Accepts none C.card maxOnes strings st.message

/-- The positions the receiver has chosen with bit 1. -/
def onePositions (b : List Bool) : Finset ℕ := {t ∈ range b.length | b[t]? = some true}

section Honest

variable {b : List Bool} {strings : List (Block × Block)} {maxOnes : ℤ} {C : Finset ℕ}

theorem length_filter_sort : ((C.sort (· ≤ ·)).filter fun t => b[t]? = some true).length = #{t ∈ C | b[t]? = some true} := by
  rw [← List.toFinset_card_of_nodup ((C.sort_nodup _).filter _), List.toFinset_filter, Finset.sort_toFinset]
  simp

/-- The number of opened 1-positions decides. -/
theorem answerPasses_iff (hs : strings.length = b.length) (hC : C ⊆ range b.length) (hm : maxOnes < C.card) :
    AnswerPasses b strings maxOnes C ↔ (#{t ∈ C | b[t]? = some true} : ℤ) ≤ maxOnes := by
  have hlt : ∀ t ∈ C.sort (· ≤ ·), t < b.length := fun t ht => mem_range.1 (hC ((C.mem_sort _).1 ht))
  obtain ⟨st, h, hR, hr⟩ := computeRr_zeroPositions (C.sort_nodup _) hlt rfl hs
  have hlen : st.R.length = (zeroPositions b (C.sort (· ≤ ·))).length := by rw [hR.length_eq, length_ofNats]
  have hsplit := length_zeroPositions hlt
  rw [length_filter_sort, length_sort] at hsplit
  have hread : ∀ k ∈ st.message.R, ∃ t : ℕ, t < strings.length ∧ k = t := by
    intro k hk
    obtain ⟨t, ht, rfl⟩ := mem_ofNats.1 (hR.mem_iff.1 hk)
    exact ⟨t, by rw [hs]; exact hlt t (mem_zeroPositions.1 ht).1, rfl⟩
  have hNr : st.message.Nr = st.R.length := rfl
  obtain ⟨v, hv, hcode⟩ := recvRChecked_of_sum hm hNr hread hr
  have hcount : v.code = 0 ↔ (#{t ∈ C | b[t]? = some true} : ℤ) ≤ maxOnes := by
    rw [hcode]
    omega
  rw [← hcount]
  constructor
  · rintro ⟨st', h', v', hv', hcode'⟩
    obtain rfl := Except.ok.inj (h.symm.trans h')
    obtain rfl := Except.ok.inj (hv.symm.trans hv')
    exact hcode'
  · exact fun hcode' => ⟨st, h, v, hv, hcode'⟩

/-- The sub-groups of `Nc` positions with which an honest answer passes, out of `b.length.choose Nc`. -/
theorem card_passing {Nc m : ℕ} (hs : strings.length = b.length) (hm : m < Nc) :
    {C : Finset ℕ | C ⊆ range b.length ∧ #C = Nc ∧ AnswerPasses b strings m C}.ncard =
      ∑ k ∈ range (m + 1), (#(onePositions b)).choose k * (b.length - #(onePositions b)).choose (Nc - k) := by
  have hset : {C : Finset ℕ | C ⊆ range b.length ∧ #C = Nc ∧ AnswerPasses b strings m C} =
      ({C ∈ powersetCard Nc (range b.length) | #(C ∩ onePositions b) ≤ m} : Finset (Finset ℕ)) := by
    ext C
    rw [mem_coe, mem_filter, mem_powersetCard, Set.mem_ofPred_eq, and_assoc]
    refine and_congr_right fun hC => and_congr_right fun hcard => ?_
    rw [answerPasses_iff hs hC (by rw [hcard]; exact_mod_cast hm), Nat.cast_le]
    have hones : {t ∈ C | b[t]? = some true} = C ∩ onePositions b := by
      ext t
      simp only [onePositions, mem_filter, mem_inter, mem_range]
      exact and_congr_right fun ht => (and_iff_right (mem_range.1 (hC ht))).symm
    rw [hones]
  have hsub : onePositions b ⊆ range b.length := filter_subset _ _
  rw [hset, Set.ncard_coe_finset, card_meeting_le _ _ hm.le, inter_eq_right.2 hsub, card_sdiff_of_subset hsub, card_range]

end Honest

/-- Of the six pairs of four positions five hold at most one of two 1-positions. -/
theorem card_passing_four :
    {C : Finset ℕ | C ⊆ range 4 ∧ #C = 2 ∧ AnswerPasses [false, true, true, false] (List.replicate 4 (0, toBlock 0 1)) (1 : ℕ) C}.ncard = 5 :=
  (card_passing (b := [false, true, true, false]) (m := 1) rfl (by decide)).trans (by decide)

/-! ## A string listed but not held -/

section Listed

variable {strings : List (Block × Block)} {b : List Bool} {Nc maxOnes : ℤ} {msg : RMessage}

/-- The strings with another 0-string at position `k`. -/
def withZero (strings : List (Block × Block)) (k : ℕ) (x : Block) : List (Block × Block) :=
  strings.set k (x, (strings.getD k (0, 0)).2)

theorem zeroString_withZero {k : ℕ} (hk : k < strings.length) (x : Block) (j : ℤ) (hj : 0 ≤ j) :
    zeroString (withZero strings k x) j = zeroString strings j + if j = k then zeroString strings k + x else 0 := by
  obtain ⟨j, rfl⟩ := Int.eq_ofNat_of_zero_le hj
  unfold zeroString withZero
  by_cases hjk : j = k
  · subst hjk
    simp [hk, XorGroup.add_cancel_left]
  · simp [List.getD_eq_getElem?_getD, List.getElem?_set_ne (Ne.symm hjk), hjk]

/-- A list of indices passes with the exclusive or of their 0-strings only. -/
theorem accepts_none_iff (hR : msg.R ≠ []) (hin : ∀ k ∈ msg.R, InStrings strings k) : Accepts none Nc maxOnes strings msg ↔
    Nc - msg.Nr ≤ maxOnes ∧ msg.r = (msg.R.map (zeroString strings)).sum := by
  have hlen := msg.len
  have hpos := List.length_pos_iff.2 hR
  have hNr : (msg.R.length : ℤ) = msg.Nr := by omega
  have hread : ∀ k ∈ msg.R, readAt ((none : Option Outside).map Outside.pairs) strings k = .ok (strings.getD k.toNat (0, 0)) := by
    intro k hk
    obtain ⟨h0, h1⟩ := hin k hk
    obtain ⟨t, rfl⟩ := Int.eq_ofNat_of_zero_le h0
    have ht : t < strings.length := by exact_mod_cast h1
    have hget : readAt ((none : Option Outside).map Outside.pairs) strings t = .ok strings[t] := readAt_nat t ht
    simpa [ht] using hget
  have hr := computeR_eq hR hread
  rw [hNr] at hr
  unfold Accepts recvRChecked checkIfToAbort1
  rw [newArray_ok.2 (by omega), ok_bind]
  by_cases hc : Nc - msg.Nr > maxOnes
  · rw [if_pos hc]
    simp [not_le.2 hc]
  · rw [if_neg hc, hr, ok_bind]
    change (∃ v, (if (msg.R.map (zeroString strings)).sum ≠ msg.r then _ else _) = Except.ok v ∧ _) ↔ _
    by_cases hm : (msg.R.map (zeroString strings)).sum = msg.r
    · simp [hm, not_lt.1 hc]
    · simp [hm, Ne.symm hm]

/-- A list of positions with another 0-string at one of them. -/
theorem sum_withZero {k : ℕ} (hk : k < strings.length) (x : Block) : ∀ R : List ℤ, (∀ j ∈ R, InStrings strings j) →
    (R.map (zeroString (withZero strings k x))).sum =
      (R.map (zeroString strings)).sum + R.count (k : ℤ) • (zeroString strings k + x)
  | [], _ => by simp
  | j :: R, h => by
    rw [List.map_cons, List.map_cons, List.sum_cons, List.sum_cons, sum_withZero hk x R fun j' hj' => h j' (List.mem_cons_of_mem _ hj'),
      zeroString_withZero hk x j (h j (List.mem_cons_self ..)).1, List.count_cons]
    by_cases hj : j = k
    · simp only [hj, if_pos, beq_self_eq_true, add_smul, one_smul]
      abel
    · simp only [hj, if_false, beq_iff_eq, add_zero]
      abel

/-- A position with bit 1 does not show its 0-string. -/
theorem chosenStrings_withZero {k : ℕ} (hbk : b[k]? = some true) (x : Block) :
    chosenStrings (withZero strings k x) b = chosenStrings strings b := by
  apply List.ext_getElem?
  intro j
  unfold chosenStrings withZero
  rw [List.getElem?_zipWith, List.getElem?_zipWith]
  by_cases hj : k = j
  · subst hj
    by_cases hk : k < strings.length
    · simp [hbk, hk]
    · simp [hk]
  · rw [List.getElem?_set_ne hj]

/-- With a position listed an odd number of times the list passes for one value of its 0-string. A receiver with
bit 1 there sees nothing of this value. -/
theorem passes_for_one_string (hc : Nc - msg.Nr ≤ maxOnes) (hin : ∀ j ∈ msg.R, InStrings strings j) {k : ℕ}
    (hodd : Odd (msg.R.count (k : ℤ))) : (∃! x, Accepts none Nc maxOnes (withZero strings k x) msg) ∧
      ∀ (b : List Bool) (x : Block), b[k]? = some true → chosenStrings (withZero strings k x) b = chosenStrings strings b := by
  have hmem : (k : ℤ) ∈ msg.R := List.count_pos_iff.1 hodd.pos
  have hk : k < strings.length := by exact_mod_cast (hin k hmem).2
  have hR : msg.R ≠ [] := List.ne_nil_of_mem hmem
  have hacc : ∀ x, Accepts none Nc maxOnes (withZero strings k x) msg ↔
      x = msg.r + ((msg.R.map (zeroString strings)).sum + zeroString strings k) := by
    intro x
    rw [accepts_none_iff hR fun j hj => ?_, and_iff_right hc, sum_withZero hk x _ hin, XorGroup.odd_smul hodd, ← add_assoc]
    · constructor
      · intro h
        rw [h, add_comm _ x, add_assoc, Block.add_self_zero, add_zero]
      · rintro rfl
        rw [add_comm msg.r, XorGroup.add_cancel_left]
    · obtain ⟨h0, h1⟩ := hin j hj
      exact ⟨h0, by rw [withZero, List.length_set]; exact h1⟩
  exact ⟨⟨_, (hacc _).2 rfl, fun x hx => (hacc x).1 hx⟩, fun b x hbk => chosenStrings_withZero hbk x⟩

/-- A list of one position that the receiver may not hold. -/
theorem passes_for_one_string_two : ∃! x, Accepts none 1 0 (withZero [(0, 0), (0, 0)] 1 x) ⟨1, [1], 0, rfl⟩ :=
  have hin : ∀ j ∈ (RMessage.mk 1 [1] 0 rfl).R, InStrings [(0, 0), (0, 0)] j := fun j hj => by
    rw [List.mem_singleton.1 hj]
    exact ⟨by decide, by decide⟩
  have hodd : Odd ((RMessage.mk 1 [1] 0 rfl).R.count ((1 : ℕ) : ℤ)) := by decide
  (passes_for_one_string le_rfl hin hodd).1

/-- A receiver with one 0-position and a 1 at all others has an answer that passes whatever the sub-group is,
made of its own strings alone. It has no more indices than are asked for, or one more. -/
theorem one_zero_passes (b : List Bool) (Nc maxOnes : ℤ) {z : ℕ} (hz : b[z]? = some false) :
    ∃ answer : List Block → RMessage, (∀ own, (answer own).Nr ≤ max (Nc - maxOnes) 0 + 1) ∧
      ∀ strings : List (Block × Block), strings.length = b.length → Accepts none Nc maxOnes strings (answer (chosenStrings strings b)) := by
  -- often enough for the count, and an odd number of times for the exclusive or
  refine ⟨fun own => ⟨(2 * ((Nc - maxOnes).toNat / 2) + 1 : ℕ), List.replicate (2 * ((Nc - maxOnes).toNat / 2) + 1) (z : ℤ),
    blockAt own z, by rw [List.length_replicate, Int.toNat_natCast]⟩, fun own => by dsimp only; omega, fun strings hs => ?_⟩
  have hlt : z < strings.length := by
    rw [hs]
    exact (List.getElem?_eq_some_iff.1 hz).1
  rw [accepts_none_iff (by simp) fun j hj => ?_]
  · refine ⟨by dsimp only; omega, ?_⟩
    dsimp only
    rw [List.map_replicate, List.sum_replicate, XorGroup.odd_smul ⟨_, rfl⟩, blockAt_chosenStrings hlt hz]
  · rw [List.eq_of_mem_replicate hj]
    exact ⟨by omega, by exact_mod_cast hlt⟩

/-- Of three positions only the first has bit 0, and the sub-group may hold all of them. -/
theorem one_zero_passes_three : ∃ answer : List Block → RMessage, (∀ own, (answer own).Nr ≤ 4) ∧
    ∀ strings : List (Block × Block), strings.length = 3 → Accepts none 3 0 strings (answer (chosenStrings strings [false, true, true])) :=
  one_zero_passes [false, true, true] 3 0 (z := 0) rfl

end Listed

end Mpsi
