/-
When `get_sub_group` has enough words: its loop ends inside its blocks exactly when the words in them
leave `Nc` different residues modulo `Not`. The 10 percent of words it has in reserve do not ensure
this: two equal words are enough for a sub-group of two.
-/
import Mpsi.Apport.SubGroup
import Mathlib.Data.Finset.Card

namespace Mpsi

/-- The residues modulo `Not` of a list of words. -/
def residues (Not : ℕ) (ws : List ℕ) : Finset ℕ := (ws.map (· % Not)).toFinset

theorem residues_cons (Not w : ℕ) (ws : List ℕ) : residues Not (w :: ws) = insert (w % Not) (residues Not ws) := by
  simp [residues]

namespace SubGroup

variable {Not : ℕ}

/-- The members as a finite set. -/
def members (C : SubGroup Not) : Finset ℕ := C.elems.toFinset

@[simp] theorem members_empty : (empty : SubGroup Not).members = ∅ := rfl

theorem card_members (C : SubGroup Not) : C.members.card = C.size := List.toFinset_card_of_nodup C.nodup

theorem members_insert (w : ℕ) (h : Not ≠ 0) (C : SubGroup Not) :
    (C.insert w h).members = Insert.insert (w % Not) C.members := by
  ext t
  simp only [members, List.mem_toFinset, Finset.mem_insert]
  exact OrdSet.mem_insert

theorem size_insert_le (w : ℕ) (h : Not ≠ 0) (C : SubGroup Not) : (C.insert w h).size ≤ C.size + 1 := by
  rw [← card_members, ← card_members, members_insert]
  exact Finset.card_insert_le _ _

end SubGroup

theorem length_subGroupWords (aes : Block → Block → Block) (seed : Block) (Nc : ℕ) :
    (subGroupWords aes seed Nc).length = 2 * subGroupBlocks Nc := by
  simp [subGroupWords, mul_comm]

/-- There is a word for a sub-group with a member. -/
theorem subGroupBlocks_pos {Nc : ℕ} (h : 0 < Nc) : 0 < subGroupBlocks Nc := by
  unfold subGroupBlocks
  omega

theorem mem_residues {Not w : ℕ} {ws : List ℕ} (h : w ∈ ws) : w % Not ∈ residues Not ws := by
  unfold residues
  rw [List.mem_toFinset]
  exact List.mem_map_of_mem h

/-- The loop ends exactly when the words and what is there already make up `Nc` members. -/
theorem fillSubGroup_ok_iff {Not Nc : ℕ} (hN : Not ≠ 0) : ∀ (ws : List ℕ) (C : SubGroup Not), C.size ≤ Nc →
    ((∃ D, fillSubGroup Nc ws C = .ok D) ↔ Nc ≤ (C.members ∪ residues Not ws).card)
  | [], C, hC => by
    have hu : C.members ∪ residues Not [] = C.members := by simp [residues]
    rw [hu, C.card_members, fillSubGroup]
    by_cases h : C.size = Nc
    · rw [if_pos h]
      exact ⟨fun _ => h.ge, fun _ => ⟨C, rfl⟩⟩
    · rw [if_neg h]
      constructor
      · rintro ⟨_, h'⟩
        cases h'
      · intro h'
        exact absurd (le_antisymm hC h') h
  | w :: ws, C, hC => by
    unfold fillSubGroup
    by_cases h : C.size = Nc
    · have hsub : C.members.card ≤ (C.members ∪ residues Not (w :: ws)).card := Finset.card_le_card Finset.subset_union_left
      rw [if_pos h]
      rw [C.card_members, h] at hsub
      exact ⟨fun _ => hsub, fun _ => ⟨C, rfl⟩⟩
    · -- one word joins the set: what it adds is counted on the one side or on the other
      have hlt := lt_of_le_of_ne hC h
      have hins := C.size_insert_le w hN
      have hu : (C.insert w hN).members ∪ residues Not ws = C.members ∪ residues Not (w :: ws) := by
        rw [C.members_insert, residues_cons, Finset.insert_union, Finset.union_insert]
      rw [if_neg h]
      simp only [dif_neg hN]
      rw [fillSubGroup_ok_iff hN ws (C.insert w hN) (by omega), hu]

theorem exists_getSubGroup_iff {Not Nc : ℕ} (hNc : Nc ≤ Not) (aes : Block → Block → Block) (seed : Block) :
    (∃ C : SubGroup Not, getSubGroup aes Not Nc seed = .ok C) ↔
      Nc ≤ (residues Not (subGroupWords aes seed Nc)).card := by
  by_cases h0 : Not = 0
  · -- without positions nothing is asked for
    obtain rfl : Nc = 0 := by omega
    exact ⟨fun _ => Nat.zero_le _, fun _ => ⟨.empty, rfl⟩⟩
  · have h := fillSubGroup_ok_iff h0 (subGroupWords aes seed Nc) .empty (Nat.zero_le Nc)
    rwa [SubGroup.members_empty, Finset.empty_union] at h

/-- The sub-group is sampled from the blocks computed for it exactly when their words leave enough
residues; it is then an ascending list of `Nc` positions. -/
theorem getSubGroup_ok_iff {Not Nbf Nc : ℕ} (hN : Nbf ≤ Not) (hNc : Nc ≤ Not - Nbf) (aes : Block → Block → Block)
    (seed : Block) :
    (∃ C : SubGroup Not, getSubGroup aes Not Nc seed = .ok C ∧ C.elems.length = Nc ∧ C.elems.Pairwise (· < ·) ∧
        ∀ t ∈ C.elems, t < Not) ↔ Nc ≤ (residues Not (subGroupWords aes seed Nc)).card := by
  have hle : Nc ≤ Not := by omega
  rw [← exists_getSubGroup_iff hle]
  constructor
  · rintro ⟨C, h, _⟩
    exact ⟨C, h⟩
  · rintro ⟨C, h⟩
    exact ⟨C, h, getSubGroup_size h, C.set.asc, C.lt⟩

/-- Two of four positions, from one block with two different words. -/
theorem getSubGroup_ok_four : ∃ C : SubGroup 4, getSubGroup (fun _ _ => toBlock 1 2) 4 2 0 = .ok C ∧
    C.elems.length = 2 ∧ C.elems.Pairwise (· < ·) ∧ ∀ t ∈ C.elems, t < 4 := by
  have hN : 2 ≤ 4 := by decide
  have hNc : 2 ≤ 4 - 2 := by decide
  exact (getSubGroup_ok_iff hN hNc (fun _ _ => toBlock 1 2) 0).2 (by decide)

/-- A block whose two words are the same is all there is for a sub-group of two, and the third word
is read behind it. -/
theorem getSubGroup_runs_out : ∃ (aes : Block → Block → Block) (Not Nbf Nc : ℕ) (seed : Block),
    Nbf ≤ Not ∧ Nc ≤ Not - Nbf ∧ getSubGroup aes Not Nc seed = .error .outOfRange :=
  ⟨fun _ _ => toBlock 3 3, 4, 2, 2, 0, by decide, by decide, by decide⟩

end Mpsi
