/-
What the output depends on.

The string for a 1 that a Pi holds at the position P0's function names for a cell of an item enters P0's
final GBF once and nothing else, when the Pi's filter has a 0 there: the item is printed for exactly one
value of that string (`printed_for_one_string`).
-/
import Mpsi.Protocol.Variation

namespace Mpsi

open Thread Stream Finset

variable {κ : Type} [DecidableEq κ] {e : Env κ} {D : Outcome e}

/-! ## The strings of an outcome -/

/-- The position the function of an instance names for a cell. -/
def Outcome.position (D : Outcome e) (p a c : ℕ) : ℕ := (((D.merged p).func_recv a).getD c 0).toNat

/-- The pair of strings at that position. -/
def Outcome.pair (D : Outcome e) (p a c : ℕ) : Block × Block := (e.peerStrings p a).getD (D.position p a c) (0, 0)

theorem Outcome.Honest.position_eq (hD : D.Honest) {p a c : ℕ} (hp : p < e.parties) (ha : a < slots e.parties p) (hc : c < e.Nbf) :
    ((D.merged p).func_recv a)[c]? = some (D.position p a c : ℤ) ∧ D.position p a c < e.Not ∧
      D.position p a c ∉ ((D.merged p).receiver a).sub_group.elems := by
  have hm := hD.merged p hp
  have hlen := length_BF hm.toFilteredOk
  obtain ⟨t, ht, hlt, hn, _⟩ := (indexFunc_of_merged hm ha).entry c (by rw [hlen]; exact hc)
  have hpos : D.position p a c = t := by simp [Outcome.position, ht]
  rw [hpos]
  exact ⟨ht, hlt, hn⟩

/-- Different cells have different positions. -/
theorem Outcome.Honest.position_inj (hD : D.Honest) {p a c c' : ℕ} (hp : p < e.parties) (ha : a < slots e.parties p)
    (hc : c < e.Nbf) (hc' : c' < e.Nbf) (h : D.position p a c = D.position p a c') : c = c' := by
  have h1 := (hD.position_eq hp ha hc).1
  have h2 := (hD.position_eq hp ha hc').1
  rw [h] at h1
  exact (indexFunc_of_merged (hD.merged p hp) ha).inj c c' _ h1 h2

theorem Outcome.Honest.value_receiver (hD : D.Honest) {p a c : ℕ} (hp : p < e.parties) (ha : a < slots e.parties p) (hc : c < e.Nbf) :
    value ((D.merged p).data e p) (a, .receiver) c = pick ((D.merged p).BF.getD c false) (D.pair p a c) := by
  obtain ⟨t, ht, h, _⟩ := hD.cell hp ha hc
  have hpos := (hD.position_eq hp ha hc).1
  obtain rfl : t = D.position p a c := by
    rw [ht] at hpos
    exact Nat.cast_injective (Option.some_injective _ hpos)
  exact value_of_ok h

theorem Outcome.Honest.value_sender (hD : D.Honest) {p a c : ℕ} (hp : p < e.parties) (ha : a < slots e.parties p) (hc : c < e.Nbf) :
    value ((D.merged p).data e p) (a, .sender) c = pick ((D.merged p).BF.getD c false) (D.pair (instPeer p a) (Env.peerSlot p) c) := by
  obtain ⟨h1, h2, h3, h4⟩ := inst_peer hp ha
  obtain ⟨t, ht, _, h⟩ := hD.cell h1 h2 hc
  have hpos := (hD.position_eq h1 h2 hc).1
  obtain rfl : t = D.position (instPeer p a) (Env.peerSlot p) c := by
    rw [ht] at hpos
    exact Nat.cast_injective (Option.some_injective _ hpos)
  rw [h3, h4] at h
  exact value_of_ok h

/-! ## One string -/

section OneString

variable {i t : ℕ} {v : Block}

/-- The strings with another one for a 1 at position `t` of what player `i` holds for P0. -/
def oneString (e : Env κ) (i t : ℕ) (v : Block) (p a : ℕ) : List (Block × Block) :=
  if p = i ∧ a = 0 then (e.strings p a).modify t fun s => (s.1, v) else e.strings p a

omit [DecidableEq κ] in
theorem oneString_length (p a : ℕ) : (oneString e i t v p a).length = e.Not := by
  unfold oneString
  split <;> simp [e.strings_length]

/-- The parties with this string. -/
abbrev Env.withString (e : Env κ) (i t : ℕ) (v : Block) : Env κ := e.over (oneString e i t v) oneString_length e.memory

omit [DecidableEq κ] in
theorem oneString_fst (p a k : ℕ) : (oneString e i t v p a)[k]?.map Prod.fst = (e.strings p a)[k]?.map Prod.fst := by
  unfold oneString
  split
  · rw [List.getElem?_modify]
    cases (e.strings p a)[k]? with
    | none => rfl
    | some s => by_cases hk : t = k <;> simp [hk]
  · rfl

omit [DecidableEq κ] in
theorem oneString_of_ne {p a k : ℕ} (h : ¬ (p = i ∧ a = 0 ∧ k = t)) : (oneString e i t v p a)[k]? = (e.strings p a)[k]? := by
  unfold oneString
  split
  · rename_i hpa
    rw [List.getElem?_modify]
    cases (e.strings p a)[k]? with
    | none => rfl
    | some s =>
      have hk : ¬ t = k := fun hk => h ⟨hpa.1, hpa.2, hk.symm⟩
      simp [hk]
  · rfl

/-- Which instance has the string at its other end. -/
theorem peer_eq_iff (hi0 : 0 < i) {p a : ℕ} : instPeer p a = i ∧ Env.peerSlot p = 0 ↔ p = 0 ∧ a + 1 = i := by
  unfold instPeer Env.peerSlot
  split
  · simp_all
  · simp_all; omega

/-- The outcome with the string `v` at the position of cell `j` in P0's instance with player `i`. -/
abbrev Outcome.withString (D : Outcome e) (i j : ℕ) (v : Block) : Outcome (e.withString i (D.position 0 (i - 1) j) v) :=
  D.over (oneString e i (D.position 0 (i - 1) j) v) oneString_length e.memory

section Outcome

variable (hD : D.Honest) (hi0 : 0 < i) (hi : i < e.parties) {j : ℕ} (hj : j < e.Nbf)

omit [DecidableEq κ] in
theorem piSlot_lt (hi0 : 0 < i) (hi : i < e.parties) : i - 1 < slots e.parties 0 := by rw [slots, if_pos rfl]; omega

include hD hi0 hi hj

/-- The position is not opened, so no check sees the string. -/
theorem Outcome.Honest.withString : (D.withString i j v).Honest := by
  refine hD.over ⟨fun p a hp ha k hk => ?_, fun p a => ?_⟩
  · unfold Env.choiceStrings
    rw [List.getElem?_zipWith, List.getElem?_zipWith]
    have hne : ¬ (instPeer p a = i ∧ Env.peerSlot p = 0 ∧ k = D.position 0 (i - 1) j) := by
      rintro ⟨h1, h2, rfl⟩
      obtain ⟨rfl, rfl⟩ := (peer_eq_iff hi0).1 ⟨h1, h2⟩
      exact (hD.position_eq hp ha hj).2.2 hk
    rw [show ((e.withString i (D.position 0 (i - 1) j) v).peerStrings p a)[k]? = (e.peerStrings p a)[k]? from oneString_of_ne hne]
  · apply List.ext_getElem?
    intro k
    rw [List.getElem?_map, List.getElem?_map]
    exact oneString_fst p a k

/-- Only P0's instance with player `i` can choose it, for cell `j` and a 1. -/
theorem Outcome.Honest.pick_pair {p a c : ℕ} {b : Bool} (hc : c < e.Nbf) (h : ¬ (p = 0 ∧ a + 1 = i ∧ c = j ∧ b = true)) :
    pick b ((D.withString i j v).pair p a c) = pick b (D.pair p a c) := by
  have hpos : (D.withString i j v).position p a c = D.position p a c := rfl
  unfold Outcome.pair
  rw [hpos, List.getD_eq_getElem?_getD, List.getD_eq_getElem?_getD]
  by_cases hat : instPeer p a = i ∧ Env.peerSlot p = 0 ∧ D.position p a c = D.position 0 (i - 1) j
  · obtain ⟨h1, h2, h3⟩ := hat
    obtain ⟨rfl, rfl⟩ := (peer_eq_iff hi0).1 ⟨h1, h2⟩
    -- the position of cell `j` is that of no other cell, so the bit chosen is 0
    have hcj : c = j := hD.position_inj (by omega) (piSlot_lt hi0 hi) hc hj h3
    have hb : b = false := by
      by_contra hb
      exact h ⟨rfl, rfl, hcj, by simpa using hb⟩
    subst hb
    have hfst := oneString_fst (e := e) (i := a + 1) (t := D.position 0 (a + 1 - 1) j) (v := v) (instPeer 0 a) (Env.peerSlot 0)
      (D.position 0 a c)
    unfold Env.peerStrings pick
    cases h1 : (e.strings (instPeer 0 a) (Env.peerSlot 0))[D.position 0 a c]? <;>
      cases h2 : (oneString e (a + 1) (D.position 0 (a + 1 - 1) j) v (instPeer 0 a) (Env.peerSlot 0))[D.position 0 a c]? <;>
      simp_all
  · rw [show ((e.withString i (D.position 0 (i - 1) j) v).peerStrings p a)[D.position p a c]? = (e.peerStrings p a)[D.position p a c]?
      from oneString_of_ne hat]

/-- There it is the new string. -/
theorem Outcome.Honest.pair_withString : ((D.withString i j v).pair 0 (i - 1) j).2 = v := by
  have hlt := (hD.position_eq (by omega) (piSlot_lt hi0 hi) hj).2.1
  have hpeer : instPeer 0 (i - 1) = i := by rw [instPeer, if_pos rfl]; omega
  have hstr : (e.withString i (D.position 0 (i - 1) j) v).peerStrings 0 (i - 1) =
      (e.strings i 0).modify (D.position 0 (i - 1) j) fun s => (s.1, v) := by
    change oneString e i _ v (instPeer 0 (i - 1)) 0 = _
    rw [hpeer, oneString, if_pos ⟨rfl, rfl⟩]
  have hpos : (D.withString i j v).position 0 (i - 1) j = D.position 0 (i - 1) j := rfl
  rw [Outcome.pair, hstr, hpos, List.getD_eq_getElem?_getD, List.getElem?_modify,
    List.getElem?_eq_getElem (by rw [e.strings_length]; exact hlt)]
  simp

/-- What an instance adds changes in P0's instance with player `i` and cell `j` only, where the new string
takes the place of the old one. -/
theorem Outcome.Honest.value_withString (hset : (D.merged 0).BF.getD j false = true) (hclear : (D.merged i).BF.getD j false = false)
    {p a c : ℕ} (hp : p < e.parties) (ha : a < slots e.parties p) (hc : c < e.Nbf) :
    value (((D.withString i j v).merged p).data _ p) (a, .receiver) c + value (((D.withString i j v).merged p).data _ p) (a, .sender) c =
      value ((D.merged p).data e p) (a, .receiver) c + value ((D.merged p).data e p) (a, .sender) c +
        if p = 0 ∧ c = j then if a = i - 1 then (D.pair 0 (i - 1) j).2 + v else 0 else 0 := by
  have hD' := hD.withString hi0 hi hj (v := v)
  have hsnd : value (((D.withString i j v).merged p).data _ p) (a, .sender) c = value ((D.merged p).data e p) (a, .sender) c := by
    rw [hD'.value_sender hp ha hc, hD.value_sender hp ha hc]
    apply hD.pick_pair hi0 hi hj hc
    -- at the other end it is player `i` that chooses, and its filter has a 0
    rintro ⟨h1, h2, rfl, hb⟩
    obtain rfl : p = i := by
      have hp0 : p ≠ 0 := by rintro rfl; simp [instPeer] at h1
      rw [Env.peerSlot, if_neg hp0] at h2
      omega
    exact absurd (hclear.symm.trans hb) (by decide)
  have hrcv : value (((D.withString i j v).merged p).data _ p) (a, .receiver) c = value ((D.merged p).data e p) (a, .receiver) c +
      if p = 0 ∧ c = j then if a = i - 1 then (D.pair 0 (i - 1) j).2 + v else 0 else 0 := by
    rw [hD'.value_receiver hp ha hc, hD.value_receiver hp ha hc]
    change pick ((D.merged p).BF.getD c false) _ = _
    by_cases hat : (p = 0 ∧ c = j) ∧ a = i - 1
    · obtain ⟨⟨rfl, rfl⟩, rfl⟩ := hat
      rw [if_pos ⟨rfl, rfl⟩, if_pos rfl, hset]
      change ((D.withString i c v).pair 0 (i - 1) c).2 = (D.pair 0 (i - 1) c).2 + _
      rw [hD.pair_withString hi0 hi hj, XorGroup.add_cancel_left]
    · rw [hD.pick_pair hi0 hi hj hc fun h => hat ⟨⟨h.1, h.2.2.1⟩, by omega⟩, ← ite_and, if_neg hat, add_zero]
  rw [hsnd, hrcv, add_right_comm]

/-- P0's GBF gets it in cell `j`, and those of the others stay. -/
theorem Outcome.Honest.shared_withString (hset : (D.merged 0).BF.getD j false = true) (hclear : (D.merged i).BF.getD j false = false)
    {p c : ℕ} (hp : p < e.parties) : ((D.withString i j v).merged p).shared c =
      (D.merged p).shared c + if p = 0 ∧ c = j then (D.pair 0 (i - 1) j).2 + v else 0 := by
  have hD' := hD.withString hi0 hi hj (v := v)
  have hGBF : ((D.withString i j v).merged p).GBF = (D.merged p).GBF := ((hD.merged p hp).GBF).symm
  by_cases hc : c < e.Nbf
  · rw [hD'.shared_eq hp hc, hD.shared_eq hp hc, hGBF, Outcome.added_eq, Outcome.added_eq,
      sum_congr rfl fun a ha => hD.value_withString hi0 hi hj hset hclear hp (mem_range.1 ha) hc, sum_add_distrib, ← add_assoc]
    apply congrArg _
    split
    · rename_i hat
      rw [sum_ite_eq', if_pos (by rw [hat.1]; exact mem_range.2 (piSlot_lt hi0 hi))]
    · exact sum_const_zero
  · have hcj : ¬ (p = 0 ∧ c = j) := fun h => hc (by omega)
    rw [(hD'.merged p hp).shared, (hD.merged p hp).shared]
    simp only [if_neg hc, if_neg hcj, hGBF, add_zero]

theorem Outcome.Honest.shared_withString_pi (hset : (D.merged 0).BF.getD j false = true)
    (hclear : (D.merged i).BF.getD j false = false) {p : ℕ} (hp0 : 0 < p) (hp : p < e.parties) :
    ((D.withString i j v).merged p).shared = (D.merged p).shared := by
  funext c
  rw [hD.shared_withString hi0 hi hj hset hclear hp, if_neg (by omega), add_zero]

/-- The Pi send the same filters. -/
theorem Outcome.Honest.sent_withString (hset : (D.merged 0).BF.getD j false = true) (hclear : (D.merged i).BF.getD j false = false)
    {p : ℕ} (hp0 : 0 < p) (hp : p < e.parties) :
    ((D.withString i j v).merged p).sent (e.withString i (D.position 0 (i - 1) j) v) p = (D.merged p).sent e p := by
  unfold Merged.sent
  rw [hD.shared_withString_pi hi0 hi hj hset hclear hp0 hp]
  rfl

/-- P0's final GBF. -/
theorem Outcome.Honest.total_withString (hset : (D.merged 0).BF.getD j false = true) (hclear : (D.merged i).BF.getD j false = false)
    {c : ℕ} (hc : c < e.Nbf) :
    (D.withString i j v).total c = D.total c + if c = j then (D.pair 0 (i - 1) j).2 + v else 0 := by
  have h0 : 0 < e.parties := by omega
  have hD' := hD.withString hi0 hi hj (v := v)
  have hpi : ∀ a ∈ range (e.parties - 1), ((D.withString i j v).merged (a + 1)).sent _ (a + 1) c = (D.merged (a + 1)).sent e (a + 1) c :=
    fun a ha => by
      have := mem_range.1 ha
      rw [hD.sent_withString hi0 hi hj hset hclear (Nat.succ_pos a) (by omega)]
  rw [hD'.total_eq hc, hD.total_eq hc, hD.shared_withString hi0 hi hj hset hclear h0, sum_congr rfl hpi, add_right_comm]
  simp only [true_and]

/-- The others have the same values. -/
theorem Outcome.Honest.merged_withString (hset : (D.merged 0).BF.getD j false = true) (hclear : (D.merged i).BF.getD j false = false)
    {p : ℕ} (hp0 : 0 < p) (hp : p < e.parties) : (D.withString i j v).merged p = D.merged p := by
  have hGBF : ((D.withString i j v).merged p).GBF = (D.merged p).GBF := ((hD.merged p hp).GBF).symm
  have hshared := hD.shared_withString_pi (v := v) hi0 hi hj hset hclear hp0 hp
  calc (D.withString i j v).merged p
      = { D.merged p with GBF := ((D.withString i j v).merged p).GBF, shared := ((D.withString i j v).merged p).shared } := rfl
    _ = D.merged p := by rw [hGBF, hshared]

/-- P0 prints an item of its own with cell `j` for one string. -/
theorem Outcome.Honest.mem_out_withString (hset : (D.merged 0).BF.getD j false = true)
    (hclear : (D.merged i).BF.getD j false = false) {x : ℤ} (hx : x ∈ e.items 0) (hjx : j ∈ (cells e x).elems) :
    x ∈ (D.withString i j v).out ↔ v = ∑ c ∈ (cells e x).elems.toFinset, D.total c + (D.pair 0 (i - 1) j).2 := by
  have h0 : 0 < e.parties := by omega
  have hlt : ∀ c ∈ (cells e x).elems.toFinset, c < e.Nbf := fun c hc => (hD.cell_set h0 hx (List.mem_toFinset.1 hc)).1
  have hcells : cells (e.withString i (D.position 0 (i - 1) j) v) x = cells e x := rfl
  rw [(hD.withString hi0 hi hj).mem_out h0, hcells,
    sum_congr rfl fun c hc => hD.total_withString hi0 hi hj hset hclear (hlt c hc), sum_add_distrib, sum_ite_eq',
    if_pos (List.mem_toFinset.2 hjx), ← add_assoc, XorGroup.add_eq_zero_iff_eq]
  exact ⟨fun h => h.2.symm, fun h => ⟨hx, h.symm⟩⟩

end Outcome

/-- An item of P0 and a Pi whose filter has a 0 in one of the item's cells: the string for a 1 at the position
P0's function names for this cell changes nothing that is sent, and P0 prints the item for exactly one value of it. -/
theorem printed_for_one_string {s : State κ e.Not} (h : HonestReaches e s) (hc : Complete s) (hi0 : 0 < i) (hi : i < e.parties)
    {m₀ mᵢ : Merged κ e.Not} {G₀ Gᵢ : ℕ → Block} {out₀ outᵢ : List ℤ} (h₀ : s.proc 0 = .done m₀ G₀ out₀)
    (hᵢ : s.proc i = .done mᵢ Gᵢ outᵢ) {x : ℤ} (hx : x ∈ e.items 0) {j : ℕ}
    (hj : j ∈ (hStar e.aes m₀.seed e.Nbf e.seeds_num x).elems) (hbit : mᵢ.BF[j]? = some false) :
    ∃ t : ℕ, (m₀.func_recv (i - 1))[j]? = some (t : ℤ) ∧
      (∀ v, (∃ s', HonestReaches (e.withString i t v) s' ∧ Complete s') ∧
        ∀ s', HonestReaches (e.withString i t v) s' → Complete s' →
          (∀ d : Chan, d.Valid e.parties → s'.sent (d.sock e.parties) = s.sent (d.sock e.parties)) ∧
            ∀ p, 0 < p → p < e.parties → s'.proc p = s.proc p) ∧
      ∃ v₀, ∀ v s' m G out, HonestReaches (e.withString i t v) s' → Complete s' → s'.proc 0 = .done m G out →
        (x ∈ out ↔ v = v₀) := by
  have hpos : 0 < e.parties := by omega
  obtain ⟨D, hD, hfin, hsent⟩ := exists_outcome h hc
  obtain ⟨rfl, -, -⟩ : D.merged 0 = m₀ ∧ D.total = G₀ ∧ D.out = out₀ := by
    have := ((hfin 0 hpos).trans (D.final_zero hpos)).symm.trans h₀
    cases this
    exact ⟨rfl, rfl, rfl⟩
  obtain rfl : D.merged i = mᵢ := by
    have := ((hfin i hi).trans (D.final_pi hi0 hi)).symm.trans hᵢ
    cases this
    rfl
  rw [hD.seed hpos] at hj
  obtain ⟨hlt, hset⟩ := hD.cell_set hpos hx hj
  have hclear : (D.merged i).BF.getD j false = false := by rw [List.getD_eq_getElem?_getD, hbit]; rfl
  have hD' := fun v => hD.withString hi0 hi hlt (v := v)
  refine ⟨D.position 0 (i - 1) j, (hD.position_eq hpos (piSlot_lt hi0 hi) hlt).1, fun v => ⟨?_, fun s' hs' hc' => ⟨fun d hd => ?_, fun p hp0 hp => ?_⟩⟩,
    ∑ c ∈ (cells e x).elems.toFinset, D.total c + (D.pair 0 (i - 1) j).2, fun v s' m G out hs' hc' hdone => ?_⟩
  · -- the outcome with the string exchanged is honest, so some run has it
    obtain ⟨s', _, hs', hc'⟩ := exists_complete (hD' v) .refl
    exact ⟨s', hs', hc'⟩
  · rw [(final_of_complete (hD' v) hs' hc').2 d hd, hsent d hd]
    exact Outcome.over_sent (fun p hp0 hp c _ => by rw [hD.sent_withString hi0 hi hlt hset hclear hp0 hp]) hd
  · have hp' := ((final_of_complete (hD' v) hs' hc').1 p hp).trans ((D.withString i j v).final_pi hp0 hp)
    rw [hD.sent_withString hi0 hi hlt hset hclear hp0 hp, hD.merged_withString hi0 hi hlt hset hclear hp0 hp] at hp'
    exact hp'.trans ((hfin p hp).trans (D.final_pi hp0 hp)).symm
  · have hout : out = (D.withString i j v).out := by
      have h0' := ((final_of_complete (hD' v) hs' hc').1 0 hpos).trans ((D.withString i j v).final_zero hpos)
      cases h0'.symm.trans hdone
      rfl
    rw [hout]
    exact hD.mem_out_withString hi0 hi hlt hset hclear hx hj

/-- P0 with an item, and one Pi without. -/
abbrev loneEnv : Env Block := uniform 2 (fun p => if p = 0 then [0] else []) fun _ _ => 0

/-- P0's item is printed for one string. -/
theorem printed_for_one_string_two : ∃ (t : ℕ) (v₀ : Block), ∀ v s' m G out, HonestReaches (loneEnv.withString 1 t v) s' →
    Complete s' → s'.proc 0 = .done m G out → ((0 : ℤ) ∈ out ↔ v = v₀) := by
  obtain ⟨s, hs, hc⟩ := uniform_complete 2 (fun p => if p = 0 then [0] else []) fun _ _ => 0
  have hfin := (final_of_complete (uniform_honest 2 _ _) hs hc).1
  have h₀ := (hfin 0 Nat.two_pos).trans (Outcome.final_zero _ Nat.two_pos)
  have h₁ := (hfin 1 Nat.one_lt_two).trans (Outcome.final_pi _ Nat.one_pos Nat.one_lt_two)
  obtain ⟨t, -, -, v₀, hv⟩ := printed_for_one_string (e := loneEnv) hs hc Nat.one_pos Nat.one_lt_two h₀ h₁ (x := 0)
    (List.mem_singleton_self 0) (j := 0) (List.mem_singleton_self 0) rfl
  exact ⟨t, v₀, hv⟩

end OneString

end Mpsi
