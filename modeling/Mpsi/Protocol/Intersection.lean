/-
What P0 prints. An item is printed when the exclusive or of P0's final GBF over its cells is zero
(`Outcome.Honest.mem_out`). For an item all parties have, the shares, the strings of the OTs and the
filters of the Pi all cancel (`intersection_complete`).
-/
import Mpsi.Protocol.SetUp

namespace Mpsi

open Thread Stream Finset

variable {κ : Type} [DecidableEq κ] {e : Env κ} {D : Outcome e}

/-! ## Printing -/

omit [DecidableEq κ] in
theorem Outcome.final_zero (D : Outcome e) (h0 : 0 < e.parties) : D.final 0 = .done (D.merged 0) D.total D.out := by
  rw [Outcome.final, if_pos h0, if_pos rfl]

omit [DecidableEq κ] in
theorem Outcome.final_pi (D : Outcome e) {p : ℕ} (hp0 : 0 < p) (hp : p < e.parties) :
    D.final p = .done (D.merged p) ((D.merged p).sent e p) [] := by
  rw [Outcome.final, if_pos hp, if_neg (by omega)]

theorem checkTheItem_eq (h_kokhav : OrdSet ℕ) (GBF : ℕ → Block) :
    checkTheItem h_kokhav GBF = ∑ c ∈ h_kokhav.elems.toFinset, GBF c := by
  unfold checkTheItem
  rw [foldl_add, toBlock_zero, zero_add, OrdSet.sum_elems]

theorem mem_getIntersection {items : List ℤ} {h_kokhav : ℕ → OrdSet ℕ} {GBF : ℕ → Block} {x : ℤ} :
    x ∈ getIntersection items h_kokhav GBF ↔ ∃ k, items[k]? = some x ∧ checkTheItem (h_kokhav k) GBF = 0 := by
  unfold getIntersection
  simp only [toBlock_zero, List.mem_map, List.mem_filter, Prod.exists]
  constructor
  · rintro ⟨y, k, ⟨hm, hz⟩, rfl⟩
    exact ⟨k, List.mk_mem_zipIdx_iff_getElem?.1 hm, of_decide_eq_true hz⟩
  · rintro ⟨k, hk, hz⟩
    exact ⟨x, k, ⟨List.mk_mem_zipIdx_iff_getElem?.2 hk, decide_eq_true hz⟩, rfl⟩

/-- The seed all parties have agreed on. -/
theorem Outcome.Honest.seed (hD : D.Honest) {p : ℕ} (hp : p < e.parties) :
    (D.merged p).seed = ∑ q ∈ range e.parties, e.seed q :=
  ((hD.merged p hp).toAgreedOk.seed_sum hp fun q hq hne => hD.recv p q hp hq hne).1

/-- The cells of an item under that seed. -/
def cells (e : Env κ) (item : ℤ) : OrdSet ℕ := hStar e.aes (∑ q ∈ range e.parties, e.seed q) e.Nbf e.seeds_num item

theorem Outcome.Honest.h_kokhav (hD : D.Honest) {p k : ℕ} (hp : p < e.parties) {item : ℤ} (hk : (e.items p)[k]? = some item) :
    (D.merged p).h_kokhav k = cells e item := by
  rw [(hD.merged p hp).h_kokhav, hD.seed hp, bloomSets, hk]
  rfl

/-- The cells of an item of a party are below `Nbf`, and set in its filter. -/
theorem Outcome.Honest.cell_set (hD : D.Honest) {p c : ℕ} (hp : p < e.parties) {item : ℤ} (hi : item ∈ e.items p)
    (hc : c ∈ (cells e item).elems) : c < e.Nbf ∧ (D.merged p).BF.getD c false = true := by
  have hm := mem_hStar.1 hc
  rw [← hD.seed hp] at hm
  have hN := (hD.merged p hp).Nbf item hi (List.ne_nil_of_mem hm)
  have hlt := hashes_lt (Nat.pos_of_ne_zero hN) hm
  refine ⟨hlt, ?_⟩
  rw [(hD.merged p hp).BF]
  simp [hlt, bloomBits]
  exact ⟨item, hi, hm⟩

/-- P0 prints those of its items whose cells add up to zero. -/
theorem Outcome.Honest.mem_out (hD : D.Honest) (h0 : 0 < e.parties) {x : ℤ} :
    x ∈ D.out ↔ x ∈ e.items 0 ∧ ∑ c ∈ (cells e x).elems.toFinset, D.total c = 0 := by
  rw [Outcome.out, mem_getIntersection]
  constructor
  · rintro ⟨k, hk, hz⟩
    rw [checkTheItem_eq, hD.h_kokhav h0 hk] at hz
    exact ⟨List.mem_of_getElem? hk, hz⟩
  · rintro ⟨hx, hz⟩
    obtain ⟨k, hk⟩ := List.mem_iff_getElem?.1 hx
    exact ⟨k, hk, by rw [checkTheItem_eq, hD.h_kokhav h0 hk]; exact hz⟩

/-- P0's final GBF: its own with those of the Pi. -/
theorem Outcome.Honest.total_eq (hD : D.Honest) {c : ℕ} (hc : c < e.Nbf) :
    D.total c = (D.merged 0).shared c + ∑ a ∈ range (e.parties - 1), (D.merged (a + 1)).sent e (a + 1) c := by
  rw [Outcome.total, Merged.total]
  refine congrArg _ (sum_congr rfl fun a ha => ?_)
  rw [hD.lists a (mem_range.1 ha)]
  simp [hc]

/-! ## The strings of all instances -/

/-- What the strings of party `p` add to a cell. -/
def Outcome.added (D : Outcome e) (p c : ℕ) : Block :=
  ∑ src ∈ producers (slots e.parties p), value ((D.merged p).data e p) src c

omit [DecidableEq κ] in
theorem Outcome.added_eq (D : Outcome e) (p c : ℕ) : D.added p c = ∑ a ∈ range (slots e.parties p),
    (value ((D.merged p).data e p) (a, .receiver) c + value ((D.merged p).data e p) (a, .sender) c) := by
  unfold Outcome.added
  rw [producers, sum_product]
  apply sum_congr rfl
  intro a _
  exact sum_pair (by decide)

theorem Outcome.Honest.shared_eq (hD : D.Honest) {p c : ℕ} (hp : p < e.parties) (hc : c < e.Nbf) :
    (D.merged p).shared c = (D.merged p).GBF c + D.added p c := by
  rw [(hD.merged p hp).shared]
  exact if_pos hc

/-- The two ends of an OT add the same string when their filters have the same bit. -/
theorem Outcome.Honest.value_peer (hD : D.Honest) {p a c : ℕ} (hp : p < e.parties) (ha : a < slots e.parties p) (hc : c < e.Nbf)
    (hb : (D.merged p).BF.getD c false = (D.merged (instPeer p a)).BF.getD c false) :
    value ((D.merged (instPeer p a)).data e (instPeer p a)) (Env.peerSlot p, .sender) c =
      value ((D.merged p).data e p) (a, .receiver) c := by
  obtain ⟨t, _, h1, h2⟩ := hD.cell hp ha hc
  rw [value_of_ok h1, value_of_ok h2, hb]

/-- Every string is added twice to a cell that all filters have set. -/
theorem Outcome.Honest.sum_added (hD : D.Honest) (h0 : 0 < e.parties) {c : ℕ} (hc : c < e.Nbf)
    (hb : ∀ p, p < e.parties → (D.merged p).BF.getD c false = true) : ∑ p ∈ range e.parties, D.added p c = 0 := by
  obtain ⟨n, hn⟩ : ∃ n, e.parties = n + 1 := ⟨e.parties - 1, by omega⟩
  have hslots : slots e.parties 0 = n := by rw [slots, if_pos rfl]; omega
  have hone : ∀ a, slots e.parties (a + 1) = 1 := fun a => if_neg (Nat.succ_ne_zero a)
  rw [hn, sum_range_succ', D.added_eq 0, hslots, ← sum_add_distrib]
  apply sum_eq_zero
  intro a ha
  have ha' : a < n := mem_range.1 ha
  have hpeer : instPeer 0 a = a + 1 := by simp [instPeer]
  -- P0's instance as a receiver and the Pi's as a sender, and the other way round
  have h1 := hD.value_peer h0 (a := a) (by rw [hslots]; exact ha') hc
    (by rw [hb 0 h0, hb (instPeer 0 a) (by rw [hpeer]; omega)])
  have h2 := hD.value_peer (p := a + 1) (a := 0) (by omega) (by rw [hone]; exact Nat.one_pos) hc
    (by rw [hb (a + 1) (by omega), hb _ (by simpa [instPeer] using h0)])
  simp only [instPeer, Env.peerSlot, Nat.succ_ne_zero, if_true, if_false, Nat.add_sub_cancel] at h1 h2
  rw [D.added_eq, hone, sum_range_one, h1, h2, add_comm (value ((D.merged 0).data e 0) (a, .receiver) c)]
  exact Block.add_self_zero _

/-! ## Completeness -/

/-- What `re_randomization` of a Pi needs to keep its items: each of them has a cell that none of the
earlier ones has, and no zero block is drawn or stored. -/
structure KeepsItems (e : Env κ) (p : ℕ) (m : Merged κ e.Not) : Prop where
  fresh : ∀ k, k < (e.items p).length → ∃ c ∈ (m.h_kokhav k).elems, ∀ l, l < k → c ∉ (m.h_kokhav l).elems
  nonZero : (reRandomization (e.draws p) m.h_kokhav (e.items p).length e.Nbf m.shared).NonZero (e.draws p)

/-- The filter such a Pi sends has the exclusive or of its own GBF over the cells of its items. -/
theorem Outcome.Honest.sent_sum (hD : D.Honest) {p : ℕ} (hp : p < e.parties) (hk : KeepsItems e p (D.merged p)) {x : ℤ}
    (hx : x ∈ e.items p) : ∑ c ∈ (cells e x).elems.toFinset, (D.merged p).sent e p c =
      ∑ c ∈ (cells e x).elems.toFinset, (D.merged p).shared c := by
  obtain ⟨k, hkx⟩ := List.mem_iff_getElem?.1 hx
  have hlt := (List.getElem?_eq_some_iff.1 hkx).1
  have hsum := reRandomization_sum hk.fresh hk.nonZero hlt
  rwa [hD.h_kokhav hp hkx, OrdSet.sum_elems, OrdSet.sum_elems] at hsum

/-- The exclusive or over the cells of an item all parties have is zero. -/
theorem Outcome.Honest.sum_total (hD : D.Honest) (hn : 3 ≤ e.parties)
    (hk : ∀ p, 0 < p → p < e.parties → KeepsItems e p (D.merged p)) {x : ℤ} (hx : ∀ p, p < e.parties → x ∈ e.items p) :
    ∑ c ∈ (cells e x).elems.toFinset, D.total c = 0 := by
  have h0 : 0 < e.parties := by omega
  have hset : ∀ c ∈ (cells e x).elems.toFinset, ∀ p, p < e.parties → c < e.Nbf ∧ (D.merged p).BF.getD c false = true :=
    fun c hc p hp => hD.cell_set hp (hx p hp) (List.mem_toFinset.1 hc)
  obtain ⟨n, hnp⟩ : ∃ n, e.parties = n + 1 := ⟨e.parties - 1, by omega⟩
  calc ∑ c ∈ (cells e x).elems.toFinset, D.total c
      = ∑ c ∈ (cells e x).elems.toFinset, ((D.merged 0).shared c + ∑ a ∈ range (e.parties - 1), (D.merged (a + 1)).sent e (a + 1) c) :=
        sum_congr rfl fun c hc => hD.total_eq (hset c hc 0 h0).1
    _ = ∑ c ∈ (cells e x).elems.toFinset, (D.merged 0).shared c +
          ∑ a ∈ range (e.parties - 1), ∑ c ∈ (cells e x).elems.toFinset, (D.merged (a + 1)).sent e (a + 1) c := by
        rw [sum_add_distrib, sum_comm]
    _ = ∑ c ∈ (cells e x).elems.toFinset, (D.merged 0).shared c +
          ∑ a ∈ range (e.parties - 1), ∑ c ∈ (cells e x).elems.toFinset, (D.merged (a + 1)).shared c := by
        refine congrArg _ (sum_congr rfl fun a ha => ?_)
        have ha' : a + 1 < e.parties := by have := mem_range.1 ha; omega
        exact hD.sent_sum ha' (hk _ (Nat.succ_pos a) ha') (hx _ ha')
    _ = ∑ c ∈ (cells e x).elems.toFinset, ∑ p ∈ range e.parties, (D.merged p).shared c := by
        rw [sum_comm, hnp, Nat.add_sub_cancel, ← sum_add_distrib]
        apply sum_congr rfl
        intro c _
        rw [sum_range_succ', add_comm]
    _ = ∑ c ∈ (cells e x).elems.toFinset, (∑ p ∈ range e.parties, (D.merged p).GBF c + ∑ p ∈ range e.parties, D.added p c) := by
        apply sum_congr rfl
        intro c hc
        rw [← sum_add_distrib]
        exact sum_congr rfl fun p hp => hD.shared_eq (mem_range.1 hp) (hset c hc 0 h0).1
    _ = 0 := by
        apply sum_eq_zero
        intro c hc
        have hc' := (hset c hc 0 h0).1
        rw [hD.sum_added h0 hc' fun p hp => (hset c hc p hp).2, add_zero]
        -- the shares of zero
        rw [sum_congr rfl fun p hp => by rw [(hD.merged p (mem_range.1 hp)).GBF, if_pos (by omega : 2 < e.parties)]]
        exact shares_sum_zero (fun p q hp hq hne => hD.keys_recv q p hq hp hne) hc'

/-- In every run of three parties or more that comes to its end, where each Pi's `re_randomization` keeps
its items: P0 prints every item that all parties have. Which runs come to their end is the subject of
`Mpsi.Protocol.Schedule` and `Mpsi.Protocol.Completes`. -/
theorem intersection_complete (hn : 3 ≤ e.parties) {s : State κ e.Not} (h : HonestReaches e s) (hc : Complete s)
    (hk : ∀ p m G out, 0 < p → p < e.parties → s.proc p = .done m G out → KeepsItems e p m) :
    ∃ m G out, s.proc 0 = .done m G out ∧ ∀ x ∈ e.items 0, (∀ p, 0 < p → p < e.parties → x ∈ e.items p) →
      x ∈ out ∧ ∀ k, (e.items 0)[k]? = some x → checkTheItem (m.h_kokhav k) G = 0 := by
  obtain ⟨D, hD, hfin, _⟩ := exists_outcome h hc
  have h0 : 0 < e.parties := by omega
  have hkeep : ∀ p, 0 < p → p < e.parties → KeepsItems e p (D.merged p) := by
    intro p hp0 hp
    exact hk p _ _ _ hp0 hp ((hfin p hp).trans (D.final_pi hp0 hp))
  refine ⟨D.merged 0, D.total, D.out, (hfin 0 h0).trans (D.final_zero h0), fun x hx hall => ?_⟩
  have hz := hD.sum_total hn hkeep (x := x) fun p hp => by
    rcases Nat.eq_zero_or_pos p with rfl | hp0
    · exact hx
    · exact hall p hp0 hp
  refine ⟨(hD.mem_out h0).2 ⟨hx, hz⟩, fun k hkx => ?_⟩
  rw [checkTheItem_eq, hD.h_kokhav h0 hkx]
  exact hz

/-- Three parties with the same item. -/
abbrev threeEnv : Env Block := uniform 3 (fun _ => [0]) fun _ _ => 0

abbrev threeOutcome : Outcome threeEnv := (uniformInstances 3 (fun _ => [0]) fun _ _ => 0).outcome

theorem three_shared {p : ℕ} (hp : p = 1 ∨ p = 2) : (threeOutcome.merged p).shared 0 = toBlock 0 1 := by
  have hr : value ((threeOutcome.merged p).data threeEnv p) (0, .receiver) 0 = toBlock 0 1 := by
    apply value_of_ok
    rcases hp with rfl | rfl <;> rfl
  have hs : value ((threeOutcome.merged p).data threeEnv p) (0, .sender) 0 = 0 := by
    apply value_of_ok
    rcases hp with rfl | rfl <;> rfl
  have hslots : slots 3 p = 1 := if_neg (by omega)
  have hGBF : (threeOutcome.merged p).GBF 0 = 0 := by
    have hshare : secretSharingAes (fun _ _ => 0) 3 1 (fun _ => 0) (threeOutcome.merged p).keys_recv (fun _ => 0) 0 = _ :=
      secretSharingAes_eq Nat.one_pos
    exact hshare.trans (Finset.sum_eq_zero fun _ _ => add_zero 0)
  have hD := uniform_honest 3 (fun _ => [0]) fun _ _ => 0
  rw [hD.shared_eq (show p < 3 by omega) Nat.one_pos, Outcome.added_eq, hGBF]
  change 0 + ∑ a ∈ range (slots 3 p), _ = _
  rw [hslots, sum_range_one, hr, hs, add_zero, zero_add]

theorem three_keeps {p : ℕ} (hp : p = 1 ∨ p = 2) : KeepsItems threeEnv p (threeOutcome.merged p) := by
  have hcells : ((threeOutcome.merged p).h_kokhav 0).elems = [0] := rfl
  refine ⟨fun k hk => ?_, ⟨fun k _ => ?_, fun b hb => ?_⟩⟩
  · obtain rfl : k = 0 := Nat.lt_one_iff.1 hk
    exact ⟨0, by rw [hcells]; exact List.mem_singleton_self 0, fun l hl => absurd hl (Nat.not_lt_zero l)⟩
  · change toBlock 0 1 ≠ 0
    decide
  · -- the one item stores the exclusive or of its cells
    unfold reRandomization at hb
    rw [(fillEmpty_grows _ _ _).2] at hb
    change b ∈ (fillItem _ ⟨fun _ => toBlock 0 0, 0, []⟩ ((threeOutcome.merged p).h_kokhav 0).elems (getY _ _ 0)).stored at hb
    rw [getY_eq, hcells] at hb
    have hb' : b = (threeOutcome.merged p).shared 0 := by simpa [fillItem, fillCells, fillCell] using hb
    rw [hb', three_shared hp]
    decide

/-- They find it. -/
theorem intersection_complete_three : ∃ s : State Block 5, HonestReaches threeEnv s ∧ ∃ m G out, s.proc 0 = .done m G out ∧ (0 : ℤ) ∈ out := by
  obtain ⟨s, hs, hc⟩ := uniform_complete 3 (fun _ => [0]) fun _ _ => 0
  have hfin := (final_of_complete (uniform_honest 3 _ _) hs hc).1
  obtain ⟨m, G, out, hdone, hall⟩ := intersection_complete (e := threeEnv) le_rfl hs hc fun p m G out hp0 hp hdone => by
    have hp' : p < 3 := hp
    have heq := (hfin p hp).symm.trans hdone
    rw [Outcome.final_pi _ hp0 hp] at heq
    cases heq
    exact three_keeps (by omega)
  exact ⟨s, hs, m, G, out, hdone, (hall 0 (List.mem_singleton_self 0) fun _ _ _ => List.mem_singleton_self 0).1⟩
end Mpsi
