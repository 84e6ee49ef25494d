/-
What decides about an item that all parties of `H` have, when the others form a coalition. In the sum over the
cells of the item everything that is between two parties of `H` cancels: the keys of the shares, the strings of the
OTs, and what each Pi of `H` has added by its filter. What is left was sent by the coalition, or belongs to P0's
instances with it and to the keys between `H` and it, so P0 prints the item exactly when these add up to zero
(`coalition_decides`).
-/
import Mpsi.Protocol.Coalition
import Mpsi.Protocol.Forging

namespace Mpsi

open Thread Stream Finset

variable {κ : Type} [DecidableEq κ] {e : Env κ} {H : Finset ℕ} {s : State κ e.Not} {D : Outcome e}

/-! ## The ends of the parties -/

/-- The values of each party of `H` belong together, and of the others of `H` it has read a part of what they have written. -/
structure Outcome.Among (D : Outcome e) (H : Finset ℕ) : Prop where
  merged : ∀ i ∈ H, MergedOk e i (D.merged i)
  lists : 0 ∈ H → ∀ a, a < e.parties - 1 → (D.lists a).length = e.Nbf
  stream : ∀ d : Chan, d.Valid e.parties → d.src ∈ H → d.dst ∈ H → D.read d <+: D.sent d

/-- At the end of `H` there is an outcome with the values of its parties. -/
theorem exists_among (h : CoalitionReaches e H s) (hH : H ⊆ range e.parties) (hne : H.Nonempty)
    (hc : ∀ i ∈ H, ∃ m G out, s.proc i = .done m G out) : ∃ D : Outcome e, D.Among H ∧
      ∀ i ∈ H, s.proc i = D.final i ∧ ∀ d : Chan, d.Valid e.parties → d.dst = i → s.taken (d.sock e.parties) = D.read d := by
  obtain ⟨j, hj⟩ := hne
  have : Nonempty (Merged κ e.Not) := ⟨(hc j hj).choose⟩
  choose! m G out hdone using hc
  have hend := fun i (hi : i ∈ H) => exists_final (party_of_coalition h hi) (hdone i hi)
  -- the arrays P0 has read, if it is in `H`
  have hlists := fun h0 : 0 ∈ H => (hend 0 h0).2.2.2
  choose! l hl using hlists
  let D : Outcome e := ⟨m, l⟩
  have hG : ∀ i ∈ H, (G i, out i) = if i = 0 then (D.total, D.out) else ((D.merged i).sent e i, []) := by
    intro i hi
    by_cases hi0 : i = 0
    · subst hi0
      have hG0 := (hl hi).2.1
      rw [if_pos rfl] at hG0 ⊢
      exact hG0
    · obtain ⟨_, _, hGi, _⟩ := (hend i hi).2.2.2
      rw [if_neg hi0] at hGi ⊢
      exact hGi
  have hread : ∀ i ∈ H, ∀ d : Chan, d.Valid e.parties → d.dst = i → s.taken (d.sock e.parties) = D.read d := by
    intro i hi d hd hdst
    have halone : (s.alone (writer e.parties) (reader e.parties) i).read (d.sock e.parties) = s.taken (d.sock e.parties) :=
      Net.alone_read ((reader_sock hd).trans hdst)
    rw [D.read_eq hdst, ← halone]
    by_cases hi0 : i = 0
    · subst hi0
      exact ((rest_iff (mem_range.1 (hH hi))).1 (hl hi).2.2).2 d hd hdst
    · obtain ⟨l', _, _, hr⟩ := (hend i hi).2.2.2
      rw [((rest_iff (mem_range.1 (hH hi))).1 hr).2 d hd hdst, finalRead, finalRead, if_neg hi0, if_neg hi0]
  have hsent : ∀ d : Chan, d.Valid e.parties → d.src ∈ H → s.sent (d.sock e.parties) = D.sent d := by
    intro d hd hsrc
    obtain ⟨_, _, _, hr⟩ := (hend d.src hsrc).2.2.2
    rw [Outcome.sent_eq (hG d.src hsrc) rfl, ← Net.alone_wrote (writer_sock hd)]
    exact ((rest_iff hd.src).1 hr).1 d hd rfl
  refine ⟨D, ⟨fun i hi => (hend i hi).2.1, fun h0 => (hl h0).1, fun d hd hsrc hdst => ?_⟩, fun i hi => ⟨?_, hread i hi⟩⟩
  · rw [← hread d.dst hdst d hd rfl, ← hsent d hd hsrc]
    exact s.taken_initial _
  · rw [hdone i hi, Outcome.final_eq (hG i hi) (mem_range.1 (hH hi))]

namespace Outcome.Among

variable (A : D.Among H) (hH : H ⊆ range e.parties)

include A hH

/-- The key of another party of `H`. -/
theorem key {p q : ℕ} (hp : p ∈ H) (hq : q ∈ H) (hne : q ≠ p) : (D.merged p).keys_recv (place p q) = e.keys q (place q p) :=
  (agree_values (agree_eq_of_initial
    (A.stream ⟨q, p, true⟩ (setUp_valid (mem_range.1 (hH hp)) (mem_range.1 (hH hq)) hne).2 hq hp))).1

section Instance

variable {i a c : ℕ} (hi : i ∈ H) (ha : a < slots e.parties i) (hpeer : instPeer i a ∈ H)

include hi ha hpeer

/-- The two ends of an OT inside `H` add the same string to a cell when their filters have the same bit. -/
theorem value_peer (hc : c < e.Nbf) (hb : (D.merged i).BF.getD c false = (D.merged (instPeer i a)).BF.getD c false) :
    value ((D.merged (instPeer i a)).data e (instPeer i a)) (Env.peerSlot i, .sender) c =
      value ((D.merged i).data e i) (a, .receiver) c := by
  have hin := mem_range.1 (hH hi)
  have hfunc := (answer_of_initial hin ha (A.merged i hi) (A.merged _ hpeer) (A.stream _ (receiverChan_valid hin ha) hi hpeer)).2
  obtain ⟨t, _, h1, h2⟩ := cell_of_func (A.merged i hi) (A.merged _ hpeer) hfunc ha hc
  rw [value_of_ok h1, value_of_ok h2, hb]

end Instance

/-- P0 has the array of a Pi of `H`. -/
theorem lists_eq (h0 : 0 ∈ H) {q : ℕ} (hq : q ∈ H) (hne : q ≠ 0) :
    D.lists (place 0 q) = (List.range e.Nbf).map ((D.merged q).sent e q) := by
  obtain ⟨a, rfl⟩ : ∃ a, q = a + 1 := ⟨q - 1, by omega⟩
  have hn := mem_range.1 (hH h0)
  have ha : a < slots e.parties 0 := by
    have := mem_range.1 (hH hq)
    rw [slots, if_pos rfl]
    omega
  have hd := receiverBack_valid hn ha
  have hsrc : (receiverBack 0 a).src ∈ H := hq
  rw [place_zero]
  exact (offer_of_initial hn ha (fun _ => A.lists h0 a (by rwa [slots, if_pos rfl] at ha)) (A.stream _ hd hsrc h0)).2.2 rfl

end Outcome.Among

/-! ## The sum over the cells of an item -/

/-- What the coalition brings into a cell: the AES outputs under the keys between `H` and it, what P0 adds to the cell in
its instances with it, and the cells of the arrays it has sent. -/
def Outcome.fromCoalition (D : Outcome e) (H : Finset ℕ) (c : ℕ) : Block :=
  ∑ p ∈ H, ∑ r ∈ coalition e H, (e.aes (e.keys p (place p r)) (toBlock 0 c) + e.aes ((D.merged p).keys_recv (place p r)) (toBlock 0 c)) +
    ∑ r ∈ coalition e H, (value ((D.merged 0).data e 0) (place 0 r, .receiver) c + value ((D.merged 0).data e 0) (place 0 r, .sender) c +
      (D.lists (place 0 r)).getD c 0)

namespace Outcome.Among

variable (A : D.Among H) (hH : H ⊆ range e.parties)

include A hH

omit A [DecidableEq κ] in
/-- A sum over P0's slots, with those of `H` first. -/
theorem sum_slots (h0 : 0 ∈ H) (f : ℕ → Block) :
    ∑ a ∈ range (e.parties - 1), f a = ∑ q ∈ H.erase 0, f (place 0 q) + ∑ r ∈ coalition e H, f (place 0 r) := by
  rw [sum_places (mem_range.1 (hH h0)) f (fun q => f (place 0 q)) fun _ _ _ => rfl, sum_others hH h0]

/-- Of the strings added to a cell that all filters of `H` have set those of P0's instances with the coalition are left. -/
theorem sum_added (h0 : 0 ∈ H) {c : ℕ} (hc : c < e.Nbf) (hb : ∀ p ∈ H, (D.merged p).BF.getD c false = true) :
    ∑ p ∈ H, D.added p c = ∑ r ∈ coalition e H,
      (value ((D.merged 0).data e 0) (place 0 r, .receiver) c + value ((D.merged 0).data e 0) (place 0 r, .sender) c) := by
  have hslots : slots e.parties 0 = e.parties - 1 := if_pos rfl
  -- a Pi of `H` adds what P0 adds in the instance with it
  have hpi : ∀ q ∈ H.erase 0, D.added q c =
      value ((D.merged 0).data e 0) (place 0 q, .receiver) c + value ((D.merged 0).data e 0) (place 0 q, .sender) c := by
    intro q hq
    obtain ⟨hne, hqH⟩ := mem_erase.1 hq
    obtain ⟨a, rfl⟩ : ∃ a, q = a + 1 := ⟨q - 1, by omega⟩
    have ha : a < slots e.parties 0 := by
      have := mem_range.1 (hH hqH)
      omega
    have hone : slots e.parties (a + 1) = 1 := if_neg (Nat.succ_ne_zero a)
    have h1 := A.value_peer hH (i := 0) (a := a) h0 ha hqH hc (by rw [hb 0 h0]; exact (hb (a + 1) hqH).symm)
    have h2 := A.value_peer hH (i := a + 1) (a := 0) hqH (by rw [hone]; exact Nat.one_pos) h0 hc
      (by rw [hb (a + 1) hqH]; exact (hb 0 h0).symm)
    rw [D.added_eq, hone, sum_range_one, place_zero, add_comm]
    exact congrArg₂ (· + ·) h1 h2.symm
  rw [← add_sum_erase H _ h0, D.added_eq, hslots, sum_slots hH h0 fun a =>
    value ((D.merged 0).data e 0) (a, .receiver) c + value ((D.merged 0).data e 0) (a, .sender) c, sum_congr rfl hpi, add_right_comm,
    ZModModule.add_self, zero_add]

section Item

variable {x : ℤ} (hseed : ∀ p ∈ H, (D.merged p).seed = (D.merged 0).seed)

include hseed

omit hH in
theorem cell_set {p c : ℕ} (hp : p ∈ H) (hx : x ∈ e.items p) (hc : c ∈ itemCells e (D.merged 0) x) :
    c < e.Nbf ∧ (D.merged p).BF.getD c false = true := by
  have hc' : c ∈ itemCells e (D.merged p) x := by
    unfold itemCells
    rw [hseed p hp]
    exact hc
  obtain ⟨hlt, hbit⟩ := (A.merged p hp).itemCells_set hx hc'
  refine ⟨hlt, ?_⟩
  rw [List.getD_eq_getElem?_getD, hbit]
  rfl

omit hH in
/-- A Pi that keeps its items sends a filter with the exclusive or of its own GBF over the cells of the item. -/
theorem sent_sum {p : ℕ} (hp : p ∈ H) (hk : KeepsItems e p (D.merged p)) (hx : x ∈ e.items p) :
    ∑ c ∈ itemCells e (D.merged 0) x, (D.merged p).sent e p c = ∑ c ∈ itemCells e (D.merged 0) x, (D.merged p).shared c := by
  obtain ⟨k, hkx⟩ := List.mem_iff_getElem?.1 hx
  have hlt := (List.getElem?_eq_some_iff.1 hkx).1
  have hcells : ((D.merged p).h_kokhav k).elems.toFinset = itemCells e (D.merged 0) x := by
    rw [(A.merged p hp).h_kokhav, bloomSets, hkx, hseed p hp]
    rfl
  have hsum := reRandomization_sum hk.fresh hk.nonZero hlt
  rw [OrdSet.sum_elems, OrdSet.sum_elems, hcells] at hsum
  exact hsum

/-- In the sum over the cells of an item of all of `H` only what the coalition brings in is left. -/
theorem sum_total (hn : 2 < e.parties) (h0 : 0 ∈ H) (hk : ∀ p ∈ H, p ≠ 0 → KeepsItems e p (D.merged p)) (hx : ∀ p ∈ H, x ∈ e.items p) :
    ∑ c ∈ itemCells e (D.merged 0) x, D.total c = ∑ c ∈ itemCells e (D.merged 0) x, D.fromCoalition H c := by
  have hset : ∀ c ∈ itemCells e (D.merged 0) x, ∀ p ∈ H, c < e.Nbf ∧ (D.merged p).BF.getD c false = true :=
    fun c hc p hp => A.cell_set hseed hp (hx p hp) hc
  have hlists : ∀ c ∈ itemCells e (D.merged 0) x, ∀ q ∈ H.erase 0, (D.lists (place 0 q)).getD c 0 = (D.merged q).sent e q c := by
    intro c hc q hq
    rw [A.lists_eq hH h0 (mem_of_mem_erase hq) (ne_of_mem_erase hq)]
    simp [(hset c hc 0 h0).1]
  have hshared : ∀ c ∈ itemCells e (D.merged 0) x, ∀ p ∈ H, (D.merged p).shared c = (D.merged p).GBF c + D.added p c := by
    intro c hc p hp
    rw [(A.merged p hp).shared]
    exact if_pos (hset c hc p hp).1
  calc ∑ c ∈ itemCells e (D.merged 0) x, D.total c
      = ∑ c ∈ itemCells e (D.merged 0) x, ((D.merged 0).shared c +
          (∑ q ∈ H.erase 0, (D.merged q).sent e q c + ∑ r ∈ coalition e H, (D.lists (place 0 r)).getD c 0)) := by
        apply sum_congr rfl
        intro c hc
        rw [Outcome.total, Merged.total, sum_slots hH h0 fun a => (D.lists a).getD c 0, sum_congr rfl (hlists c hc)]
    _ = ∑ c ∈ itemCells e (D.merged 0) x, (D.merged 0).shared c +
          (∑ q ∈ H.erase 0, ∑ c ∈ itemCells e (D.merged 0) x, (D.merged q).shared c +
            ∑ c ∈ itemCells e (D.merged 0) x, ∑ r ∈ coalition e H, (D.lists (place 0 r)).getD c 0) := by
        rw [sum_add_distrib, sum_add_distrib, sum_comm]
        congr 2
        exact sum_congr rfl fun q hq => A.sent_sum hseed (mem_of_mem_erase hq) (hk q (mem_of_mem_erase hq) (ne_of_mem_erase hq))
          (hx q (mem_of_mem_erase hq))
    _ = ∑ c ∈ itemCells e (D.merged 0) x, (∑ p ∈ H, (D.merged p).shared c + ∑ r ∈ coalition e H, (D.lists (place 0 r)).getD c 0) := by
        rw [← add_assoc, add_sum_erase H (fun p => ∑ c ∈ itemCells e (D.merged 0) x, (D.merged p).shared c) h0, sum_comm, ← sum_add_distrib]
    _ = ∑ c ∈ itemCells e (D.merged 0) x, D.fromCoalition H c := by
        apply sum_congr rfl
        intro c hc
        have hlt := (hset c hc 0 h0).1
        -- the shares and the strings between parties of `H` cancel
        rw [sum_congr rfl (hshared c hc), sum_add_distrib, A.sum_added hH h0 hlt fun p hp => (hset c hc p hp).2,
          sum_congr rfl fun p hp => by rw [(A.merged p hp).GBF, if_pos hn],
          sum_shares hH (fun p hp q hq hne => A.key hH hp hq hne) hlt, add_assoc, ← sum_add_distrib]
        rfl

end Item

end Outcome.Among

/-- The parties of `H`, P0 among them, have come to their ends. When those of `H` have the same seed and each Pi of `H` keeps its
items, P0 prints an item that all of `H` have exactly when what the coalition brings into its cells adds up to zero. -/
theorem coalition_decides (hn : 3 ≤ e.parties) (h : CoalitionReaches e H s) (hH : H ⊆ range e.parties) (h0 : 0 ∈ H)
    (hc : ∀ i ∈ H, ∃ m G out, s.proc i = .done m G out) : ∃ D : Outcome e,
      (∀ i ∈ H, s.proc i = D.final i ∧ ∀ d : Chan, d.Valid e.parties → d.dst = i → s.taken (d.sock e.parties) = D.read d) ∧
      ((∀ p ∈ H, (D.merged p).seed = (D.merged 0).seed) → (∀ p ∈ H, p ≠ 0 → KeepsItems e p (D.merged p)) →
        ∀ x, (∀ p ∈ H, x ∈ e.items p) → (x ∈ D.out ↔ ∑ c ∈ itemCells e (D.merged 0) x, D.fromCoalition H c = 0)) := by
  obtain ⟨D, A, hend⟩ := exists_among h hH ⟨0, h0⟩ hc
  refine ⟨D, hend, fun hseed hk x hx => ?_⟩
  rw [Outcome.out, (A.merged 0 h0).printed_iff, A.sum_total hH hseed hn h0 hk hx]
  exact and_iff_right (hx 0 h0)

/-- P0 and P1 of three parties with the same item. -/
theorem coalition_decides_three : ∃ (s : State Block 5) (D : Outcome threeEnv), CoalitionReaches threeEnv {0, 1} s ∧
    s.proc 0 = D.final 0 ∧ ((0 : ℤ) ∈ D.out ↔ ∑ c ∈ itemCells threeEnv (D.merged 0) 0, D.fromCoalition {0, 1} c = 0) := by
  obtain ⟨s, hs, hc⟩ := uniform_complete 3 (fun _ => [0]) fun _ _ => 0
  have hfin := (final_of_complete (uniform_honest 3 _ _) hs hc).1
  have hH : ({0, 1} : Finset ℕ) ⊆ range threeEnv.parties := by decide
  obtain ⟨D, hend, hdecides⟩ := coalition_decides (e := threeEnv) (le_refl 3) (coalition_of_honest hs) hH (by decide) fun i hi =>
    hc i (mem_range.1 (hH hi))
  have h0 : D.merged 0 = threeOutcome.merged 0 := by
    have heq := (hend 0 (by decide)).1.symm.trans (hfin 0 (by decide))
    rw [Outcome.final_zero D (by decide), Outcome.final_zero threeOutcome (by decide)] at heq
    exact (Party.done.inj heq).1
  have h1 : D.merged 1 = threeOutcome.merged 1 := by
    have heq := (hend 1 (by decide)).1.symm.trans (hfin 1 (by decide))
    rw [Outcome.final_pi D Nat.one_pos (by decide), Outcome.final_pi threeOutcome Nat.one_pos (by decide)] at heq
    exact (Party.done.inj heq).1
  have hcase : ∀ p ∈ ({0, 1} : Finset ℕ), p = 0 ∨ p = 1 := by decide
  refine ⟨s, D, coalition_of_honest hs, (hend 0 (by decide)).1, hdecides (fun p hp => ?_) (fun p hp hne => ?_) 0 fun _ _ => List.mem_singleton_self 0⟩
  · rcases hcase p hp with rfl | rfl
    · rfl
    · rw [h0, h1]
      rfl
  · obtain rfl := (hcase p hp).resolve_left hne
    rw [h1]
    exact three_keeps (Or.inl rfl)

end Mpsi
