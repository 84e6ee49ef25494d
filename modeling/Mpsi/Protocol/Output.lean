/-
What P0 prints, whatever the others send. P0 alone among parties that write anything on its connections:
when it comes to its end it has read from every Pi a message of the cut-and-choose that passes its check, a
sub-group that fits, a function and an array of the right lengths, and the items it prints are those of its
file, in their order and with their repetitions, whose cells add up to zero in what it has read
(`printed_of_party`).
-/
import Mpsi.Protocol.Intersection

namespace Mpsi

open Thread Stream Finset

variable {κ : Type}

/-- What P0 reads from a Pi: the key, the commitment and the seed, the answer of the cut-and-choose and the
function on the connection of the set-up, the size and the seed of the Pi's sub-group and its array on the
second one. -/
structure FromPi (κ : Type) where
  key : Block
  commit : κ
  seed : Block
  msg : RMessage
  func : List ℤ
  Nc : ℤ
  seed_sub_group : Block
  GBF : List Block

namespace FromPi

def first (t : FromPi κ) : List (Atom κ) :=
  blks [t.key] ++ coms [t.commit] ++ blks [t.seed] ++ ints [t.msg.Nr] ++ ints t.msg.R ++ blks [t.msg.r] ++ ints t.func

def second (t : FromPi κ) : List (Atom κ) := ints [t.Nc] ++ blks [t.seed_sub_group] ++ blks t.GBF

end FromPi

section Cells

variable (e : Env κ) (t : ℕ → FromPi κ) (f : ℕ → List ℤ)

/-- The seed P0 has in the end. -/
def p0Seed : Block := e.seed 0 + ∑ a ∈ range (e.parties - 1), (t a).seed

/-- P0's share of zero: the AES outputs under its own keys and under those it has read. Two parties have none. -/
def p0Share (c : ℕ) : Block :=
  if 2 < e.parties then ∑ a ∈ range (e.parties - 1), (e.aes (e.keys 0 a) (toBlock 0 c) + e.aes (t a).key (toBlock 0 c))
  else e.memory 0 c

/-- Its Bloom filter. -/
def p0BF : List Bool := (List.range e.Nbf).map (bloomBits e.aes (p0Seed e t) e.Nbf e.seeds_num (e.items 0))

/-- What its segments point to, `f` being the functions it has sent. -/
def p0Online : Online := ⟨p0BF e t, e.choiceStrings 0, f, e.strings 0, fun a => (t a).func⟩

/-- A cell of its final GBF. -/
def p0Cell (c : ℕ) : Block :=
  p0Share e t c + ∑ src ∈ producers (e.parties - 1), value (p0Online e t f) src c + ∑ a ∈ range (e.parties - 1), (t a).GBF.getD c 0

/-- The cells of an item. -/
def p0Cells (item : ℤ) : Finset ℕ := (hStar e.aes (p0Seed e t) e.Nbf e.seeds_num item).elems.toFinset

/-- P0 has read `t a` from P`a+1`, all of it has passed its checks, and the function it has sent there leaves
out the sub-group and follows its filter. -/
structure ReadFromPi (s : Alone Sock (Atom κ) (Party κ e.Not)) (a : ℕ) : Prop where
  first : s.read (p0Sender e.parties (a + 1)).peer = (t a).first
  second : s.read (p0Receiver e.parties (a + 1)).peer = (t a).second
  accepts : Accepts none e.Nc e.maxOnes (e.strings 0 a) (t a).msg
  nonneg : 0 ≤ (t a).Nc
  fits : (t a).Nc ≤ e.Not - e.Nbf
  func : (t a).func.length = e.Nbf
  GBF : (t a).GBF.length = e.Nbf
  sent : ints (f a) <:+ s.wrote (p0Receiver e.parties (a + 1))
  chosen : ∃ C, getSubGroup e.aes e.Not (t a).Nc.toNat (t a).seed_sub_group = .ok C ∧ IndexFunc C (e.bits 0 a) (p0BF e t) (f a)

end Cells

/-- `get_intersection` keeps the order and the repetitions of the items. -/
theorem getIntersection_eq {items : List ℤ} {h_kokhav : ℕ → OrdSet ℕ} {GBF : ℕ → Block} {P : ℤ → Prop} [DecidablePred P]
    (h : ∀ k x, items[k]? = some x → (checkTheItem (h_kokhav k) GBF = 0 ↔ P x)) :
    getIntersection items h_kokhav GBF = items.filter fun x => P x := by
  unfold getIntersection
  have hP : (items.zipIdx.filter fun x => checkTheItem (h_kokhav x.2) GBF = toBlock 0 0) = items.zipIdx.filter fun x => P x.1 := by
    apply List.filter_congr
    rintro ⟨x, k⟩ hx
    rw [toBlock_zero, decide_eq_decide]
    exact h k x (List.mk_mem_zipIdx_iff_getElem?.1 hx)
  have hmap : (fun x : ℤ × ℕ => decide (P x.1)) = (fun x => decide (P x)) ∘ Prod.fst := rfl
  rw [hP, hmap, ← List.filter_map, List.zipIdx_map_fst]

section Reads

variable {e : Env κ} {m : Merged κ e.Not} {l : ℕ → List Block} {a : ℕ}

/-- What P0 has computed with for the Pi of an instance. -/
def fromPi (m : Merged κ e.Not) (l : ℕ → List Block) (a : ℕ) : FromPi κ :=
  ⟨m.keys_recv a, (m.recv a).1, (m.recv a).2, (m.sender a).msg, m.func_sender a, (m.receiver a).Nc_recv,
    (m.receiver a).seed_recv, l a⟩

theorem place_zero (a : ℕ) : place 0 (a + 1) = a := by
  unfold place
  rw [if_pos (Nat.succ_pos a), Nat.add_sub_cancel]

/-- On the connection of the set-up. -/
theorem endRead_first (ha : a < slots e.parties 0) : endRead e 0 m l (senderBack 0 a) = (fromPi m l a).first := by
  have hagree : agreeRead 0 m.toAgreed (senderBack 0 a) = blks [m.keys_recv a] ++ (coms [(m.recv a).1] ++ blks [(m.recv a).2]) := by
    change blks [m.keys_recv (place 0 (a + 1))] ++
      (coms [(m.recv (place 0 (a + 1))).1] ++ blks [(m.recv (place 0 (a + 1))).2]) = _
    rw [place_zero]
  rw [endRead, apport_senderBack ha, List.append_nil, onlineRead_senderBack ha, hagree]
  simp only [FromPi.first, fromPi, List.append_assoc]

/-- On the second connection. -/
theorem endRead_second (ha : a < slots e.parties 0) : endRead e 0 m l (receiverBack 0 a) = (fromPi m l a).second := by
  have hagree : agreeRead 0 m.toAgreed (receiverBack 0 a) = [] := rfl
  rw [endRead, apport_receiverBack ha, onlineRead_receiverBack ha, hagree, List.nil_append]
  rfl

end Reads

variable [DecidableEq κ] {e : Env κ} {m : Merged κ e.Not} {l : ℕ → List Block}

theorem MergedOk.seed_eq (h : MergedOk e 0 m) : m.seed = p0Seed e (fromPi m l) := by
  rw [h.seed, xorSeeds_eq]
  rfl

theorem MergedOk.BF_eq (h : MergedOk e 0 m) : m.BF = p0BF e (fromPi m l) := by
  rw [h.BF, h.seed_eq (l := l)]
  rfl

/-- P0's final GBF. -/
theorem MergedOk.total_eq (h : MergedOk e 0 m) {c : ℕ} (hc : c < e.Nbf) :
    m.total e l c = p0Cell e (fromPi m l) m.func_recv c := by
  have hslots : slots e.parties 0 = e.parties - 1 := if_pos rfl
  have hdata : m.data e 0 = p0Online e (fromPi m l) m.func_recv := by
    unfold Merged.data p0Online
    rw [h.BF_eq (l := l)]
    rfl
  have hshare : m.GBF c = p0Share e (fromPi m l) c := by
    unfold p0Share
    rw [h.GBF]
    split
    · exact secretSharingAes_eq hc
    · rfl
  have hshared : m.shared c = m.GBF c + ∑ src ∈ producers (slots e.parties 0), value (m.data e 0) src c := by
    rw [h.shared]
    exact if_pos hc
  unfold Merged.total p0Cell
  rw [hshared, hslots, hdata, hshare]
  rfl

/-- In every run of P0 among parties that write anything: what it has read when it is at its end, and the
items it prints. -/
theorem printed_of_party {s : Alone Sock (Atom κ) (Party κ e.Not)} {G : ℕ → Block} {out : List ℤ} (h : PartyReaches e 0 s)
    (hdone : s.proc = .done m G out) : ∃ (t : ℕ → FromPi κ) (f : ℕ → List ℤ), (∀ a, a < e.parties - 1 → ReadFromPi e t f s a) ∧
      out = (e.items 0).filter fun x => ∑ c ∈ p0Cells e t x, p0Cell e t f c = 0 := by
  have hinv := partyInv_of_party h
  rw [hdone] at hinv
  obtain ⟨hi, hm, h0, _⟩ := hinv
  obtain ⟨l, hlen, rfl, rfl, hr⟩ := h0 rfl
  obtain ⟨hwrote, hread⟩ := (rest_iff hi).1 hr
  refine ⟨fromPi m l, m.func_recv, fun a ha => ?_, getIntersection_eq fun k x hx => ?_⟩
  · have hslot : a < slots e.parties 0 := by rwa [slots, if_pos rfl]
    have hR := hm.receiver a hslot
    have hs : p0Sender e.parties (a + 1) = senderSock e.parties 0 a := rfl
    have hrcv : p0Receiver e.parties (a + 1) = receiverSock e.parties 0 a := rfl
    constructor
    · rw [hs, senderSock_peer hi hslot, hread _ (senderBack_valid hi hslot) rfl, endRead_first hslot]
    · rw [hrcv, receiverSock_peer hi hslot, hread _ (receiverBack_valid hi hslot) rfl, endRead_second hslot]
    · exact (hm.sender a hslot).accepts
    · exact hR.nonneg
    · exact hR.fits
    · exact hm.func_sender a hslot
    · exact hlen a ha
    · rw [hrcv, receiverSock_eq, hwrote _ (receiverChan_valid hi hslot) rfl, onlineSent_receiverChan hslot, ← List.append_assoc]
      exact List.suffix_append _ _
    · rw [← hm.BF_eq (l := l)]
      exact ⟨_, hR.sub_group, indexFunc_of_merged hm hslot⟩
  · -- the cells of the item are in the range, so the final GBF is known there
    have hcells : (m.h_kokhav k).elems.toFinset = p0Cells e (fromPi m l) x := by
      rw [hm.h_kokhav, bloomSets, hx, hm.seed_eq (l := l)]
      rfl
    rw [checkTheItem_eq, hcells]
    refine Eq.congr_left (sum_congr rfl fun c hc => hm.total_eq ?_)
    have hmem := mem_hStar.1 (List.mem_toFinset.1 hc)
    rw [← hm.seed_eq (l := l)] at hmem
    have hN := hm.Nbf x (List.mem_of_getElem? hx) (List.ne_nil_of_mem hmem)
    exact hashes_lt (Nat.pos_of_ne_zero hN) hmem

/-- P0 among three parties that follow the program, with an item in its file twice. -/
theorem printed_of_party_three : ∃ (s : Alone Sock (Atom Block) (Party Block 5)) (m : Merged Block 5) (G : ℕ → Block) (out : List ℤ),
    PartyReaches (uniform 3 (fun _ => [4, 7, 4]) fun _ _ => 0) 0 s ∧ s.proc = .done m G out ∧ out.Sublist [4, 7, 4] := by
  obtain ⟨s, hs, hc⟩ := uniform_complete 3 (fun _ => [4, 7, 4]) fun _ _ => 0
  obtain ⟨m, G, out, hdone⟩ := hc 0 (by decide)
  have halone := alone_of_reaches partyInv_follows (fun _ => partyInv_start) hs 0
  obtain ⟨t, f, _, hout⟩ := printed_of_party halone hdone
  exact ⟨_, m, G, out, halone, hdone, hout ▸ List.filter_sublist⟩

end Mpsi
