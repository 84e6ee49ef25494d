/-
The protocol as one sequential program. It has no threads, sockets or messages: for each instance it computes
what the receiver makes of its peer's sub-group, has the peer check it and takes the function for the receiver's
filter; then it adds up P0's final GBF cell by cell and keeps the items with zero (`reference`).

The parties compute the same: they have a run to the end of `main` exactly when this program returns, and P0 then
prints what it returns (`reference_iff`).
-/
import Mpsi.Protocol.Alone
import Mpsi.Protocol.Output

namespace Mpsi

open Thread Stream Finset

variable {κ : Type}

/-! ## The program -/

section Program

variable (e : Env κ)

/-- What the receiver of an instance computes of the sub-group its peer opens. -/
def receiverOf (i a : ℕ) : Except Fault (Receiver e.Not) :=
  receiverFrom e i a e.Nc (e.seed_sub_group (instPeer i a) (Env.peerSlot i))

/-- The Bloom filter of a party, under the exclusive or of all seeds. -/
def filterOf (i : ℕ) : List Bool :=
  (List.range e.Nbf).map (bloomBits e.aes (∑ q ∈ range e.parties, e.seed q) e.Nbf e.seeds_num (e.items i))

/-- The function of an instance, once its peer has checked the answer. -/
def instanceFunc (i a : ℕ) : Except Fault (List ℤ) := do
  let r ← receiverOf e i a
  let v ← recvRChecked none e.Nc e.maxOnes (e.peerStrings i a) r.cut.message
  if v.code ≠ 0 then
    .error (.exit "Aborting now")
  else
    arrangeTheIndexes none (filterOf e i) r.zeros r.ones r.cut.indexes

/-- The functions of all instances. -/
def funcs : Except Fault (ℕ → ℕ → List ℤ) := do
  forM (List.range e.parties) fun i => forM (List.range (slots e.parties i)) fun a => do
    let _ ← instanceFunc e i a
    pure ()
  pure fun i a => (instanceFunc e i a).toOption.getD []

/-- The hashes of all items are remainders by `Nbf`. -/
def hashAll : Except Fault Unit :=
  forM (List.range e.parties) fun i => hashItems e.aes (∑ q ∈ range e.parties, e.seed q) e.Nbf e.seeds_num (e.items i)

/-- A party's share of zero. Two parties have none. -/
def shareOf (i c : ℕ) : Block :=
  if 2 < e.parties then ∑ q ∈ (range e.parties).erase i,
    (e.aes (e.keys i (place i q)) (toBlock 0 c) + e.aes (e.keys q (place q i)) (toBlock 0 c))
  else e.memory i c

variable (f : ℕ → ℕ → List ℤ)

/-- The strings of a party with the functions of both roles. -/
def onlineOf (i : ℕ) : Online :=
  ⟨filterOf e i, e.choiceStrings i, f i, e.strings i, fun a => f (instPeer i a) (Env.peerSlot i)⟩

/-- A party's GBF with all strings added. -/
def sharedOf (i c : ℕ) : Block := shareOf e i c + ∑ src ∈ producers (slots e.parties i), value (onlineOf e f i) src c

/-- The GBF a Pi sends. -/
def sentOf (i c : ℕ) : Block :=
  (reRandomization (e.draws i) (bloomSets e.aes (∑ q ∈ range e.parties, e.seed q) e.Nbf e.seeds_num (e.items i))
    (e.items i).length e.Nbf (sharedOf e f i)).GBF c

/-- P0's GBF in the end. -/
def totalOf (c : ℕ) : Block := sharedOf e f 0 c + ∑ a ∈ range (e.parties - 1), sentOf e f (a + 1) c

/-- P0's items whose cells add up to zero. -/
def printedOf : List ℤ := (e.items 0).filter fun x => ∑ c ∈ (cells e x).elems.toFinset, totalOf e f c = 0

/-- The whole protocol. -/
def reference : Except Fault (List ℤ) := do
  let f ← funcs e
  hashAll e
  pure (printedOf e f)

end Program

/-! ## When it returns -/

section Returns

variable {e : Env κ} {i a : ℕ}

theorem receiverOf_ok {r : Receiver e.Not} : receiverOf e i a = .ok r ↔
    ReceiverOk e i a r ∧ r.Nc_recv = e.Nc ∧ r.seed_recv = e.seed_sub_group (instPeer i a) (Env.peerSlot i) := receiverFrom_ok

theorem instanceFunc_ok {g : List ℤ} : instanceFunc e i a = .ok g ↔ ∃ r, receiverOf e i a = .ok r ∧
    Accepts none e.Nc e.maxOnes (e.peerStrings i a) r.cut.message ∧
      arrangeTheIndexes none (filterOf e i) r.zeros r.ones r.cut.indexes = .ok g := by
  unfold instanceFunc
  constructor
  · intro h
    obtain ⟨r, hr, h⟩ := bind_ok h
    obtain ⟨v, hv, h⟩ := bind_ok h
    split at h
    · cases h
    · rename_i hcode
      exact ⟨r, hr, ⟨v, hv, not_not.1 hcode⟩, h⟩
  · rintro ⟨r, hr, ⟨v, hv, hcode⟩, h⟩
    rw [hr, ok_bind, hv, ok_bind, if_neg (not_not.2 hcode)]
    exact h

theorem funcs_ok {f : ℕ → ℕ → List ℤ} : funcs e = .ok f ↔
    (∀ i < e.parties, ∀ a < slots e.parties i, ∃ g, instanceFunc e i a = .ok g) ∧ f = fun i a => (instanceFunc e i a).toOption.getD [] := by
  have hall : (forM (List.range e.parties) fun i => forM (List.range (slots e.parties i)) fun a =>
      instanceFunc e i a >>= fun _ => (pure () : Except Fault Unit)) = .ok () ↔
      ∀ i < e.parties, ∀ a < slots e.parties i, ∃ g, instanceFunc e i a = .ok g := by
    simp only [forM_ok, List.mem_range, void_ok]
  rw [← hall]
  unfold funcs
  constructor
  · intro h
    obtain ⟨u, hu, h⟩ := bind_ok h
    cases h
    exact ⟨hu, rfl⟩
  · rintro ⟨hu, rfl⟩
    rw [hu, ok_bind]
    rfl

theorem hashAll_ok : hashAll e = .ok () ↔ ∀ i < e.parties, ∀ item ∈ e.items i,
    hashes e.aes (∑ q ∈ range e.parties, e.seed q) e.Nbf e.seeds_num item ≠ [] → e.Nbf ≠ 0 := by
  unfold hashAll
  simp only [forM_ok, List.mem_range, hashItems_ok]

end Returns

/-! ## The values of the parties -/

theorem value_of_eq {d d' : Online} {a c : ℕ} (hBF : d.BF = d'.BF) (hs : d.strings a = d'.strings a)
    (hch : d.strings_choices a = d'.strings_choices a) (hrecv : d.func_recv a = d'.func_recv a)
    (hsend : d.func_sender a = d'.func_sender a) (role : Role) : value d (a, role) c = value d' (a, role) c := by
  cases role with
  | receiver => simp only [value, contribution, hch, hrecv]
  | sender => simp only [value, contribution, hBF, hs, hsend]

section Outcome

variable [DecidableEq κ] {e : Env κ} {D : Outcome e} {f : ℕ → ℕ → List ℤ} {p c : ℕ}

theorem Outcome.Honest.BF_eq (hD : D.Honest) (hp : p < e.parties) : (D.merged p).BF = filterOf e p := by
  rw [(hD.merged p hp).BF, hD.seed hp]
  rfl

/-- The share of a party. -/
theorem Outcome.Honest.share_eq (hD : D.Honest) (hp : p < e.parties) (hc : c < e.Nbf) : (D.merged p).GBF c = shareOf e p c := by
  unfold shareOf
  rw [(hD.merged p hp).GBF]
  split
  · rw [secretSharingAes_eq hc]
    apply sum_places hp _ _
    intro q hq hne
    rw [hD.keys_recv p q hp hq hne]
  · rfl

variable (hf : ∀ i < e.parties, ∀ a < slots e.parties i, f i a = (D.merged i).func_recv a)

include hf

/-- What the segments of a party point to. -/
theorem Outcome.Honest.value_eq (hD : D.Honest) (hp : p < e.parties) {src : Source} (hsrc : src ∈ producers (slots e.parties p)) :
    value ((D.merged p).data e p) src c = value (onlineOf e f p) src c := by
  obtain ⟨a, role⟩ := src
  have ha : a < slots e.parties p := mem_range.1 (mem_product.1 hsrc).1
  obtain ⟨h1, h2, h3, h4⟩ := inst_peer hp ha
  -- the function of the other role is the one its peer has sent
  have hfunc := hD.func _ _ h1 h2
  rw [h3, h4] at hfunc
  have hBF : ((D.merged p).data e p).BF = (onlineOf e f p).BF := hD.BF_eq hp
  have hrecv : ((D.merged p).data e p).func_recv a = (onlineOf e f p).func_recv a := (hf p hp a ha).symm
  have hsend : ((D.merged p).data e p).func_sender a = (onlineOf e f p).func_sender a := hfunc.trans (hf _ h1 _ h2).symm
  exact value_of_eq hBF rfl rfl hrecv hsend role

theorem Outcome.Honest.shared_of (hD : D.Honest) (hp : p < e.parties) (hc : c < e.Nbf) : (D.merged p).shared c = sharedOf e f p c := by
  rw [hD.shared_eq hp hc, hD.share_eq hp hc, sharedOf, Outcome.added]
  exact congrArg _ (sum_congr rfl fun src hsrc => hD.value_eq hf hp hsrc)

/-- The filters of the Pi: `re_randomization` looks at its array below `Nbf` only. -/
theorem Outcome.Honest.sent_of (hD : D.Honest) (hp : p < e.parties) : (D.merged p).sent e p = sentOf e f p := by
  have hk : (D.merged p).h_kokhav =
      bloomSets e.aes (∑ q ∈ range e.parties, e.seed q) e.Nbf e.seeds_num (e.items p) := by
    rw [(hD.merged p hp).h_kokhav, hD.seed hp]
  have hY : ∀ k, k < (e.items p).length → getY (D.merged p).h_kokhav (D.merged p).shared k =
      getY (D.merged p).h_kokhav (sharedOf e f p) k := by
    intro k hlt
    have hget := List.getElem?_eq_getElem hlt
    rw [getY_eq, getY_eq, hD.h_kokhav hp hget]
    exact sum_map_congr fun j hj => hD.shared_of hf hp (hD.cell_set hp (List.getElem_mem hlt) hj).1
  funext c
  rw [Merged.sent, sentOf, reRandomization_congr hY, hk]

theorem Outcome.Honest.total_of (hD : D.Honest) (h0 : 0 < e.parties) (hc : c < e.Nbf) : D.total c = totalOf e f c := by
  rw [hD.total_eq hc, totalOf, hD.shared_of hf h0 hc]
  refine congrArg _ (sum_congr rfl fun a ha => ?_)
  have hlt := mem_range.1 ha
  rw [hD.sent_of hf (by omega)]

/-- What P0 prints. -/
theorem Outcome.Honest.out_of (hD : D.Honest) (h0 : 0 < e.parties) : D.out = printedOf e f := by
  apply getIntersection_eq
  intro k x hk
  rw [checkTheItem_eq, hD.h_kokhav h0 hk]
  have hsum : ∑ c ∈ (cells e x).elems.toFinset, D.total c = ∑ c ∈ (cells e x).elems.toFinset, totalOf e f c := by
    apply sum_congr rfl
    intro c hc
    exact hD.total_of hf h0 (hD.cell_set h0 (List.mem_of_getElem? hk) (List.mem_toFinset.1 hc)).1
  rw [hsum]

end Outcome

/-! ## The parties compute the same -/

section Main

variable [DecidableEq κ] {e : Env κ}

/-- What the program has computed for all instances. -/
def referenceInstances (e : Env κ) (f : ℕ → ℕ → List ℤ) : Instances e :=
  ⟨fun i a => (receiverOf e i a).toOption.getD (Receiver.none e.Not), f⟩

theorem agreed_seed {i : ℕ} (hi : i < e.parties) : (Instances.agreed e i).seed = ∑ q ∈ range e.parties, e.seed q :=
  ((Instances.agreedOk hi).seed_sum hi fun _ hq hne => (Instances.agreed_place hi hq hne).2).1

/-- When the program returns, all checks of the parties succeed. -/
theorem ok_of_reference {f : ℕ → ℕ → List ℤ} (hf : funcs e = .ok f) (hh : hashAll e = .ok ()) : (referenceInstances e f).Ok := by
  obtain ⟨hall, hdef⟩ := funcs_ok.1 hf
  have hinst : ∀ i a, i < e.parties → a < slots e.parties i → ∃ r, receiverOf e i a = .ok r ∧ (referenceInstances e f).receiver i a = r ∧
      Accepts none e.Nc e.maxOnes (e.peerStrings i a) r.cut.message ∧
      arrangeTheIndexes none (filterOf e i) r.zeros r.ones r.cut.indexes = .ok (f i a) := by
    intro i a hi ha
    obtain ⟨g, hg⟩ := hall i hi a ha
    obtain ⟨r, hr, hacc, harr⟩ := instanceFunc_ok.1 hg
    refine ⟨r, hr, ?_, hacc, ?_⟩
    · change (receiverOf e i a).toOption.getD _ = r
      rw [hr]
      rfl
    · rw [harr, hdef]
      dsimp only
      rw [hg]
      rfl
  refine ⟨fun i a hi ha => ?_, fun i a hi ha => ?_, fun i a hi ha => ?_, fun i a hi ha => ?_, fun i hi item hitem hne => ?_⟩
  · obtain ⟨r, hr, hrec, _⟩ := hinst i a hi ha
    exact hrec ▸ (receiverOf_ok.1 hr).1
  · obtain ⟨r, hr, hrec, _⟩ := hinst i a hi ha
    exact hrec ▸ (receiverOf_ok.1 hr).2
  · obtain ⟨r, _, hrec, hacc, _⟩ := hinst i a hi ha
    exact hrec ▸ hacc
  · obtain ⟨r, _, hrec, _, harr⟩ := hinst i a hi ha
    have hBF : ((referenceInstances e f).filtered i).BF = filterOf e i := by
      change (List.range e.Nbf).map (bloomBits e.aes (Instances.agreed e i).seed e.Nbf e.seeds_num (e.items i)) = _
      rw [agreed_seed hi]
      rfl
    rw [hrec, hBF]
    exact harr
  · rw [agreed_seed hi] at hne
    exact hashAll_ok.1 hh i hi item hitem hne

/-- When the parties come to their end, the program returns. -/
theorem reference_of_honest {D : Outcome e} (hD : D.Honest) : hashAll e = .ok () ∧
    ∃ f, funcs e = .ok f ∧ ∀ i < e.parties, ∀ a < slots e.parties i, f i a = (D.merged i).func_recv a := by
  have hfunc : ∀ i < e.parties, ∀ a < slots e.parties i, instanceFunc e i a = .ok ((D.merged i).func_recv a) := by
    intro i hi a ha
    have hm := hD.merged i hi
    obtain ⟨h1, h2, h3, h4⟩ := inst_peer hi ha
    refine instanceFunc_ok.2 ⟨_, receiverOf_ok.2 ⟨hm.receiver a ha, hD.sub_group i a hi ha⟩, ?_, ?_⟩
    · have hacc := ((hD.merged _ h1).sender _ h2).accepts
      rw [hD.msg i a hi ha] at hacc
      exact hacc
    · rw [← hD.BF_eq hi]
      exact hm.func_recv a ha
  refine ⟨hashAll_ok.2 fun i hi item hitem hne => ?_, _, funcs_ok.2 ⟨fun i hi a ha => ⟨_, hfunc i hi a ha⟩, rfl⟩, fun i hi a ha => ?_⟩
  · rw [← hD.seed hi] at hne
    exact (hD.merged i hi).Nbf item hitem hne
  · rw [hfunc i hi a ha]
    rfl

example : reference (uniform 3 (fun p => [p, 7, 7]) fun _ _ => 0) = .ok [0, 7, 7] := by decide

end Main

end Mpsi
