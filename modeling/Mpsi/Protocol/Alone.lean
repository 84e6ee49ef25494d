/-
A party as a sequential program of what it reads. The program has no threads, queues or sockets: it is given all
the messages of the others at once, checks them in the order of the instances, and returns what the party has in
the end (`aloneMerged`, `aloneEnd`).

The party computes the same. In every order of its threads, and whatever the others send, it comes to its end
exactly when the program returns for the messages it has read, with what the program returns (`alone_iff`).
-/
import Mpsi.Run.Local
import Mpsi.Run.Lone

namespace Mpsi

open Thread Stream Relation

variable {κ : Type}

/-! ## The messages -/

/-- What a party can read: from each other party its key, its commitment and its seed, in each instance the size
and the seed of the sub-group, the answer of the cut-and-choose and the function; and P0 the array of the Pi. -/
structure Incoming (e : Env κ) where
  key : ℕ → Block
  commit : ℕ → κ
  seed : ℕ → Block
  Nc : ℕ → ℤ
  seed_sub_group : ℕ → Block
  msg : ℕ → RMessage
  func : ℕ → List ℤ
  GBF : ℕ → List Block
  func_length : ∀ a, (func a).length = e.Nbf
  GBF_length : ∀ a, (GBF a).length = e.Nbf

namespace Incoming

variable {e : Env κ} (t : Incoming e) (i : ℕ) (d : Chan)

/-- The part of the set-up in what player `i` reads on a stream. -/
def setUp : List (Atom κ) :=
  if d.main then blks [t.key (place i d.src)] ++ (coms [t.commit (place i d.src)] ++ blks [t.seed (place i d.src)]) else []

/-- All it reads there. -/
def on : List (Atom κ) :=
  t.setUp i d ++
    apport i d.src d.main (fun a => ints [(t.msg a).Nr] ++ ints (t.msg a).R ++ blks [(t.msg a).r] ++ ints (t.func a))
      (fun a => ints [t.Nc a] ++ blks [t.seed_sub_group a] ++ if i = 0 then blks (t.GBF a) else [])

end Incoming

/-! ## The program -/

/-- The results of the first `n` instances, in their order, and `d` for the others. -/
def each {α : Type} (n : ℕ) (d : α) (f : ℕ → Except Fault α) : Except Fault (ℕ → α) := do
  forM (List.range n) fun a => do
    let _ ← f a
    pure ()
  pure fun a => if a < n then (f a).toOption.getD d else d

/-- What the receiver of an instance computes when it has read the size and the seed of a sub-group. -/
def receiverFrom (e : Env κ) (i a : ℕ) (Nc : ℤ) (seed : Block) : Except Fault (Receiver e.Not) := do
  newArray Nc
  let sub_group ← getSubGroup e.aes e.Not Nc.toNat seed
  if (checkIfToAbort Nc e.Not e.Nbf).code = 0 then do
    let cut ← computeRr sub_group.elems (freshIndexes e.Not) (e.bits i a) e.Not (e.choiceStrings i a)
    let arr ← getZerosOnes cut.b e.Not Nc.toNat (e.rand i a false) (e.rand i a true)
    pure ⟨Nc, seed, sub_group, cut, arr.1, arr.2⟩
  else
    .error (.exit "aborting")

/-- What the sender of an instance keeps of the answer to its sub-group. -/
def senderFrom (e : Env κ) (i a : ℕ) (msg : RMessage) : Except Fault (Sender e.Not) := do
  let sub_group ← getSubGroup e.aes e.Not e.Nc (e.seed_sub_group i a)
  let v ← recvRChecked none e.Nc e.maxOnes (e.strings i a) msg
  if v.code ≠ 0 then .error (.exit "Aborting now") else pure ⟨sub_group, msg⟩

/-- The remainders by `Nbf` that `bf_thread` takes for the items. -/
def hashItems (aes : Block → Block → Block) (seed : Block) (Nbf seeds_num : ℕ) (items : List ℤ) : Except Fault Unit :=
  forM items fun item => if hashes aes seed Nbf seeds_num item ≠ [] ∧ Nbf = 0 then .error .divByZero else .ok ()

/-- The strings of all producers, cell by cell. -/
def findStrings (d : Online) (n Nbf : ℕ) : Except Fault Unit :=
  forM (List.range n) fun a => forM [Role.receiver, .sender] fun r => forM (List.range Nbf) fun j => do
    let _ ← contribution none d (a, r) j
    pure ()

section Program

variable [DecidableEq κ] (e : Env κ) (i : ℕ) (t : Incoming e)

/-- The end of the agreement. -/
def aloneAgreed : Agreed κ :=
  let recv := fun slot => if slot < e.parties - 1 then (t.commit slot, t.seed slot) else (e.commit 0, 0)
  ⟨fun slot => if slot < e.parties - 1 then t.key slot else 0, recv, xorSeeds e.parties (e.seed i) recv,
    commitsOk e.commit e.parties recv⟩

/-- The offline phase. -/
def aloneOpened : Except Fault (Opened κ e.Not) := do
  let g := aloneAgreed e i t
  let receiver ← each (slots e.parties i) (Receiver.none e.Not) fun a => receiverFrom e i a (t.Nc a) (t.seed_sub_group a)
  let sender ← each (slots e.parties i) (Sender.none e.Not) fun a => senderFrom e i a (t.msg a)
  pure { g with
    GBF := if 2 < e.parties then secretSharingAes e.aes e.parties e.Nbf (e.keys i) g.keys_recv (e.memory i) else e.memory i
    receiver := receiver
    sender := sender }

/-- The online phase: the Bloom filter, the functions, and the strings added up. -/
def aloneMerged : Except Fault (Merged κ e.Not) := do
  let o ← aloneOpened e i t
  hashItems e.aes o.seed e.Nbf e.seeds_num (e.items i)
  let BF := (List.range e.Nbf).map (bloomBits e.aes o.seed e.Nbf e.seeds_num (e.items i))
  let func_recv ← each (slots e.parties i) [] fun a =>
    arrangeTheIndexes none BF (o.receiver a).zeros (o.receiver a).ones (o.receiver a).cut.indexes
  let func_sender := fun a => if a < slots e.parties i then t.func a else []
  let data : Online := ⟨BF, e.choiceStrings i, func_recv, e.strings i, func_sender⟩
  findStrings data (slots e.parties i) e.Nbf
  pure { o with
    BF := BF
    h_kokhav := bloomSets e.aes o.seed e.Nbf e.seeds_num (e.items i)
    func_recv := func_recv
    func_sender := func_sender
    shared := fun j => if j < e.Nbf then o.GBF j + ∑ src ∈ producers (slots e.parties i), value data src j else o.GBF j }

/-- The end of `main`: P0's GBF with the arrays of the Pi and the items it prints, or the array a Pi sends. -/
def aloneEnd : Except Fault (Merged κ e.Not × (ℕ → Block) × List ℤ) := do
  let m ← aloneMerged e i t
  pure (m, if i = 0 then (m.total e t.GBF, getIntersection (e.items i) m.h_kokhav (m.total e t.GBF)) else (m.sent e i, []))

end Program

/-! ## When it returns -/

theorem forM_ok {α : Type} {g : α → Except Fault Unit} : ∀ {l : List α}, forM l g = .ok () ↔ ∀ x ∈ l, g x = .ok ()
  | [] => by simp; rfl
  | x :: l => by
    rw [List.forM_cons, List.forall_mem_cons, ← forM_ok (l := l)]
    cases g x with
    | error f => simp
    | ok u => cases u; simp

theorem void_ok {α : Type} {x : Except Fault α} : (x >>= fun _ => (pure () : Except Fault Unit)) = .ok () ↔ ∃ a, x = .ok a := by
  cases x with
  | error f => simp
  | ok a => simp [pure, Except.pure]

theorem each_ok {α : Type} {n : ℕ} {d : α} {f : ℕ → Except Fault α} {g : ℕ → α} :
    each n d f = .ok g ↔ (∀ a, a < n → f a = .ok (g a)) ∧ ∀ a, n ≤ a → g a = d := by
  unfold each
  constructor
  · intro h
    obtain ⟨_, hu, h⟩ := bind_ok h
    cases h
    refine ⟨fun a ha => ?_, fun a ha => if_neg (not_lt.2 ha)⟩
    obtain ⟨x, hx⟩ := void_ok.1 (forM_ok.1 hu a (List.mem_range.2 ha))
    dsimp only
    rw [if_pos ha, hx]
    rfl
  · rintro ⟨h, hd⟩
    have hu : (forM (List.range n) fun a => f a >>= fun _ => (pure () : Except Fault Unit)) = .ok () :=
      forM_ok.2 fun a ha => void_ok.2 ⟨_, h a (List.mem_range.1 ha)⟩
    rw [hu, ok_bind]
    refine congrArg Except.ok (funext fun a => ?_)
    by_cases ha : a < n
    · rw [if_pos ha, h a ha]
      rfl
    · rw [if_neg ha, hd a (not_lt.1 ha)]

section Returns

variable {e : Env κ} {i a : ℕ} {Nc : ℤ} {seed : Block} {msg : RMessage}

theorem receiverFrom_ok {r : Receiver e.Not} : receiverFrom e i a Nc seed = .ok r ↔
    ReceiverOk e i a r ∧ r.Nc_recv = Nc ∧ r.seed_recv = seed := by
  unfold receiverFrom
  constructor
  · intro h
    obtain ⟨_, hN, h⟩ := bind_ok h
    obtain ⟨C, hC, h⟩ := bind_ok h
    split at h
    · rename_i hcode
      obtain ⟨cut, hcut, h⟩ := bind_ok h
      obtain ⟨arr, harr, h⟩ := bind_ok h
      cases h
      exact ⟨⟨newArray_ok.1 hN, hC, checkIfToAbort_code.1 hcode, hcut, harr⟩, rfl, rfl⟩
    · cases h
  · obtain ⟨Nc', seed', C, cut, zeros, ones⟩ := r
    rintro ⟨⟨hN, hC, hfits, hcut, harr⟩, rfl, rfl⟩
    simp only at hN hC hfits hcut harr ⊢
    rw [newArray_ok.2 hN, ok_bind, hC, ok_bind, if_pos (checkIfToAbort_code.2 hfits), hcut, ok_bind, harr, ok_bind]
    rfl

theorem senderFrom_ok {s : Sender e.Not} : senderFrom e i a msg = .ok s ↔ SenderOk e i a s ∧ s.msg = msg := by
  unfold senderFrom
  constructor
  · intro h
    obtain ⟨C, hC, h⟩ := bind_ok h
    obtain ⟨v, hv, h⟩ := bind_ok h
    split at h
    · cases h
    · rename_i hcode
      cases h
      exact ⟨⟨hC, v, hv, not_not.1 hcode⟩, rfl⟩
  · obtain ⟨C, m⟩ := s
    rintro ⟨⟨hC, v, hv, hcode⟩, rfl⟩
    simp only at hC hv
    rw [hC, ok_bind, hv, ok_bind, if_neg (not_not.2 hcode)]
    rfl

theorem hashItems_ok {aes : Block → Block → Block} {Nbf seeds_num : ℕ} {items : List ℤ} :
    hashItems aes seed Nbf seeds_num items = .ok () ↔ ∀ item ∈ items, hashes aes seed Nbf seeds_num item ≠ [] → Nbf ≠ 0 := by
  unfold hashItems
  rw [forM_ok]
  refine forall₂_congr fun item _ => ?_
  split
  · rename_i h
    exact iff_of_false (fun hf => by cases hf) fun hf => hf h.1 h.2
  · rename_i h
    exact iff_of_true rfl fun hne h0 => h ⟨hne, h0⟩

theorem findStrings_ok {d : Online} {n Nbf : ℕ} :
    findStrings d n Nbf = .ok () ↔ ∀ src ∈ producers n, ∀ j, j < Nbf → ∃ b, contribution none d src j = .ok b := by
  unfold findStrings
  simp only [forM_ok, void_ok, List.mem_range]
  constructor
  · rintro h ⟨a, r⟩ hsrc j hj
    have ha : a < n := Finset.mem_range.1 (Finset.mem_product.1 hsrc).1
    exact h a ha r (by cases r <;> simp) j hj
  · intro h a ha r _ j hj
    exact h (a, r) (by cases r <;> simp [producers, ha]) j hj

end Returns

/-! ## The values of the program -/

theorem filled_iff {α : Type} {n i : ℕ} {d : α} {f : ℕ → α} (hi : i < n) : Filled n i d f ↔ ∀ slot, n - 1 ≤ slot → f slot = d := by
  constructor
  · intro h slot hs
    refine h slot fun l hl => ?_
    obtain ⟨q, hq, hne, rfl⟩ := (mem_links hi).1 hl
    exact ne_of_lt (lt_of_lt_of_le (place_lt hi hq hne) hs)
  · intro h slot hs
    refine h slot (not_lt.1 fun hlt => ?_)
    obtain ⟨q, hq, hne, rfl⟩ := exists_place_eq hi hlt
    exact hs _ ((mem_links hi).2 ⟨q, hq, hne, rfl⟩) rfl

/-- Values of a party that has been given the messages `t`. -/
structure Takes {e : Env κ} (i : ℕ) (t : Incoming e) (m : Merged κ e.Not) : Prop where
  keys_recv : ∀ slot, slot < e.parties - 1 → m.keys_recv slot = t.key slot
  recv : ∀ slot, slot < e.parties - 1 → m.recv slot = (t.commit slot, t.seed slot)
  Nc_recv : ∀ a, a < slots e.parties i → (m.receiver a).Nc_recv = t.Nc a
  seed_recv : ∀ a, a < slots e.parties i → (m.receiver a).seed_recv = t.seed_sub_group a
  msg : ∀ a, a < slots e.parties i → (m.sender a).msg = t.msg a
  func_sender : ∀ a, a < slots e.parties i → m.func_sender a = t.func a

section Values

variable [DecidableEq κ] {e : Env κ} {i : ℕ} {t : Incoming e}

theorem aloneAgreed_iff (hi : i < e.parties) {g : Agreed κ} : g = aloneAgreed e i t ↔ AgreedOk e i g ∧
    (∀ slot, slot < e.parties - 1 → g.keys_recv slot = t.key slot) ∧
      ∀ slot, slot < e.parties - 1 → g.recv slot = (t.commit slot, t.seed slot) := by
  constructor
  · rintro rfl
    exact ⟨⟨(filled_iff hi).2 fun slot hs => if_neg (not_lt.2 hs), (filled_iff hi).2 fun slot hs => if_neg (not_lt.2 hs), rfl, rfl⟩,
      fun slot hs => if_pos hs, fun slot hs => if_pos hs⟩
  · obtain ⟨keys_recv, recv, seed, ok⟩ := g
    rintro ⟨⟨hk0, hr0, hseed, hok⟩, hk, hr⟩
    simp only at hseed hok
    subst hseed hok
    -- the two arrays are known at every place, the rest is computed from them
    have hkeys : keys_recv = (aloneAgreed e i t).keys_recv := by
      funext slot
      by_cases hs : slot < e.parties - 1
      · exact (hk slot hs).trans (if_pos hs).symm
      · exact ((filled_iff hi).1 hk0 slot (not_lt.1 hs)).trans (if_neg hs).symm
    have hrecv : recv = (aloneAgreed e i t).recv := by
      funext slot
      by_cases hs : slot < e.parties - 1
      · exact (hr slot hs).trans (if_pos hs).symm
      · exact ((filled_iff hi).1 hr0 slot (not_lt.1 hs)).trans (if_neg hs).symm
    subst hkeys hrecv
    rfl

theorem aloneOpened_ok (hi : i < e.parties) {o : Opened κ e.Not} : aloneOpened e i t = .ok o ↔ OpenedOk e i o ∧
    o.toAgreed = aloneAgreed e i t ∧ ∀ a, a < slots e.parties i →
      (o.receiver a).Nc_recv = t.Nc a ∧ (o.receiver a).seed_recv = t.seed_sub_group a ∧ (o.sender a).msg = t.msg a := by
  unfold aloneOpened
  constructor
  · intro h
    obtain ⟨receiver, hr, h⟩ := bind_ok h
    obtain ⟨sender, hs, h⟩ := bind_ok h
    cases h
    obtain ⟨hr, hr0⟩ := each_ok.1 hr
    obtain ⟨hs, hs0⟩ := each_ok.1 hs
    have hg := ((aloneAgreed_iff hi (t := t)).1 rfl).1
    exact ⟨⟨hg, rfl, fun a ha => (receiverFrom_ok.1 (hr a ha)).1, fun a ha => (senderFrom_ok.1 (hs a ha)).1, hr0, hs0⟩, rfl,
      fun a ha => ⟨(receiverFrom_ok.1 (hr a ha)).2.1, (receiverFrom_ok.1 (hr a ha)).2.2, (senderFrom_ok.1 (hs a ha)).2⟩⟩
  · obtain ⟨g, GBF, receiver, sender⟩ := o
    rintro ⟨⟨_, hGBF, hr, hs, hr0, hs0⟩, rfl, ht⟩
    have h1 : each (slots e.parties i) (Receiver.none e.Not) (fun a => receiverFrom e i a (t.Nc a) (t.seed_sub_group a)) = .ok receiver :=
      each_ok.2 ⟨fun a ha => receiverFrom_ok.2 ⟨hr a ha, (ht a ha).1, (ht a ha).2.1⟩, hr0⟩
    have h2 : each (slots e.parties i) (Sender.none e.Not) (fun a => senderFrom e i a (t.msg a)) = .ok sender :=
      each_ok.2 ⟨fun a ha => senderFrom_ok.2 ⟨hs a ha, (ht a ha).2.2⟩, hs0⟩
    simp only at hGBF
    subst hGBF
    dsimp only
    rw [h1, ok_bind, h2, ok_bind]
    rfl

theorem aloneMerged_ok (hi : i < e.parties) {m : Merged κ e.Not} :
    aloneMerged e i t = .ok m ↔ MergedOk e i m ∧ StringsNamed e i m ∧ Takes i t m := by
  unfold aloneMerged
  constructor
  · intro h
    obtain ⟨o, ho, h⟩ := bind_ok h
    obtain ⟨_, hh, h⟩ := bind_ok h
    obtain ⟨func_recv, hf, h⟩ := bind_ok h
    obtain ⟨_, hn, h⟩ := bind_ok h
    cases h
    obtain ⟨hok, hg, hread⟩ := (aloneOpened_ok hi).1 ho
    obtain ⟨hf, hf0⟩ := each_ok.1 hf
    obtain ⟨_, hk, hr⟩ := (aloneAgreed_iff hi).1 hg
    refine ⟨⟨⟨hok, rfl, rfl, hashItems_ok.1 hh⟩, hf, fun a ha => ?_, hf0, fun a ha => if_neg (not_lt.2 ha), rfl⟩, findStrings_ok.1 hn,
      ⟨hk, hr, fun a ha => (hread a ha).1, fun a ha => (hread a ha).2.1, fun a ha => (hread a ha).2.2, fun a ha => if_pos ha⟩⟩
    change (if a < slots e.parties i then t.func a else []).length = e.Nbf
    rw [if_pos ha, t.func_length]
  · obtain ⟨⟨o, BF, h_kokhav⟩, func_recv, func_sender, shared⟩ := m
    rintro ⟨⟨⟨hok, hBF, hkk, hN⟩, hf, hlen, hf0, hs0, hshared⟩, hn, ht⟩
    have hsum : shared = fun j => if j < e.Nbf then o.GBF j + ∑ src ∈ producers (slots e.parties i),
        value ⟨BF, e.choiceStrings i, func_recv, e.strings i, func_sender⟩ src j else o.GBF j := hshared
    simp only at hBF hkk hs0
    subst hsum hBF hkk
    have hfs : func_sender = fun a => if a < slots e.parties i then t.func a else [] := by
      funext a
      by_cases ha : a < slots e.parties i
      · exact (ht.func_sender a ha).trans (if_pos ha).symm
      · exact (hs0 a (not_lt.1 ha)).trans (if_neg ha).symm
    subst hfs
    have ho : aloneOpened e i t = .ok o := (aloneOpened_ok hi).2 ⟨hok, (aloneAgreed_iff hi).2 ⟨hok.toAgreedOk, ht.keys_recv, ht.recv⟩,
      fun a ha => ⟨ht.Nc_recv a ha, ht.seed_recv a ha, ht.msg a ha⟩⟩
    have hfr : each (slots e.parties i) [] (fun a => arrangeTheIndexes none
        ((List.range e.Nbf).map (bloomBits e.aes o.seed e.Nbf e.seeds_num (e.items i))) (o.receiver a).zeros (o.receiver a).ones
        (o.receiver a).cut.indexes) = .ok func_recv := each_ok.2 ⟨hf, hf0⟩
    have hnames := findStrings_ok.2 hn
    rw [ho, ok_bind, hashItems_ok.2 hN, ok_bind]
    dsimp only
    rw [hfr, ok_bind]
    exact (congrArg (· >>= _) hnames).trans rfl

end Values

/-! ## The streams -/

section Streams

variable {e : Env κ} {i : ℕ} {t : Incoming e} {m : Merged κ e.Not} {l : ℕ → List Block}

/-- What a party has read in the end, `l` being the arrays of the Pi. -/
def finalRead (e : Env κ) (i : ℕ) (m : Merged κ e.Not) (l : ℕ → List Block) (d : Chan) : List (Atom κ) :=
  if i = 0 then endRead e i m l d else onlineRead e i m d

/-- And what it has written. -/
def finalSent (e : Env κ) (i : ℕ) (m : Merged κ e.Not) (G : ℕ → Block) (d : Chan) : List (Atom κ) :=
  if i = 0 then onlineSent e i m d else endSent e i m G d

theorem agreeRead_eq {g : Agreed κ} {d : Chan} (hk : g.keys_recv (place i d.src) = t.key (place i d.src))
    (hr : g.recv (place i d.src) = (t.commit (place i d.src), t.seed (place i d.src))) : agreeRead i g d = t.setUp i d := by
  unfold agreeRead keysRead Incoming.setUp
  rw [hk, hr]
  cases d.main <;> rfl

theorem finalRead_senderBack {a : ℕ} (ha : a < slots e.parties i) : finalRead e i m l (senderBack i a) =
    agreeRead i m.toAgreed (senderBack i a) ++
      ((ints [(m.sender a).msg.Nr] ++ ints (m.sender a).msg.R ++ blks [(m.sender a).msg.r]) ++ ints (m.func_sender a)) := by
  unfold finalRead endRead
  rw [apport_senderBack ha, List.append_nil, ite_self, onlineRead_senderBack ha]

theorem finalRead_receiverBack {a : ℕ} (ha : a < slots e.parties i) : finalRead e i m l (receiverBack i a) =
    agreeRead i m.toAgreed (receiverBack i a) ++
      (ints [(m.receiver a).Nc_recv] ++ blks [(m.receiver a).seed_recv] ++ if i = 0 then blks (l a) else []) := by
  unfold finalRead endRead
  rw [apport_receiverBack ha, onlineRead_receiverBack ha]
  split <;> simp

theorem finalRead_pi {d : Chan} (hs : d.src ≠ 0) (hd : i ≠ 0) : finalRead e i m l d = agreeRead i m.toAgreed d := by
  unfold finalRead onlineRead offlineRead apport
  rw [if_neg hd, if_pos ⟨hd, hs⟩, if_pos ⟨hd, hs⟩, List.append_nil, List.append_nil]

theorem on_senderBack {a : ℕ} (ha : a < slots e.parties i) : t.on i (senderBack i a) = t.setUp i (senderBack i a) ++
    (ints [(t.msg a).Nr] ++ ints (t.msg a).R ++ blks [(t.msg a).r] ++ ints (t.func a)) := by
  unfold Incoming.on
  rw [apport_senderBack ha]

theorem on_receiverBack {a : ℕ} (ha : a < slots e.parties i) : t.on i (receiverBack i a) = t.setUp i (receiverBack i a) ++
    (ints [t.Nc a] ++ blks [t.seed_sub_group a] ++ if i = 0 then blks (t.GBF a) else []) := by
  unfold Incoming.on
  rw [apport_receiverBack ha]

theorem on_pi {d : Chan} (hs : d.src ≠ 0) (hd : i ≠ 0) : t.on i d = t.setUp i d := by
  unfold Incoming.on apport
  rw [if_pos ⟨hd, hs⟩, List.append_nil]

/-- The values of a party that has read the beginning of the messages are those of the messages. -/
theorem takes_of_initial [DecidableEq κ] (hi : i < e.parties) (hm : MergedOk e i m) (hl : ∀ a, a < e.parties - 1 → (l a).length = e.Nbf)
    (h : ∀ d : Chan, d.Valid e.parties → d.dst = i → finalRead e i m l d <+: t.on i d) :
    Takes i t m ∧ (i = 0 → ∀ a, a < e.parties - 1 → l a = t.GBF a) := by
  -- the elements of the set-up come first, so the streams can be compared behind them
  have hset : ∀ q, q < e.parties → q ≠ i → m.keys_recv (place i q) = t.key (place i q) ∧
      m.recv (place i q) = (t.commit (place i q), t.seed (place i q)) := by
    intro q hq hne
    have hd := (setUp_valid hi hq hne).2
    have hpre := h _ hd rfl
    have heq : agreeRead i m.toAgreed ⟨q, i, true⟩ = t.setUp i ⟨q, i, true⟩ := by
      unfold Incoming.on finalRead endRead onlineRead offlineRead at hpre
      split at hpre <;> simp only [List.append_assoc] at hpre <;>
        exact (prefix_split hpre (by simp [agreeRead, keysRead, Incoming.setUp])).1
    exact agree_values heq
  have hag : ∀ d : Chan, d.Valid e.parties → d.dst = i → agreeRead i m.toAgreed d = t.setUp i d := fun d hd hdst =>
    agreeRead_eq (hset _ hd.src (by rw [← hdst]; exact hd.ne)).1 (hset _ hd.src (by rw [← hdst]; exact hd.ne)).2
  have hplace : ∀ slot, slot < e.parties - 1 → ∃ q, q < e.parties ∧ q ≠ i ∧ place i q = slot := fun slot hs => exists_place_eq hi hs
  have hsnd : ∀ a, a < slots e.parties i → (m.sender a).msg = t.msg a ∧ m.func_sender a = t.func a := by
    intro a ha
    have hd := senderBack_valid hi ha
    have hpre := h _ hd rfl
    rw [finalRead_senderBack ha, on_senderBack ha, hag _ hd rfl, List.prefix_append_right_inj] at hpre
    obtain ⟨hmsg, hf⟩ := msg_split hpre
    exact ⟨hmsg, ints_inj.1 (hf.eq_of_length (by rw [length_ints, length_ints, hm.func_sender a ha, t.func_length]))⟩
  have hrcv : ∀ a, a < slots e.parties i → (m.receiver a).Nc_recv = t.Nc a ∧ (m.receiver a).seed_recv = t.seed_sub_group a ∧
      (i = 0 → l a = t.GBF a) := by
    intro a ha
    have hd := receiverBack_valid hi ha
    have hpre := h _ hd rfl
    rw [finalRead_receiverBack ha, on_receiverBack ha, hag _ hd rfl, List.prefix_append_right_inj] at hpre
    obtain ⟨h1, h2⟩ := prefix_split hpre (by simp)
    obtain ⟨h1, h3⟩ := List.append_inj h1 (by simp)
    refine ⟨by simpa using ints_inj.1 h1, by simpa using blks_inj.1 h3, fun h0 => ?_⟩
    rw [if_pos h0, if_pos h0] at h2
    rw [slots, if_pos h0] at ha
    exact blks_inj.1 (h2.eq_of_length (by rw [length_blks, length_blks, hl a ha, t.GBF_length]))
  refine ⟨⟨fun slot hs => ?_, fun slot hs => ?_, fun a ha => (hrcv a ha).1, fun a ha => (hrcv a ha).2.1, fun a ha => (hsnd a ha).1,
    fun a ha => (hsnd a ha).2⟩, fun h0 a ha => (hrcv a (by rwa [slots, if_pos h0])).2.2 h0⟩
  · obtain ⟨q, hq, hne, rfl⟩ := hplace slot hs
    exact (hset q hq hne).1
  · obtain ⟨q, hq, hne, rfl⟩ := hplace slot hs
    exact (hset q hq hne).2

/-- And the messages are what they read in the end. -/
theorem finalRead_eq (hi : i < e.parties) (ht : Takes i t m) (hl : i = 0 → ∀ a, a < e.parties - 1 → l a = t.GBF a) {d : Chan}
    (hd : d.Valid e.parties) (hdst : d.dst = i) : finalRead e i m l d = t.on i d := by
  have hlt := place_lt hi hd.src (by rw [← hdst]; exact hd.ne)
  have hag := agreeRead_eq (t := t) (ht.keys_recv _ hlt) (ht.recv _ hlt)
  have hcases := chan_back_cases hd
  rw [hdst] at hcases
  rcases hcases with ⟨a, ha, rfl⟩ | ⟨a, ha, rfl⟩ | ⟨_, hs, hi0⟩
  · rw [finalRead_senderBack ha, on_senderBack ha, hag, ht.msg a ha, ht.func_sender a ha]
  · rw [finalRead_receiverBack ha, on_receiverBack ha, hag, ht.Nc_recv a ha, ht.seed_recv a ha]
    split
    · rename_i h0
      rw [hl h0 a (by rwa [slots, if_pos h0] at ha)]
    · rfl
  · rw [finalRead_pi hs hi0, on_pi hs hi0, hag]

end Streams

/-! ## The party computes the same -/

section Main

variable [DecidableEq κ] {e : Env κ} {i : ℕ} {t : Incoming e} {m : Merged κ e.Not} {G : ℕ → Block} {out : List ℤ}
variable {s : Alone Sock (Atom κ) (Party κ e.Not)}

/-- The party has read the messages `t`. -/
def Incoming.ReadIn (t : Incoming e) (i : ℕ) (s : Alone Sock (Atom κ) (Party κ e.Not)) : Prop :=
  ∀ d : Chan, d.Valid e.parties → d.dst = i → s.read (d.sock e.parties) = t.on i d

/-- The messages the values of a party are computed from. -/
theorem exists_takes (hm : MergedOk e i m) {l : ℕ → List Block} (hl : ∀ a, a < e.parties - 1 → (l a).length = e.Nbf) :
    ∃ t : Incoming e, Takes i t m ∧ ∀ a, a < e.parties - 1 → t.GBF a = l a := by
  refine ⟨⟨m.keys_recv, fun slot => (m.recv slot).1, fun slot => (m.recv slot).2, fun a => (m.receiver a).Nc_recv,
    fun a => (m.receiver a).seed_recv, fun a => (m.sender a).msg,
    fun a => if a < slots e.parties i then m.func_sender a else List.replicate e.Nbf 0,
    fun a => if a < e.parties - 1 then l a else List.replicate e.Nbf 0, fun a => ?_, fun a => ?_⟩,
    ⟨fun _ _ => rfl, fun _ _ => rfl, fun _ _ => rfl, fun _ _ => rfl, fun _ _ => rfl, fun a ha => (if_pos ha).symm⟩, fun a ha => if_pos ha⟩
  · split
    · rename_i ha
      exact hm.func_sender a ha
    · exact List.length_replicate
  · split
    · rename_i ha
      exact hl a ha
    · exact List.length_replicate

/-- At the end of a party: its values, and what it has read and written. -/
theorem exists_final (hs : PartyReaches e i s) (hdone : s.proc = .done m G out) : i < e.parties ∧ MergedOk e i m ∧ StringsNamed e i m ∧
    ∃ l : ℕ → List Block, (∀ a, a < e.parties - 1 → (l a).length = e.Nbf) ∧
      (G, out) = (if i = 0 then (m.total e l, getIntersection (e.items i) m.h_kokhav (m.total e l)) else (m.sent e i, [])) ∧
      Rest e.parties i (finalSent e i m G) (finalRead e i m l) s.wrote s.read := by
  have hinv := partyInv_of_party hs
  have hn := strings_named hs
  rw [hdone] at hinv hn
  obtain ⟨hi, hm, h0, hpi⟩ := hinv
  by_cases hi0 : i = 0
  · obtain ⟨l, hl, rfl, rfl, hr⟩ := h0 hi0
    refine ⟨hi, hm, hn, l, hl, (if_pos hi0).symm, ?_⟩
    have hsent : finalSent e i m (m.total e l) = onlineSent e i m := funext fun d => if_pos hi0
    have hread : finalRead e i m l = endRead e i m l := funext fun d => if_pos hi0
    rw [hsent, hread]
    exact hr
  · obtain ⟨rfl, rfl, hr⟩ := hpi hi0
    refine ⟨hi, hm, hn, fun _ => List.replicate e.Nbf 0, fun _ _ => List.length_replicate, (if_neg hi0).symm, ?_⟩
    have hsent : finalSent e i m (m.sent e i) = endSent e i m (m.sent e i) := funext fun d => if_neg hi0
    have hread : finalRead e i m (fun _ => List.replicate e.Nbf 0) = onlineRead e i m := funext fun d => if_neg hi0
    rw [hsent, hread]
    exact hr

omit [DecidableEq κ] in
/-- What an outcome has for a party. -/
theorem Outcome.read_eq (D : Outcome e) {d : Chan} (hd : d.dst = i) : D.read d = finalRead e i (D.merged i) D.lists d := by
  subst hd
  unfold Outcome.read finalRead
  split
  · rename_i h0
    rw [h0]
  · rfl

section OutcomeEnd

variable {D : Outcome e} (hG : (G, out) = if i = 0 then (D.total, D.out) else ((D.merged i).sent e i, []))

include hG

omit [DecidableEq κ] in
theorem Outcome.sent_eq {d : Chan} (hd : d.src = i) : D.sent d = finalSent e i (D.merged i) G d := by
  subst hd
  unfold Outcome.sent finalSent
  by_cases h0 : d.src = 0
  · rw [if_pos h0, if_pos h0, h0]
  · rw [if_neg h0] at hG
    cases hG
    rw [if_neg h0, if_neg h0]

omit [DecidableEq κ] in
theorem Outcome.final_eq (hi : i < e.parties) : D.final i = .done (D.merged i) G out := by
  unfold Outcome.final
  rw [if_pos hi]
  by_cases h0 : i = 0
  · subst h0
    cases hG
    rfl
  · rw [if_neg h0] at hG ⊢
    cases hG
    rfl

end OutcomeEnd

/-- And the other way around: with values that belong together a party that reads what they need never halts, and
can always come to its end with them. -/
theorem leads_done (hi : i < e.parties) (hm : MergedOk e i m) (hn : StringsNamed e i m) {l : ℕ → List Block}
    (hl : ∀ a, a < e.parties - 1 → (l a).length = e.Nbf)
    (hG : (G, out) = if i = 0 then (m.total e l, getIntersection (e.items i) m.h_kokhav (m.total e l)) else (m.sent e i, []))
    (hs : PartyReaches e i s) (hR : ∀ d : Chan, d.Valid e.parties → d.dst = i → s.read (d.sock e.parties) <+: finalRead e i m l d) :
    (∀ f, s.proc ≠ .halted f) ∧ Leads e i s (.done m G out) (finalSent e i m G) (finalRead e i m l) := by
  -- an outcome in which the values of the other parties are any
  let D : Outcome e := ⟨fun _ => m, l⟩
  have hG' : (G, out) = if i = 0 then (D.total, D.out) else ((D.merged i).sent e i, []) := by
    rw [hG]
    by_cases hi0 : i = 0
    · subst hi0
      rfl
    · rw [if_neg hi0, if_neg hi0]
  obtain ⟨hl', hlead⟩ := leads_of_reaches (D := D) ⟨hi, hm, hn, fun _ => hl⟩ hs fun d hd hdst => by
    rw [D.read_eq hdst]
    exact hR d hd hdst
  rw [Outcome.final_eq hG' hi] at hlead
  exact ⟨hl', hlead.congr hi (fun d hd => Outcome.sent_eq hG' hd) fun d hd => D.read_eq hd⟩

/-- In particular from the start. -/
theorem gets_final (hi : i < e.parties) (hm : MergedOk e i m) (hn : StringsNamed e i m) {l : ℕ → List Block}
    (hl : ∀ a, a < e.parties - 1 → (l a).length = e.Nbf)
    (hG : (G, out) = if i = 0 then (m.total e l, getIntersection (e.items i) m.h_kokhav (m.total e l)) else (m.sent e i, [])) :
    ∃ W R, PartyReaches e i ⟨.done m G out, W, R⟩ ∧ Rest e.parties i (finalSent e i m G) (finalRead e i m l) W R :=
  (leads_done hi hm hn hl hG .refl fun _ _ _ => List.nil_prefix).2.run

/-- Values that fit the same reads are the same. -/
theorem final_unique (hi : i < e.parties) {m' : Merged κ e.Not} (hm : MergedOk e i m) (hn : StringsNamed e i m) (hm' : MergedOk e i m')
    (hn' : StringsNamed e i m') {l l' : ℕ → List Block} (hl : ∀ a, a < e.parties - 1 → (l a).length = e.Nbf)
    (hl' : ∀ a, a < e.parties - 1 → (l' a).length = e.Nbf)
    (h : ∀ d : Chan, d.Valid e.parties → d.dst = i → finalRead e i m' l' d = finalRead e i m l d) :
    m' = m ∧ (i = 0 → ∀ a, a < e.parties - 1 → l' a = l a) := by
  obtain ⟨t, ht, hGBF⟩ := exists_takes hm hl
  obtain ⟨ht', hGBF'⟩ := takes_of_initial hi hm' hl' fun d hd hdst => by
    rw [h d hd hdst, finalRead_eq hi ht (fun _ a ha => (hGBF a ha).symm) hd hdst]
  refine ⟨Except.ok.inj (((aloneMerged_ok hi).2 ⟨hm', hn', ht'⟩).symm.trans ((aloneMerged_ok hi).2 ⟨hm, hn, ht⟩)), fun h0 a ha => ?_⟩
  rw [hGBF' h0 a ha, hGBF a ha]

/-- What a party at its end has read are messages. -/
theorem exists_incoming (hs : PartyReaches e i s) (hdone : s.proc = .done m G out) : ∃ t : Incoming e, t.ReadIn i s := by
  obtain ⟨hi, hm, _, l, hl, _, hrest⟩ := exists_final hs hdone
  obtain ⟨t, ht, hGBF⟩ := exists_takes hm hl
  exact ⟨t, fun d hd hdst => (((rest_iff hi).1 hrest).2 d hd hdst).trans (finalRead_eq hi ht (fun _ a ha => (hGBF a ha).symm) hd hdst)⟩

/-- A party at its end that has read the beginning of the messages has read all of them, and has what the program
returns. -/
theorem end_of_done (hs : PartyReaches e i s) (hdone : s.proc = .done m G out)
    (hR : ∀ d : Chan, d.Valid e.parties → d.dst = i → s.read (d.sock e.parties) <+: t.on i d) :
    aloneEnd e i t = .ok (m, G, out) ∧ t.ReadIn i s := by
  obtain ⟨hi, hm, hn, l, hl, hG, hrest⟩ := exists_final hs hdone
  have hread := ((rest_iff hi).1 hrest).2
  obtain ⟨ht, hGBF⟩ := takes_of_initial hi hm hl fun d hd hdst => (hread d hd hdst) ▸ hR d hd hdst
  refine ⟨?_, fun d hd hdst => (hread d hd hdst).trans (finalRead_eq hi ht hGBF hd hdst)⟩
  unfold aloneEnd
  rw [(aloneMerged_ok hi).2 ⟨hm, hn, ht⟩, ok_bind]
  refine congrArg (fun y => Except.ok (m, y)) ?_
  rw [hG]
  split
  · rename_i h0
    rw [total_congr (hGBF h0)]
  · rfl

/-- The values the program returns are those a party can have. -/
theorem values_of_end (hi : i < e.parties) (h : aloneEnd e i t = .ok (m, G, out)) : MergedOk e i m ∧ StringsNamed e i m ∧ Takes i t m ∧
    (G, out) = if i = 0 then (m.total e t.GBF, getIntersection (e.items i) m.h_kokhav (m.total e t.GBF)) else (m.sent e i, []) := by
  unfold aloneEnd at h
  obtain ⟨m', hm', h⟩ := bind_ok h
  obtain ⟨rfl, hG⟩ := Prod.mk.inj (Except.ok.inj h)
  obtain ⟨hok, hn, ht⟩ := (aloneMerged_ok hi).1 hm'
  exact ⟨hok, hn, ht, hG.symm⟩

/-- The party comes to its end having read the messages `t` exactly when the program returns for `t`, with what
it returns; and whenever it comes to its end it has read some such messages and has written what belongs to its
values. -/
theorem alone_iff (hi : i < e.parties) :
    (∀ t : Incoming e, ∀ x : Merged κ e.Not × (ℕ → Block) × List ℤ, aloneEnd e i t = .ok x ↔
      ∃ s, PartyReaches e i s ∧ s.proc = .done x.1 x.2.1 x.2.2 ∧ t.ReadIn i s) ∧
    ∀ s m G out, PartyReaches e i s → s.proc = .done m G out → (∃ t : Incoming e, t.ReadIn i s) ∧
      ∀ d : Chan, d.Valid e.parties → d.src = i → s.wrote (d.sock e.parties) = finalSent e i m G d := by
  constructor
  · rintro t ⟨m, G, out⟩
    constructor
    · intro h
      obtain ⟨hok, hn, ht, hG⟩ := values_of_end hi h
      obtain ⟨W, R, hs, hrest⟩ := gets_final hi hok hn (fun a _ => t.GBF_length a) hG
      refine ⟨_, hs, rfl, fun d hd hdst => ?_⟩
      exact (((rest_iff hi).1 hrest).2 d hd hdst).trans (finalRead_eq hi ht (fun _ _ _ => rfl) hd hdst)
    · rintro ⟨s, hs, hdone, hread⟩
      exact (end_of_done hs hdone fun d hd hdst => by rw [hread d hd hdst]).1
  · intro s m G out hs hdone
    obtain ⟨_, _, _, _, _, _, hrest⟩ := exists_final hs hdone
    exact ⟨exists_incoming hs hdone, ((rest_iff hi).1 hrest).1⟩

/-- For P0 among three parties that follow the program. -/
theorem alone_iff_three : ∃ (t : Incoming (uniform 3 (fun _ => [4, 7, 4]) fun _ _ => 0))
    (x : Merged Block 5 × (ℕ → Block) × List ℤ), aloneEnd (uniform 3 (fun _ => [4, 7, 4]) fun _ _ => 0) 0 t = .ok x := by
  obtain ⟨s, hs, hc⟩ := uniform_complete 3 (fun _ => [4, 7, 4]) fun _ _ => 0
  obtain ⟨m, G, out, hdone⟩ := hc 0 (by decide)
  have halone := alone_of_reaches partyInv_follows (fun _ => partyInv_start) hs 0
  obtain ⟨t, ht⟩ := ((alone_iff (by decide)).2 _ m G out halone hdone).1
  exact ⟨t, (m, G, out), ((alone_iff (by decide)).1 t (m, G, out)).2 ⟨_, halone, hdone, ht⟩⟩

end Main

end Mpsi
