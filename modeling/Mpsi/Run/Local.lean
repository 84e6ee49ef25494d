/-
Honest outcomes from what the instances compute by themselves: when every receiver has its values, every
sender accepts the message of its receiver and every filter can be arranged, the parties have an honest
outcome (`Instances.honest`), which their runs then all come to.

`uniform` are parties that all draw the same values; they have one for any number of parties and any items.
-/
import Mpsi.Run.Progress

namespace Mpsi

variable {κ : Type} {e : Env κ}

/-- The player whose values player `i` keeps at a place. -/
def other (i slot : ℕ) : ℕ := if slot < i then slot else slot + 1

theorem other_place {i q : ℕ} (hne : q ≠ i) : other i (place i q) = q := by
  unfold other place
  split <;> split <;> omega

/-- What the instances compute: the values of the receivers, and their functions. -/
structure Instances (e : Env κ) where
  receiver : ℕ → ℕ → Receiver e.Not
  func : ℕ → ℕ → List ℤ

namespace Instances

variable [DecidableEq κ] (c : Instances e)

/-- What party `i` has after the seeds agreement. -/
def agreed (e : Env κ) (i : ℕ) : Agreed κ :=
  let recv := fun slot =>
    if slot < e.parties - 1 then (e.commit (e.seed (other i slot)), e.seed (other i slot)) else (e.commit 0, 0)
  ⟨fun slot => if slot < e.parties - 1 then e.keys (other i slot) (place (other i slot) i) else 0, recv,
    xorSeeds e.parties (e.seed i) recv, commitsOk e.commit e.parties recv⟩

/-- After the offline phase. -/
def opened (i : ℕ) : Opened κ e.Not :=
  { agreed e i with
    GBF := if 2 < e.parties then
      secretSharingAes e.aes e.parties e.Nbf (e.keys i) (agreed e i).keys_recv (e.memory i) else e.memory i
    receiver := fun a => if a < slots e.parties i then c.receiver i a else Receiver.none e.Not
    sender := fun a => if a < slots e.parties i then
      ⟨(c.receiver (instPeer i a) (Env.peerSlot i)).sub_group, (c.receiver (instPeer i a) (Env.peerSlot i)).cut.message⟩
      else Sender.none e.Not }

/-- With the Bloom filter. -/
def filtered (i : ℕ) : Filtered κ e.Not :=
  { c.opened i with
    BF := (List.range e.Nbf).map (bloomBits e.aes (agreed e i).seed e.Nbf e.seeds_num (e.items i))
    h_kokhav := bloomSets e.aes (agreed e i).seed e.Nbf e.seeds_num (e.items i) }

/-- The functions of both roles. -/
def func_recv (i a : ℕ) : List ℤ := if a < slots e.parties i then c.func i a else []

def func_sender (i a : ℕ) : List ℤ := if a < slots e.parties i then c.func (instPeer i a) (Env.peerSlot i) else []

/-- What the segments of party `i` point to. -/
def data (i : ℕ) : Online := ⟨(c.filtered i).BF, e.choiceStrings i, c.func_recv i, e.strings i, c.func_sender i⟩

/-- After the online phase. -/
def merged (i : ℕ) : Merged κ e.Not :=
  { c.filtered i with
    func_recv := c.func_recv i
    func_sender := c.func_sender i
    shared := fun j => if j < e.Nbf then
      (c.opened i).GBF j + ∑ src ∈ producers (slots e.parties i), value (c.data i) src j else (c.opened i).GBF j }

def outcome : Outcome e := ⟨c.merged, fun a => (List.range e.Nbf).map ((c.merged (a + 1)).sent e (a + 1))⟩

/-- All checks succeed. -/
structure Ok : Prop where
  receiver : ∀ i a, i < e.parties → a < slots e.parties i → ReceiverOk e i a (c.receiver i a)
  sub_group : ∀ i a, i < e.parties → a < slots e.parties i → (c.receiver i a).Nc_recv = e.Nc ∧
    (c.receiver i a).seed_recv = e.seed_sub_group (instPeer i a) (Env.peerSlot i)
  accepts : ∀ i a, i < e.parties → a < slots e.parties i →
    Accepts none e.Nc e.maxOnes (e.peerStrings i a) (c.receiver i a).cut.message
  func : ∀ i a, i < e.parties → a < slots e.parties i →
    arrangeTheIndexes none (c.filtered i).BF (c.receiver i a).zeros (c.receiver i a).ones (c.receiver i a).cut.indexes = .ok (c.func i a)
  Nbf : ∀ i, i < e.parties → ∀ item ∈ e.items i,
    hashes e.aes (agreed e i).seed e.Nbf e.seeds_num item ≠ [] → e.Nbf ≠ 0

variable {c}

theorem agreedOk {i : ℕ} (hi : i < e.parties) : AgreedOk e i (agreed e i) := by
  have hno : ∀ slot, (∀ l ∈ links e.parties i, l.slot ≠ slot) → ¬ slot < e.parties - 1 := by
    intro slot h hlt
    obtain ⟨q, hq, hne, rfl⟩ := exists_place_eq hi hlt
    exact h _ ((mem_links hi).2 ⟨q, hq, hne, rfl⟩) rfl
  exact ⟨fun slot h => if_neg (hno slot h), fun slot h => if_neg (hno slot h), rfl, rfl⟩

/-- What is at the place of another player. -/
theorem agreed_place {i q : ℕ} (hi : i < e.parties) (hq : q < e.parties) (hne : q ≠ i) :
    (agreed e i).keys_recv (place i q) = e.keys q (place q i) ∧
      (agreed e i).recv (place i q) = (e.commit (e.seed q), e.seed q) := by
  have hlt := place_lt hi hq hne
  simp only [agreed, if_pos hlt, other_place hne, and_self]

theorem openedOk (h : c.Ok) {i : ℕ} (hi : i < e.parties) : OpenedOk e i (c.opened i) := by
  refine ⟨agreedOk hi, rfl, fun a ha => ?_, fun a ha => ?_, fun a ha => if_neg (not_lt.2 ha), fun a ha => if_neg (not_lt.2 ha)⟩
  · change ReceiverOk e i a (if a < slots e.parties i then c.receiver i a else _)
    rw [if_pos ha]
    exact h.receiver i a hi ha
  · obtain ⟨h1, h2, h3, h4⟩ := inst_peer hi ha
    obtain ⟨hNc, hseed⟩ := h.sub_group _ _ h1 h2
    have hrcv := (h.receiver _ _ h1 h2).sub_group
    have hacc := h.accepts _ _ h1 h2
    rw [h3, h4] at hseed
    rw [hNc, hseed] at hrcv
    rw [Env.peerStrings, h3, h4] at hacc
    change SenderOk e i a (if a < slots e.parties i then _ else _)
    rw [if_pos ha]
    exact ⟨hrcv, hacc⟩

theorem filteredOk (h : c.Ok) {i : ℕ} (hi : i < e.parties) : FilteredOk e i (c.filtered i) :=
  ⟨openedOk h hi, rfl, rfl, h.Nbf i hi⟩

theorem mergedOk (h : c.Ok) {i : ℕ} (hi : i < e.parties) : MergedOk e i (c.merged i) := by
  refine ⟨filteredOk h hi, fun a ha => ?_, fun a ha => ?_, fun a ha => if_neg (not_lt.2 ha), fun a ha => if_neg (not_lt.2 ha), rfl⟩
  · have hf := h.func i a hi ha
    change arrangeTheIndexes none _ (if a < slots e.parties i then c.receiver i a else _).zeros
      (if a < slots e.parties i then c.receiver i a else _).ones (if a < slots e.parties i then c.receiver i a else _).cut.indexes =
        .ok (if a < slots e.parties i then _ else _)
    rwa [if_pos ha, if_pos ha]
  · obtain ⟨h1, h2, _, _⟩ := inst_peer hi ha
    have hl := (indexFunc_of_receiver (h.receiver _ _ h1 h2) (h.func _ _ h1 h2)).length
    change (if a < slots e.parties i then _ else _ : List ℤ).length = _
    rw [if_pos ha, hl, length_BF (filteredOk h h1)]

/-- Parties whose checks succeed have an honest outcome. -/
theorem honest (h : c.Ok) : c.outcome.Honest := by
  have hsnd : ∀ {i a}, i < e.parties → a < slots e.parties i → Env.peerSlot i < slots e.parties (instPeer i a) :=
    fun hi ha => (inst_peer hi ha).2.1
  refine ⟨fun i hi => mergedOk h hi, fun i q hi hq hne => (agreed_place hi hq hne).1, fun i q hi hq hne => (agreed_place hi hq hne).2,
    fun i a hi ha => ?_, fun i a hi ha => ?_, fun i a hi ha => ?_, fun _ _ => rfl⟩
  · change (if a < slots e.parties i then c.receiver i a else _).Nc_recv = _ ∧
      (if a < slots e.parties i then c.receiver i a else _).seed_recv = _
    rw [if_pos ha]
    exact h.sub_group i a hi ha
  · obtain ⟨h1, h2, h3, h4⟩ := inst_peer hi ha
    change (if _ < slots e.parties _ then _ else _ : Sender e.Not).msg = (if a < slots e.parties i then c.receiver i a else _).cut.message
    rw [if_pos (hsnd hi ha), if_pos ha, h3, h4]
  · obtain ⟨h1, h2, h3, h4⟩ := inst_peer hi ha
    change (if _ < slots e.parties _ then _ else _ : List ℤ) = (if a < slots e.parties i then c.func i a else _)
    rw [if_pos (hsnd hi ha), if_pos ha, h3, h4]

end Instances

/-! ## Parties that draw the same values -/

section Uniform

variable {n : ℕ} {items : ℕ → List ℤ} {memory : ℕ → ℕ → Block} {i a : ℕ}

/-- Parties with one cell, five OTs in each instance and one of them opened. AES is constant, so all
items have the same hash, and the strings of a 0-position are zero, those of a 1-position too at a Pi. -/
def uniform (n : ℕ) (items : ℕ → List ℤ) (memory : ℕ → ℕ → Block) : Env Block where
  parties := n
  Nbf := 1
  Not := 5
  Nc := 1
  maxOnes := 0
  seeds_num := 1
  aes := fun _ _ => 0
  commit := id
  items := items
  keys := fun _ _ => 0
  seed := fun _ => 0
  bits := fun _ _ => [false, false, false, true, true]
  bits_length := fun _ _ => rfl
  strings := fun player _ => List.replicate 5 (0, if player = 0 then toBlock 0 1 else 0)
  strings_length := fun _ _ => rfl
  seed_sub_group := fun _ _ => 0
  rand := fun _ _ _ _ => 0
  draws := fun _ _ => toBlock 0 1
  memory := memory

/-- The receivers of `uniform`: position 0 is opened, the 0-positions outside are 1 and 2, the 1-positions 3 and 4. -/
def uniformReceiver : Receiver 5 :=
  ⟨1, 0, ⟨⟨[0], by simp⟩, by simp⟩, ⟨[4, 1, 2, 3, 0], [true, false, false, true, false], 0, [0]⟩, [2, 1], [3, 0]⟩

def uniformInstances (n : ℕ) (items : ℕ → List ℤ) (memory : ℕ → ℕ → Block) : Instances (uniform n items memory) :=
  ⟨fun _ _ => uniformReceiver, fun i _ => if (items i).isEmpty then [1] else [4]⟩

theorem uniform_hashes (seed : Block) (item : ℤ) : hashes (uniform n items memory).aes seed 1 1 item = [0] := rfl

theorem uniform_BF : ((uniformInstances n items memory).filtered i).BF = [!(items i).isEmpty] := by
  change [bloomBits _ _ 1 1 (items i) 0] = _
  unfold bloomBits
  simp only [uniform_hashes, List.mem_singleton, and_true]
  cases items i <;> simp

theorem uniform_cut (x : Block) : computeRr [0] (freshIndexes 5) [false, false, false, true, true] (5 : ℕ)
    (List.zipWith (fun s b => if b then s.2 else s.1) (List.replicate 5 ((0 : Block), x)) [false, false, false, true, true]) =
      .ok uniformReceiver.cut := by
  have hsort : ([0] : List ℕ).insertionSort (· ≥ ·) = [0] := rfl
  have hstr : List.zipWith (fun s b => if b then s.2 else s.1) (List.replicate 5 ((0 : Block), x)) [false, false, false, true, true] =
      [0, 0, 0, x, x] := rfl
  unfold computeRr
  rw [toBlock_zero, hsort, hstr]
  rfl

theorem uniform_sub_group : getSubGroup (fun _ _ => 0) 5 1 0 = .ok uniformReceiver.sub_group := rfl

theorem uniform_ok : (uniformInstances n items memory).Ok := by
  have h0 : (0 : ℤ) ≤ 1 := by decide
  have hfits : (1 : ℤ) ≤ 5 - 1 := by decide
  refine ⟨fun i a _ _ => ⟨h0, uniform_sub_group, hfits, uniform_cut _, rfl⟩, fun _ _ _ _ => ⟨rfl, rfl⟩, fun i a _ _ => ?_,
    fun i a _ _ => ?_, fun _ _ _ _ _ => one_ne_zero⟩
  · exact ⟨⟨0, ""⟩, rfl, rfl⟩
  · rw [uniform_BF]
    change arrangeTheIndexes none [!(items i).isEmpty] [2, 1] [3, 0] [4, 1, 2, 3, 0] = .ok (if (items i).isEmpty then [1] else [4])
    generalize (items i).isEmpty = v
    cases v <;> rfl

/-- They have an honest outcome. -/
theorem uniform_honest (n : ℕ) (items : ℕ → List ℤ) (memory : ℕ → ℕ → Block) : (uniformInstances n items memory).outcome.Honest :=
  Instances.honest uniform_ok

/-- All their runs come to the end. -/
theorem uniform_complete (n : ℕ) (items : ℕ → List ℤ) (memory : ℕ → ℕ → Block) :
    ∃ s, HonestReaches (uniform n items memory) s ∧ Complete s := by
  obtain ⟨s, _, hs, hc⟩ := exists_complete (uniform_honest n items memory) .refl
  exact ⟨s, hs, hc⟩

end Uniform

end Mpsi
