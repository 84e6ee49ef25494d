/-
What the phases of a party leave: the values belong together (`AgreedOk`, `OpenedOk`, `FilteredOk`,
`MergedOk`), and the streams are what `keysSent`, `agreeSent` and so on say. One lemma for each join:
from threads that have all returned to the rest before the next phase.
-/
import Mpsi.Run.Joins
import Mpsi.Run.Scripts

namespace Mpsi

open Thread Stream

variable {κ : Type} {e : Env κ} {i : ℕ} {W R : Sock → List (Atom κ)}

/-! ## Values that belong together -/

/-- An array filled by the links of player `i` has `d` at the places without a link. -/
def Filled {α : Type} (n i : ℕ) (d : α) (f : ℕ → α) : Prop := ∀ slot, (∀ l ∈ links n i, l.slot ≠ slot) → f slot = d

structure AgreedOk [DecidableEq κ] (e : Env κ) (i : ℕ) (g : Agreed κ) : Prop where
  keys_recv : Filled e.parties i 0 g.keys_recv
  recv : Filled e.parties i (e.commit 0, 0) g.recv
  seed : g.seed = xorSeeds e.parties (e.seed i) g.recv
  ok : g.ok = commitsOk e.commit e.parties g.recv

structure OpenedOk [DecidableEq κ] (e : Env κ) (i : ℕ) (o : Opened κ e.Not) : Prop extends AgreedOk e i o.toAgreed where
  GBF : o.GBF = if 2 < e.parties then secretSharingAes e.aes e.parties e.Nbf (e.keys i) o.keys_recv (e.memory i) else e.memory i
  receiver : ∀ a, a < slots e.parties i → ReceiverOk e i a (o.receiver a)
  sender : ∀ a, a < slots e.parties i → SenderOk e i a (o.sender a)
  noReceiver : ∀ a, slots e.parties i ≤ a → o.receiver a = Receiver.none e.Not
  noSender : ∀ a, slots e.parties i ≤ a → o.sender a = Sender.none e.Not

structure FilteredOk [DecidableEq κ] (e : Env κ) (i : ℕ) (b : Filtered κ e.Not) : Prop extends OpenedOk e i b.toOpened where
  BF : b.BF = (List.range e.Nbf).map (bloomBits e.aes b.seed e.Nbf e.seeds_num (e.items i))
  h_kokhav : b.h_kokhav = bloomSets e.aes b.seed e.Nbf e.seeds_num (e.items i)
  Nbf : ∀ item ∈ e.items i, hashes e.aes b.seed e.Nbf e.seeds_num item ≠ [] → e.Nbf ≠ 0

/-- What the segments of a party point to after the online phase. -/
def Merged.data (e : Env κ) (i : ℕ) (m : Merged κ e.Not) : Online :=
  ⟨m.BF, e.choiceStrings i, m.func_recv, e.strings i, m.func_sender⟩

structure MergedOk [DecidableEq κ] (e : Env κ) (i : ℕ) (m : Merged κ e.Not) : Prop extends FilteredOk e i m.toFiltered where
  func_recv : ∀ a, a < slots e.parties i →
    arrangeTheIndexes none m.BF (m.receiver a).zeros (m.receiver a).ones (m.receiver a).cut.indexes = .ok (m.func_recv a)
  func_sender : ∀ a, a < slots e.parties i → (m.func_sender a).length = e.Nbf
  noFunc_recv : ∀ a, slots e.parties i ≤ a → m.func_recv a = []
  noFunc_sender : ∀ a, slots e.parties i ≤ a → m.func_sender a = []
  shared : m.shared = fun j => if j < e.Nbf then m.GBF j + ∑ src ∈ producers (slots e.parties i), value (m.data e i) src j else m.GBF j

/-- The filter a Pi sends. -/
def Merged.sent (e : Env κ) (i : ℕ) (m : Merged κ e.Not) : ℕ → Block :=
  (reRandomization (e.draws i) m.h_kokhav (e.items i).length e.Nbf m.shared).GBF

/-- What P0 has in the end when it receives the arrays `l`. -/
def Merged.total (e : Env κ) (m : Merged κ e.Not) (l : ℕ → List Block) (c : ℕ) : Block :=
  m.shared c + ∑ a ∈ Finset.range (e.parties - 1), (l a).getD c 0

theorem filled_fillArray {α : Type} {n : ℕ} {v : Link → α} {d : α} : Filled n i d (fillArray n i v d) := by
  intro slot h
  unfold fillArray
  rw [List.find?_eq_none.2 fun l hl => by simpa using h l hl]

/-- A filled array is known by what it has for the other players. -/
theorem Filled.ext {α : Type} {n : ℕ} {d : α} {f g : ℕ → α} (hi : i < n) (hf : Filled n i d f) (hg : Filled n i d g)
    (h : ∀ q, q < n → q ≠ i → f (place i q) = g (place i q)) : f = g := by
  funext slot
  by_cases hs : ∃ l ∈ links n i, l.slot = slot
  · obtain ⟨l, hl, rfl⟩ := hs
    obtain ⟨q, hq, hne, rfl⟩ := (mem_links hi).1 hl
    exact h q hq hne
  · have hno : ∀ l ∈ links n i, l.slot ≠ slot := fun l hl he => hs ⟨l, hl, he⟩
    rw [hf slot hno, hg slot hno]

/-! ## The set-up -/

theorem keys_rest {P : Pool (Wire κ) Empty Unit Fault KeyResult} {v : ∀ a, KeyResult a} (hi : i < e.parties)
    (h : Threads e.parties i (keysStage e i) (fun _ => []) (fun _ => []) P W R) (hj : P.Joined v) :
    Rest e.parties i (keysSent e i) (keysRead i (fillArray e.parties i (fun l => v (.read l)) 0)) W R := by
  refine rest_of_setUp rfl hi h (fun q => blks [e.keys i (place i q)])
    (fun q => blks [fillArray e.parties i (fun l => v (.read l)) 0 (place i q)]) (fun _ => rfl) (fun _ => rfl)
    (fun q hq hne => ?_) fun q hq hne => ?_
  · have hs := h.ends hj (.write ⟨place i q, (Chan.mk i q true).sock e.parties⟩)
    rw [keysStage_write ((mem_links hi).2 ⟨q, hq, hne, rfl⟩)] at hs
    rw [ends_secretWrite.1 hs]
    simp
  · have hs := h.ends hj (.read ⟨place i q, (Chan.mk i q true).sock e.parties⟩)
    rw [keysStage_read ((mem_links hi).2 ⟨q, hq, hne, rfl⟩)] at hs
    rw [ends_secretRead.1 hs, fillArray_place hi hq hne]
    simp

/-- The variable `seed` stays as it is while the threads of the agreement run. -/
theorem agree_mem {S : Stage (Wire κ) Empty Block Fault Sock (SeedResult κ)} {mineW mineR : Sock → Prop}
    {bW bR : Sock → List (Atom κ)} {P : Pool (Wire κ) Empty Block Fault (SeedResult κ)} (h : S.Inv mineW mineR bW bR P W R) :
    P.mem = S.init ∧ ∀ a m, .load m ∈ P.hist a → m = S.init :=
  ⟨ran_init h.mem, fun a m hm => (h.loads a m hm).elim fun _ ho => ran_init ho⟩

theorem agree_rest [DecidableEq κ] {kr : ℕ → Block} {P : Pool (Wire κ) Empty Block Fault (SeedResult κ)} {v : ∀ a, SeedResult κ a}
    (hi : i < e.parties) (hkr : Filled e.parties i 0 kr)
    (h : Threads e.parties i (agreeStage e i) (keysSent e i) (keysRead i kr) P W R) (hj : P.Joined v) :
    AgreedOk e i (agreedOf e i kr P.mem v) ∧
      Rest e.parties i (agreeSent e i) (agreeRead i (agreedOf e i kr P.mem v)) W R := by
  obtain ⟨hmem, hloads⟩ := agree_mem h
  refine ⟨⟨hkr, filled_fillArray, by rw [hmem]; rfl, rfl⟩,
    rest_of_setUp rfl hi h (fun _ => coms [e.commit (e.seed i)] ++ blks [e.seed i])
      (fun q => coms [((agreedOf e i kr P.mem v).recv (place i q)).1] ++ blks [((agreedOf e i kr P.mem v).recv (place i q)).2])
      (fun _ => rfl) (fun _ => rfl) (fun q hq hne => ?_) fun q hq hne => ?_⟩
  · have hs := h.ends hj (.write ⟨place i q, (Chan.mk i q true).sock e.parties⟩)
    rw [agreeStage_write ((mem_links hi).2 ⟨q, hq, hne, rfl⟩)] at hs
    obtain ⟨m, hs⟩ := ends_seedsWrite.1 hs
    have hm := hloads _ m (by rw [hs]; simp)
    rw [hs, hm]
    simp [agreeStage]
  · have hs := h.ends hj (.read ⟨place i q, (Chan.mk i q true).sock e.parties⟩)
    rw [agreeStage_read ((mem_links hi).2 ⟨q, hq, hne, rfl⟩)] at hs
    rw [ends_seedsRead.1 hs, agreedOf]
    dsimp only
    rw [fillArray_place hi hq hne]
    simp

/-! ## The offline phase -/

/-- The array of `synchGBF` is filled once, whenever `secret_sharing_aes` runs. -/
theorem offline_mem {kr : ℕ → Block} {o : Offline → List Unit} {m : ℕ → Block} (h : (offlineStage e i kr).Ran o m) :
    (m = e.memory i ∧ ∀ a, o a = []) ∨
      (m = secretSharingAes e.aes e.parties e.Nbf (e.keys i) kr (e.memory i) ∧ ∃ a, o a ≠ []) := by
  induction h with
  | start => exact Or.inl ⟨rfl, fun _ => rfl⟩
  | @step o m a d m' _ hx ih =>
    have hm' : m' = secretSharingAes e.aes e.parties e.Nbf (e.keys i) kr m := (Except.ok.inj hx).symm
    refine Or.inr ⟨?_, a, by simp⟩
    rcases ih with ⟨rfl, _⟩ | ⟨rfl, _⟩
    · exact hm'
    · rw [hm', secretSharingAes_idem]

theorem offline_shares {kr : ℕ → Block} {w r : Chan → List (Atom κ)}
    {P : Pool (Wire κ) Unit (ℕ → Block) Fault (OfflineResult e.Not)} (h : Threads e.parties i (offlineStage e i kr) w r P W R)
    (hn : 2 < e.parties) (hr : P.ts .shares = .ret ()) :
    P.mem = secretSharingAes e.aes e.parties e.Nbf (e.keys i) kr (e.memory i) := by
  have hs := h.follow .shares
  rw [hr, show (offlineStage e i kr).prog .shares = _ from if_pos hn] at hs
  obtain ⟨_, hes, h'⟩ := ends_op.1 hs
  refine ((offline_mem h.mem).resolve_left fun hno => ?_).1
  have := hno.2 .shares
  rw [hes] at this
  simp at this

section OfflineEnds

variable {kr : ℕ → Block} {w r : Chan → List (Atom κ)} {P : Pool (Wire κ) Unit (ℕ → Block) Fault (OfflineResult e.Not)}
  {v : ∀ a, OfflineResult e.Not a} {a : ℕ}

theorem offline_receiver_ends (h : Threads e.parties i (offlineStage e i kr) w r P W R) (hj : P.Joined v)
    (ha : a < slots e.parties i) : Ends (offlineApportReceiver e i a) (P.hist (.receiver a)) (v (.receiver a)) := by
  have hs := h.ends hj (.receiver a)
  rwa [offlineStage_receiver ha] at hs

theorem offline_sender_ends (h : Threads e.parties i (offlineStage e i kr) w r P W R) (hj : P.Joined v)
    (ha : a < slots e.parties i) : Ends (offlineApportSender e i a) (P.hist (.sender a)) (v (.sender a)) := by
  have hs := h.ends hj (.sender a)
  rwa [offlineStage_sender ha] at hs

/-- Behind the last peer there is no receiver. -/
theorem offline_receiver_idle (h : Threads e.parties i (offlineStage e i kr) w r P W R) (hj : P.Joined v)
    (ha : slots e.parties i ≤ a) : P.hist (.receiver a) = [] ∧ v (.receiver a) = Receiver.none e.Not := by
  have hs := h.ends hj (.receiver a)
  rw [show (offlineStage e i kr).prog (.receiver a) = _ from if_neg (not_lt.2 ha)] at hs
  exact ends_ret.1 hs

/-- Nor a sender. -/
theorem offline_sender_idle (h : Threads e.parties i (offlineStage e i kr) w r P W R) (hj : P.Joined v)
    (ha : slots e.parties i ≤ a) : P.hist (.sender a) = [] ∧ v (.sender a) = Sender.none e.Not := by
  have hs := h.ends hj (.sender a)
  rw [show (offlineStage e i kr).prog (.sender a) = _ from if_neg (not_lt.2 ha)] at hs
  exact ends_ret.1 hs

/-- Only the thread of `secret_sharing_aes` writes to the array, and two parties have none. -/
theorem offline_ops_nil (h : Threads e.parties i (offlineStage e i kr) w r P W R) (hj : P.Joined v) (hn : ¬ 2 < e.parties)
    (x : Offline) : ops (P.hist x) = [] := by
  cases x with
  | receiver a =>
    by_cases hlt : a < slots e.parties i
    · rw [(ends_offlineApportReceiver.1 (offline_receiver_ends h hj hlt)).2]; rfl
    · rw [(offline_receiver_idle h hj (not_lt.1 hlt)).1]; rfl
  | sender a =>
    by_cases hlt : a < slots e.parties i
    · rw [(ends_offlineApportSender.1 (offline_sender_ends h hj hlt)).2]; rfl
    · rw [(offline_sender_idle h hj (not_lt.1 hlt)).1]; rfl
  | shares =>
    have hs := h.ends hj .shares
    rw [show (offlineStage e i kr).prog .shares = _ from if_neg hn] at hs
    rw [(ends_ret.1 hs).1]; rfl

theorem offline_memory [DecidableEq κ] (h : Threads e.parties i (offlineStage e i kr) w r P W R) (hj : P.Joined v) :
    P.mem = if 2 < e.parties then secretSharingAes e.aes e.parties e.Nbf (e.keys i) kr (e.memory i) else e.memory i := by
  by_cases hn : 2 < e.parties
  · rw [if_pos hn]
    exact offline_shares h hn (hj .shares)
  · rw [if_neg hn]
    refine ((offline_mem h.mem).resolve_right fun hno => ?_).1
    obtain ⟨x, hx⟩ := hno.2
    exact hx (offline_ops_nil h hj hn x)

end OfflineEnds

theorem offline_rest [DecidableEq κ] {g : Agreed κ} {P : Pool (Wire κ) Unit (ℕ → Block) Fault (OfflineResult e.Not)}
    {v : ∀ a, OfflineResult e.Not a} (hi : i < e.parties) (hg : AgreedOk e i g)
    (h : Threads e.parties i (offlineStage e i g.keys_recv) (agreeSent e i) (agreeRead i g) P W R) (hj : P.Joined v) :
    OpenedOk e i (openedOf g P.mem v) ∧
      Rest e.parties i (offlineSent e i (openedOf g P.mem v)) (offlineRead e i (openedOf g P.mem v)) W R := by
  have hrcv := fun a (ha : a < slots e.parties i) => ends_offlineApportReceiver.1 (offline_receiver_ends h hj ha)
  have hsnd := fun a (ha : a < slots e.parties i) => ends_offlineApportSender.1 (offline_sender_ends h hj ha)
  constructor
  · exact ⟨hg, offline_memory h hj, fun a ha => (hrcv a ha).1, fun a ha => (hsnd a ha).1,
      fun a ha => (offline_receiver_idle h hj ha).2, fun a ha => (offline_sender_idle h hj ha).2⟩
  · refine rest_of_inst hi h offline_out offline_inp
      (fun a => ints [(e.Nc : ℤ)] ++ blks [e.seed_sub_group i a])
      (fun a => ints [((v (.receiver a)).cut.R.length : ℤ)] ++ ints (v (.receiver a)).cut.R ++ blks [(v (.receiver a)).cut.r])
      (fun a => ints [(v (.sender a)).msg.Nr] ++ ints (v (.sender a)).msg.R ++ blks [(v (.sender a)).msg.r])
      (fun a => ints [(v (.receiver a)).Nc_recv] ++ blks [(v (.receiver a)).seed_recv])
      (fun _ => rfl) (fun _ => rfl) (fun a ha => ⟨?_, ?_⟩) fun a ha => ⟨?_, ?_⟩
    · change outs (P.hist (.sender a)) = _
      rw [(hsnd a ha).2]; simp
    · change outs (P.hist (.receiver a)) = _
      rw [(hrcv a ha).2]; simp
    · change ins (P.hist (.sender a)) = _
      rw [(hsnd a ha).2]; simp
    · change ins (P.hist (.receiver a)) = _
      rw [(hrcv a ha).2]; simp

/-! ## The Bloom filter -/

/-- Threads without streams leave them as they are. -/
theorem rest_of_none {δ σ ι : Type} {α : ι → Type} [DecidableEq ι] {S : Stage (Wire κ) δ σ Fault Sock α} {n : ℕ}
    {w r : Chan → List (Atom κ)} {P : Pool (Wire κ) δ σ Fault α} (hS : ∀ a, S.port a = ⟨none, none⟩)
    (h : Threads n i S w r P W R) : Rest n i w r W R :=
  ⟨fun _ hc => h.wrote.rest hc fun a => by rw [hS a]; nofun, fun _ hc => h.read.rest hc fun a => by rw [hS a]; nofun⟩

theorem bloom_rest [DecidableEq κ] {o : Opened κ e.Not} {P : Pool (Wire κ) BloomOp BloomMem Fault (fun _ : Fin 37 => Unit)}
    {v : Fin 37 → Unit} {w r : Chan → List (Atom κ)} (ho : OpenedOk e i o)
    (h : Threads e.parties i (bloomStage Sock e.aes o.seed e.Nbf e.seeds_num (e.items i)) w r P W R) (hj : P.Joined v) :
    FilteredOk e i (filteredOf e o P.mem) ∧ Rest e.parties i w r W R := by
  obtain ⟨hbits, hsets⟩ := bloom_mem_eq h.mem (bloom_all_ops (h.ends hj))
  refine ⟨⟨ho, ?_, hsets, fun item hitem hne => ?_⟩, rest_of_none (fun _ => rfl) h⟩
  · unfold filteredOf
    rw [hbits]
  · obtain ⟨k, hk⟩ := List.getElem?_of_mem hitem
    obtain ⟨a, h1, h2⟩ := exists_bf_thread (List.getElem?_eq_some_iff.1 hk).1
    exact bfThread_Nbf (h.ends hj a) h1 h2 hk hne

/-! ## The online phase -/

/-- The pipeline of the online phase with its producers' threads. -/
structure Piping (e : Env κ) (i : ℕ) (b : Filtered κ e.Not) (P : Pool (Wire κ) Empty Unit Fault (fun _ : Source => List ℤ))
    (pipe : Pipe Source) : Prop where
  begun : ∀ src, 0 < pipe.pc src → ∃ f, P.ts src = .ret f
  inv : PipeInv (producers (slots e.parties i)) e.Nbf (producers (slots e.parties i)).card (value (onlineData e i b.BF P)) b.GBF pipe
  outside : ∀ j, e.Nbf ≤ j → pipe.gbf j = b.GBF j

theorem piping_start {b : Filtered κ e.Not} {P : Pool (Wire κ) Empty Unit Fault (fun _ : Source => List ℤ)} :
    Piping e i b P (Pipe.start b.GBF) := ⟨fun _ h => absurd h (lt_irrefl 0), pipeInv_start, fun _ _ => rfl⟩

/-- A producer's function is the one it has returned. -/
theorem value_congr {BF : List Bool} {P P' : Pool (Wire κ) Empty Unit Fault (fun _ : Source => List ℤ)} {src : Source}
    (h : P'.ts src = P.ts src) : value (onlineData e i BF P') src = value (onlineData e i BF P) src := by
  funext j
  unfold value
  rcases src with ⟨a, _ | _⟩ <;> simp only [contribution, onlineData, h]

section Begun

variable {BF : List Bool} {receiver : ℕ → Receiver e.Not} {P P' : Pool (Wire κ) Empty Unit Fault (fun _ : Source => List ℤ)}
  {pipe : Pipe Source}

/-- A thread that goes on has not begun its pushes. -/
theorem begun_step (h : ∀ src, 0 < pipe.pc src → ∃ f, P.ts src = .ret f) {l : Label Sock (Atom κ)}
    (hst : (onlineStage e i BF receiver).Step P l P') (src : Source) (hpc : 0 < pipe.pc src) : ∃ f, P'.ts src = .ret f := by
  obtain ⟨f, hf⟩ := h src hpc
  exact ⟨f, step_ret hst hf⟩

/-- One that has returned can begin them. -/
theorem begun_begin (h : ∀ src, 0 < pipe.pc src → ∃ f, P.ts src = .ret f) {src : Source} {f : List ℤ} (hf : P.ts src = .ret f)
    (u : Source) (hu : 0 < (pipe.begin src).pc u) : ∃ f, P.ts u = .ret f := by
  by_cases hus : u = src
  · subst hus; exact ⟨f, hf⟩
  · exact h u (by simpa [Pipe.begin, hus] using hu)

end Begun

theorem Piping.threads {b : Filtered κ e.Not} {P P' : Pool (Wire κ) Empty Unit Fault (fun _ : Source => List ℤ)}
    {pipe : Pipe Source} (h : Piping e i b P pipe) {l} (hst : (onlineStage e i b.BF b.receiver).Step P l P') :
    Piping e i b P' pipe := by
  refine ⟨begun_step h.begun hst, h.inv.congr fun src hpc => value_congr ?_, h.outside⟩
  obtain ⟨f, hf⟩ := h.begun src hpc
  rw [hf, step_ret hst hf]

theorem Piping.begin {b : Filtered κ e.Not} {P : Pool (Wire κ) Empty Unit Fault (fun _ : Source => List ℤ)}
    {pipe : Pipe Source} {src : Source} {f : List ℤ} (h : Piping e i b P pipe) (hsrc : src ∈ producers (slots e.parties i))
    (hf : P.ts src = .ret f) (hpc : pipe.pc src = 0) : Piping e i b P (pipe.begin src) := by
  exact ⟨begun_begin h.begun hf, pipeInv_begin h.inv hsrc hpc, h.outside⟩

/-- No producer begins its pushes in the pipeline. -/
theorem pipeStep_begun {ι : Type} [DecidableEq ι] {Nbf num : ℕ} {contrib : ι → ℕ → Except Fault Block} {s t : Pipe ι}
    (hst : PipeStep Nbf num contrib s t) {u : ι} (hu : 0 < t.pc u) : 0 < s.pc u := by
  cases hst with
  | @push src k hpc | @notify src k hpc =>
    by_cases hus : u = src
    · subst hus; omega
    · simpa [hus] using hu
  | wait | block | wake | front | xor | xored | pop => exact hu

theorem Piping.pipe {b : Filtered κ e.Not} {P : Pool (Wire κ) Empty Unit Fault (fun _ : Source => List ℤ)}
    {pipe pipe' : Pipe Source} (h : Piping e i b P pipe)
    (hst : PipeStep e.Nbf (slots e.parties i * 2) (contribution none (onlineData e i b.BF P)) pipe pipe') :
    Piping e i b P pipe' := by
  rw [← card_producers] at hst
  exact ⟨fun u hu => h.begun u (pipeStep_begun hst hu),
    pipeInv_step h.inv (fun src _ j _ x hx => (value_of_ok hx).symm) hst,
    fun j hj => (pipeStep_outside h.inv hst hj).trans (h.outside j hj)⟩

theorem online_rest [DecidableEq κ] {b : Filtered κ e.Not} {P : Pool (Wire κ) Empty Unit Fault (fun _ : Source => List ℤ)}
    {pipe : Pipe Source} (hi : i < e.parties) (hb : FilteredOk e i b)
    (h : Threads e.parties i (onlineStage e i b.BF b.receiver) (offlineSent e i b.toOpened) (offlineRead e i b.toOpened) P W R)
    (hp : Piping e i b P pipe) (hpc : ∀ src ∈ producers (slots e.parties i), pipe.pc src = 9)
    (hd : pipe.Done (slots e.parties i * 2)) :
    MergedOk e i (mergedOf b P pipe.gbf) ∧
      Rest e.parties i (onlineSent e i (mergedOf b P pipe.gbf)) (onlineRead e i (mergedOf b P pipe.gbf)) W R := by
  -- a producer that has made its pushes has returned
  have hret : ∀ a r, a < slots e.parties i → Ends ((onlineStage e i b.BF b.receiver).prog (a, r)) (P.hist (a, r)) (returned (P.ts (a, r))) := by
    intro a r ha
    have hmem : (a, r) ∈ producers (slots e.parties i) := by
      cases r <;> simp [producers, ha]
    obtain ⟨f, hf⟩ := hp.begun (a, r) (by rw [hpc _ hmem]; omega)
    have hs := h.follow (a, r)
    rwa [hf] at hs ⊢
  -- behind the last peer there is no producer
  have hno : ∀ a r, slots e.parties i ≤ a → returned (P.ts (a, r)) = [] := by
    intro a r ha
    have hs := h.follow (a, r)
    have hprog : (onlineStage e i b.BF b.receiver).prog (a, r) = .ret [] := by
      cases r
      · exact if_neg (not_lt.2 ha)
      · exact if_neg (not_lt.2 ha)
    rw [hprog] at hs
    rw [(follow_ret.1 hs).2]
    rfl
  have hrcv := fun a (ha : a < slots e.parties i) => by
    have hs := hret a .receiver ha
    rw [onlineStage_receiver ha] at hs
    exact ends_onlineApportReceiver.1 hs
  have hsnd := fun a (ha : a < slots e.parties i) => by
    have hs := hret a .sender ha
    rw [onlineStage_sender ha] at hs
    exact ends_onlineApportSender.1 hs
  constructor
  · refine ⟨hb, fun a ha => (hrcv a ha).1, fun a ha => (hsnd a ha).1, fun a ha => hno a _ ha, fun a ha => hno a _ ha, ?_⟩
    rw [← card_producers] at hd
    funext j
    by_cases hj : j < e.Nbf
    · rw [if_pos hj]
      exact hp.inv.gbf_done hd hj
    · rw [if_neg hj]
      exact hp.outside j (not_lt.1 hj)
  · refine rest_of_inst hi h online_out online_inp (fun _ => []) (fun a => ints (returned (P.ts (a, .receiver))))
      (fun a => ints (returned (P.ts (a, .sender)))) (fun _ => []) (fun _ => rfl) (fun _ => rfl)
      (fun a ha => ⟨rfl, ?_⟩) fun a ha => ⟨?_, rfl⟩
    · change outs (P.hist (a, .receiver)) = _
      rw [(hrcv a ha).2]; simp
    · change ins (P.hist (a, .sender)) = _
      rw [(hsnd a ha).2]; simp

/-! ## Output -/

theorem collect_rest {m : Merged κ e.Not} {P : Pool (Wire κ) ChunkXor (ℕ → Block) Fault (fun _ : ℕ => Unit)} {v : ℕ → Unit}
    (hi : 0 < e.parties)
    (h : Threads e.parties 0 (collectStage e m.shared) (onlineSent e 0 m) (onlineRead e 0 m) P W R) (hj : P.Joined v) :
    ∃ l : ℕ → List Block, (∀ a, a < e.parties - 1 → (l a).length = e.Nbf) ∧ P.mem = m.total e l ∧
      Rest e.parties 0 (onlineSent e 0 m) (endRead e 0 m l) W R := by
  have hrcv : ∀ a, a < e.parties - 1 → ∃ l : List Block, l.length = e.Nbf ∧ ins (P.hist a) = blks l ∧
      outs (P.hist a) = [] ∧ ∀ c, addedAt (ops (P.hist a)) c = l.getD c 0 := fun a ha => by
    have hs := h.ends hj a
    rw [collectStage_prog ha] at hs
    exact getGbf_reads hs
  choose! l hlen hins houts hadd using hrcv
  refine ⟨l, hlen, ?_, ?_⟩
  · funext c
    have hno : ∀ a, a ∉ Finset.range (e.parties - 1) → ops (P.hist a) = [] := by
      intro a ha
      have hs := h.ends hj a
      rw [show (collectStage e m.shared).prog a = _ from if_neg (by simpa using ha)] at hs
      rw [(ends_ret.1 hs).1]; rfl
    rw [collect_ran rfl h.mem (Finset.range (e.parties - 1)) hno c, Merged.total]
    exact congrArg _ (Finset.sum_congr rfl fun a ha => hadd a (Finset.mem_range.1 ha) c)
  · exact rest_of_inst hi h collect_out collect_inp (fun _ => []) (fun _ => []) (fun _ => []) (fun a => blks (l a))
      (fun d => by rw [apport_nil, List.append_nil]) (fun _ => rfl) (fun a _ => ⟨rfl, rfl⟩) fun a ha => ⟨rfl, hins a ha⟩

end Mpsi
