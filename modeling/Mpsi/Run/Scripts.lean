/-
What each thread has done when it returns: the values it has computed with, and the messages it has
written and read, in order.
-/
import Mpsi.Run.Threads

namespace Mpsi

open Thread

variable {κ : Type} {e : Env κ} {i a : ℕ}

theorem ends_secretRead {es} {v : Block} : Ends (secretRead (κ := κ)) es v ↔ es = [.inp (blks [v])] := by
  apply (ends_getBlock (f := .ret)).trans
  simp only [ends_ret]
  constructor
  · rintro ⟨_, _, h, h', hv⟩
    rw [h, h', hv]
  · intro h
    exact ⟨v, [], h, rfl, rfl⟩

theorem ends_secretWrite {key : Block} {es} {v : Unit} :
    Ends (secretWrite (κ := κ) key) es v ↔ es = [.out (blks [key])] := by
  simp only [secretWrite, ends_putBlocks, Prog.pure_eq, ends_ret]
  constructor
  · rintro ⟨_, h, h', _⟩
    rw [h, h']
  · intro h
    exact ⟨[], h, rfl, trivial⟩

theorem ends_seedsRead {es} {v : κ × Block} : Ends seedsRead es v ↔ es = [.inp (coms [v.1]), .inp (blks [v.2])] := by
  simp only [seedsRead, ends_getCommit, ends_getBlock, Prog.pure_eq, ends_ret]
  constructor
  · rintro ⟨_, _, rfl, _, _, rfl, rfl, rfl⟩; rfl
  · rintro rfl; exact ⟨_, _, rfl, _, _, rfl, rfl, rfl⟩

theorem ends_seedsWrite {commit : κ} {es} {v : Unit} :
    Ends (seedsWrite commit) es v ↔ ∃ m, es = [.out (coms [commit]), .load m, .out (blks [m])] := by
  simp only [seedsWrite, Prog.loadMem, ends_putCommit, Prog.load_bind, Prog.ret_bind, ends_load, ends_putBlocks,
    Prog.pure_eq, ends_ret]
  constructor
  · rintro ⟨_, rfl, m, _, rfl, _, rfl, rfl, _⟩; exact ⟨m, rfl⟩
  · rintro ⟨m, rfl⟩; exact ⟨_, rfl, m, _, rfl, _, rfl, rfl, trivial⟩

/-- The values of an instance as a receiver belong together. -/
structure ReceiverOk (e : Env κ) (i a : ℕ) (r : Receiver e.Not) : Prop where
  nonneg : 0 ≤ r.Nc_recv
  sub_group : getSubGroup e.aes e.Not r.Nc_recv.toNat r.seed_recv = .ok r.sub_group
  fits : r.Nc_recv ≤ e.Not - e.Nbf
  cut : computeRr r.sub_group.elems (freshIndexes e.Not) (e.bits i a) e.Not (e.choiceStrings i a) = .ok r.cut
  vectors : getZerosOnes r.cut.b e.Not r.Nc_recv.toNat (e.rand i a false) (e.rand i a true) = .ok (r.zeros, r.ones)

theorem checkIfToAbort_code {Nc Not Nbf : ℤ} : (checkIfToAbort Nc Not Nbf).code = 0 ↔ Nc ≤ Not - Nbf := by
  unfold checkIfToAbort
  split <;> simp <;> omega

theorem ends_offlineApportReceiver {es} {r : Receiver e.Not} : Ends (offlineApportReceiver e i a) es r ↔
    ReceiverOk e i a r ∧ es = [.inp (ints [r.Nc_recv]), .inp (blks [r.seed_recv]), .out (ints [(r.cut.R.length : ℤ)]),
      .out (ints r.cut.R), .out (blks [r.cut.r])] := by
  simp only [offlineApportReceiver, ends_getInt, ends_lift_bind, ends_getBlock]
  constructor
  · rintro ⟨Nc, _, rfl, _, hNc, seed, _, rfl, C, hC, h⟩
    split at h
    · rename_i hfit
      simp only [ends_lift_bind, ends_putInts, ends_putBlocks, Prog.pure_eq, ends_ret] at h
      obtain ⟨cut, hcut, _, rfl, _, rfl, _, rfl, arr, harr, rfl, rfl⟩ := h
      exact ⟨⟨newArray_ok.1 hNc, hC, checkIfToAbort_code.1 hfit, hcut, harr⟩, rfl⟩
    · exact absurd h ends_fail
  · rintro ⟨h, rfl⟩
    refine ⟨_, _, rfl, (), newArray_ok.2 h.nonneg, _, _, rfl, r.sub_group, h.sub_group, ?_⟩
    rw [if_pos (checkIfToAbort_code.2 h.fits)]
    simp only [ends_lift_bind, ends_putInts, ends_putBlocks, Prog.pure_eq, ends_ret]
    exact ⟨r.cut, h.cut, _, rfl, _, rfl, _, rfl, (r.zeros, r.ones), h.vectors, rfl, rfl⟩

/-- The values of an instance as a sender belong together. -/
structure SenderOk (e : Env κ) (i a : ℕ) (s : Sender e.Not) : Prop where
  sub_group : getSubGroup e.aes e.Not e.Nc (e.seed_sub_group i a) = .ok s.sub_group
  accepts : Accepts none e.Nc e.maxOnes (e.strings i a) s.msg

theorem ends_offlineApportSender {es} {s : Sender e.Not} : Ends (offlineApportSender e i a) es s ↔
    SenderOk e i a s ∧ es = [.out (ints [(e.Nc : ℤ)]), .out (blks [e.seed_sub_group i a]), .inp (ints [s.msg.Nr]),
      .inp (ints s.msg.R), .inp (blks [s.msg.r])] := by
  simp only [offlineApportSender, ends_lift_bind, ends_putInts, ends_putBlocks, ends_getInt, ends_getInts, ends_getBlock]
  constructor
  · rintro ⟨C, hC, _, rfl, _, rfl, Nr, _, rfl, _, hNr, R, _, rfl, r, _, rfl, v, hv, h⟩
    split at h
    · exact absurd h ends_fail
    · rename_i hcode
      simp only [Prog.pure_eq, ends_ret] at h
      obtain ⟨rfl, rfl⟩ := h
      refine ⟨⟨hC, v, ?_, not_not.1 hcode⟩, rfl⟩
      unfold recvRChecked
      rw [hNr, ok_bind]
      exact hv
  · rintro ⟨⟨hC, v, hv, hcode⟩, rfl⟩
    obtain ⟨_, hNr, hv⟩ := bind_ok hv
    refine ⟨_, hC, _, rfl, _, rfl, _, _, rfl, (), hNr, ⟨s.msg.R, s.msg.len⟩, _, rfl, _, _, rfl, v, hv, ?_⟩
    rw [if_neg (not_not.2 hcode)]
    exact ends_ret.2 ⟨rfl, rfl⟩

theorem ends_onlineApportReceiver {Not : ℕ} {BF : List Bool} {rcv : Receiver Not} {es} {f : List ℤ} :
    Ends (onlineApportReceiver (κ := κ) BF rcv) es f ↔
      arrangeTheIndexes none BF rcv.zeros rcv.ones rcv.cut.indexes = .ok f ∧ es = [.out (ints f)] := by
  simp only [onlineApportReceiver, ends_lift_bind, ends_putInts, Prog.pure_eq, ends_ret]
  constructor
  · rintro ⟨f, hf, _, rfl, rfl, rfl⟩; exact ⟨hf, rfl⟩
  · rintro ⟨hf, rfl⟩; exact ⟨f, hf, _, rfl, rfl, rfl⟩

theorem ends_onlineApportSender {Nbf : ℕ} {es} {f : List ℤ} :
    Ends (onlineApportSender (κ := κ) Nbf) es f ↔ f.length = Nbf ∧ es = [.inp (ints f)] := by
  simp only [onlineApportSender, ends_getInts, Prog.pure_eq, ends_ret]
  constructor
  · rintro ⟨x, _, rfl, rfl, rfl⟩; exact ⟨x.2, rfl⟩
  · rintro ⟨hf, rfl⟩; exact ⟨⟨f, hf⟩, _, rfl, rfl, rfl⟩

/-! ## The threads of the phases -/

section Phases

variable {player slot : ℕ} {l : Link} {keys_recv : ℕ → Block} {BF : List Bool} {receiver : ℕ → Receiver e.Not} {GBF : ℕ → Block}

theorem keysStage_read (h : l ∈ links e.parties player) : (keysStage e player).prog (.read l) = secretRead := if_pos h

theorem keysStage_write (h : l ∈ links e.parties player) :
    (keysStage e player).prog (.write l) = secretWrite (e.keys player l.slot) := if_pos h

theorem agreeStage_read (h : l ∈ links e.parties player) : (agreeStage e player).prog (.read l) = seedsRead := if_pos h

theorem agreeStage_write (h : l ∈ links e.parties player) :
    (agreeStage e player).prog (.write l) = seedsWrite (e.commit (e.seed player)) := if_pos h

theorem offlineStage_receiver (h : slot < slots e.parties player) :
    (offlineStage e player keys_recv).prog (.receiver slot) = offlineApportReceiver e player slot := if_pos h

theorem offlineStage_sender (h : slot < slots e.parties player) :
    (offlineStage e player keys_recv).prog (.sender slot) = offlineApportSender e player slot := if_pos h

theorem onlineStage_receiver (h : slot < slots e.parties player) :
    (onlineStage e player BF receiver).prog (slot, .receiver) = onlineApportReceiver BF (receiver slot) := if_pos h

theorem onlineStage_sender (h : slot < slots e.parties player) :
    (onlineStage e player BF receiver).prog (slot, .sender) = onlineApportSender e.Nbf := if_pos h

theorem collectStage_prog (h : slot < e.parties - 1) : (collectStage e GBF).prog slot = getGbf chunkSize e.Nbf := if_pos h

end Phases

end Mpsi
