/-
Conformance of all connections, byte by byte: the parties run over byte streams on which the operating
system splits every write and every read as it likes, P0 with any size of the chunks in which it takes the
GBFs.

A party keeps to the sessions of its streams through all phases (`talks_keeps`). So every read loop returns
what the write loop of its number was given at the other end, the GBFs in their pieces
(`channels_conform`). Honest parties come to the end over byte streams too (`exists_complete_bytes`).
-/
import Mpsi.Lib.Loops
import Mpsi.Run.Local
import Mpsi.Run.Sessions

namespace Mpsi

open Thread Stream

variable {κ : Type}

/-! ## Any chunk size -/

/-- Where `compute_gbf` begins, its threads read in chunks of that size. -/
def Party.chunked (chunk_size : ℕ) (e : Env κ) : Party κ e.Not → Party κ e.Not → Party κ e.Not
  | .collect m _, .online _ _ _ => .collect m (gbfStage chunk_size e m.shared).start
  | p, _ => p

/-- One step of a party whose `synchGBF` has chunks of any size. -/
def ChunkStep [DecidableEq κ] (chunk_size : ℕ) (e : Env κ) (player : ℕ) (p : Party κ e.Not) (l : Label Sock (Atom κ))
    (p' : Party κ e.Not) : Prop :=
  ∃ q, PStep e player p l q ∧ p' = q.chunked chunk_size e p

/-- With the chunk size of `main` these are the steps of a party. -/
theorem chunkStep_chunkSize [DecidableEq κ] {e : Env κ} : ChunkStep chunkSize e = PStep e := by
  funext i p l p'
  have hself : ∀ {q}, PStep e i p l q → q.chunked chunkSize e p = q := by
    intro q hst
    cases hst with
    | onlineJoin₀ => rfl
    | fault => rfl
    | _ => rfl
  refine propext ⟨?_, fun h => ⟨p', h, (hself h).symm⟩⟩
  rintro ⟨q, h, rfl⟩
  rw [hself h]
  exact h

/-- The states the parties can reach over byte streams when all of them follow the program. -/
def ByteReaches [DecidableEq κ] (L : Layout κ) (e : Env κ) (chunk_size : ℕ) :
    Loops.Net ℕ Sock (Atom κ) (Party κ e.Not) UInt8 → Prop :=
  Loops.Reaches L.bytes Fits (ChunkStep chunk_size e) (Party.start e)

/-! ## The parties -/

section Party

variable [DecidableEq κ] {L : Layout κ} {e : Env κ} {i cs : ℕ} {w r w' r' : Sock → Session UInt8} {p p' : Party κ e.Not}

/-- Party `i` keeps to the sessions of its streams, of which `w` and `r` are left. -/
def Talks (L : Layout κ) (e : Env κ) (chunk_size i : ℕ) : Party κ e.Not → (Sock → Session UInt8) → (Sock → Session UInt8) → Prop
  | .keys P, w, r => i < e.parties ∧ Speaking L e chunk_size i (keysStage e i) (agreeSession L e) P w r
  | .agree _ P, w, r => i < e.parties ∧ Speaking L e chunk_size i (agreeStage e i) (offlineSession e) P w r
  | .offline g P, w, r => i < e.parties ∧ Speaking L e chunk_size i (offlineStage e i g.keys_recv) (onlineSession e) P w r
  | .bloom _ _, w, r => i < e.parties ∧ Reached e chunk_size i (onlineSession e) w r
  | .online b P pipe, w, r => i < e.parties ∧ Speaking L e chunk_size i (onlineStage e i b.BF b.receiver) endSession P w r ∧
      ∀ src, 0 < pipe.pc src → ∃ f, P.ts src = .ret f
  | .collect m P, w, r => i < e.parties ∧ i = 0 ∧ Speaking L e chunk_size i (gbfStage chunk_size e m.shared) doneSession P w r
  | .sending _ _, w, r => i < e.parties ∧ i ≠ 0 ∧ Reached e chunk_size i endSession w r
  | .done _ _ _, w, r => i < e.parties ∧ Reached e chunk_size i doneSession w r
  | .halted _, _, _ => True
  | .idle, _, _ => e.parties ≤ i

omit [DecidableEq κ] in
theorem gbfStage_ported {G : ℕ → Block} (hi : 0 < e.parties) :
    (gbfStage cs e G).Ported (fun c => writer e.parties c = 0) (fun c => reader e.parties c = 0) :=
  ported_of_uses hi (@collect_out κ e G) (@collect_inp κ e G)

omit [DecidableEq κ] in
/-- The chunk size is in the programs of the threads, not in the steps of the stage. -/
theorem gbfStage_step {G : ℕ → Block} {P P' : Pool (Wire κ) ChunkXor (ℕ → Block) Fault (fun _ : ℕ => Unit)} {l : Label Sock (Atom κ)}
    (h : (collectStage e G).Step P l P') : (gbfStage cs e G).Step P l P' := by
  cases h with
  | out hm hc => exact .out hm hc
  | inp hm hc => exact .inp hm hc
  | load hm => exact .load hm
  | op hm hx => exact .op hm hx

omit [DecidableEq κ] in
theorem talks_start : Talks L e cs i (Party.start e i) (onSock e.parties (keysSession L e [16 * e.Nbf]))
    (onSock e.parties (keysSession L e (gbfPieces cs e.Nbf))) := by
  unfold Party.start
  split
  · rename_i hi
    exact ⟨hi, keys_begin hi⟩
  · rename_i hi
    exact not_lt.1 hi

omit [DecidableEq κ] in
theorem Talks.frame (h : Talks L e cs i p w r) (hw : ∀ c, writer e.parties c = i → w' c = w c)
    (hr : ∀ c, reader e.parties c = i → r' c = r c) : Talks L e cs i p w' r' := by
  cases p with
  | keys P => exact ⟨h.1, h.2.frame (keysStage_ported h.1) hw hr⟩
  | agree kr P => exact ⟨h.1, h.2.frame (agreeStage_ported h.1) hw hr⟩
  | offline g P => exact ⟨h.1, h.2.frame (ported_of_uses h.1 offline_out offline_inp) hw hr⟩
  | bloom o P => exact ⟨h.1, h.2.frame hw hr⟩
  | online b P pipe => exact ⟨h.1, h.2.1.frame (ported_of_uses h.1 online_out online_inp) hw hr, h.2.2⟩
  | collect m P =>
    obtain ⟨hi, rfl, hs⟩ := h
    exact ⟨hi, rfl, hs.frame (gbfStage_ported hi) hw hr⟩
  | sending m G => exact ⟨h.1, h.2.1, h.2.2.frame hw hr⟩
  | done m G out => exact ⟨h.1, h.2.frame hw hr⟩
  | halted f => trivial
  | idle => exact h

omit [DecidableEq κ] in
/-- Threads that have all returned leave the streams to the next phase. -/
theorem reached_of_joined {δ σ ι : Type} {α : ι → Type} {S : Stage (Wire κ) δ σ Fault Sock α} {f : List ℕ → Chan → Session UInt8}
    {P : Pool (Wire κ) δ σ Fault α} (h : Speaking L e cs i S f P w r)
    (hret : ∀ a, (S.port a).out ≠ none ∨ (S.port a).inp ≠ none → ∃ x, P.ts a = .ret x) : Reached e cs i f w r :=
  ⟨(h.joined hret).1, (h.joined hret).2⟩

omit [DecidableEq κ] in
/-- The producers of the online phase have returned before they begin their pushes. -/
theorem online_reached {b : Filtered κ e.Not} {P : Pool (Wire κ) Empty Unit Fault (fun _ : Source => List ℤ)} {pipe : Pipe Source}
    (h : Talks L e cs i (.online b P pipe) w r) (hpc : ∀ src ∈ producers (slots e.parties i), pipe.pc src = 9) :
    Reached e cs i endSession w r := by
  refine reached_of_joined h.2.1 fun src hsrc => h.2.2 src ?_
  rcases src with ⟨a, _ | _⟩
  · have ha : a < slots e.parties i := by
      by_contra ha
      simp [onlineStage, ha] at hsrc
    rw [hpc (a, .receiver) (by simp [producers, ha])]
    omega
  · have ha : a < slots e.parties i := by
      by_contra ha
      simp [onlineStage, ha] at hsrc
    rw [hpc (a, .sender) (by simp [producers, ha])]
    omega

/-! ## One step -/

theorem talks_tau (hNot : e.Not < 2 ^ 31) (h : Talks L e cs i p w r) (hst : ChunkStep cs e i p .tau p') : Talks L e cs i p' w r := by
  obtain ⟨q, hst, rfl⟩ := hst
  generalize hl : (Label.tau : Label Sock (Atom κ)) = lab at hst
  cases hst with
  | keys hs => subst hl; exact ⟨h.1, h.2.tau hs⟩
  | keysJoin hj =>
    have hr := reached_of_joined h.2 fun a _ => ⟨_, hj a⟩
    exact ⟨h.1, (agree_begin h.1).frame (agreeStage_ported h.1) hr.write hr.read⟩
  | agree hs => subst hl; exact ⟨h.1, h.2.tau hs⟩
  | agreeJoin hj =>
    have hr := reached_of_joined h.2 fun a _ => ⟨_, hj a⟩
    exact ⟨h.1, (offline_begin hNot h.1 _).frame (ported_of_uses h.1 offline_out offline_inp) hr.write hr.read⟩
  | offline hs => subst hl; exact ⟨h.1, h.2.tau hs⟩
  | offlineJoin hj => exact ⟨h.1, reached_of_joined h.2 fun a _ => ⟨_, hj a⟩⟩
  | bloom hs => exact h
  | @bloomJoin o P v hj =>
    have hBF : (filteredOf e o P.mem).BF.length = e.Nbf := by simp [filteredOf]
    refine ⟨h.1, (online_begin h.1 hBF _).frame (ported_of_uses h.1 online_out online_inp) h.2.write h.2.read, fun src hpc => ?_⟩
    exact absurd hpc (lt_irrefl 0)
  | online hs =>
    subst hl
    exact ⟨h.1, h.2.1.tau hs, begun_step h.2.2 hs⟩
  | begin _ hf _ => exact ⟨h.1, h.2.1, begun_begin h.2.2 hf⟩
  | pipe hs => exact ⟨h.1, h.2.1, fun u hu => h.2.2 u (pipeStep_begun hs hu)⟩
  | onlineJoin₀ h0 hpc _ =>
    subst h0
    have hr := online_reached h hpc
    exact ⟨h.1, rfl, (collect_begin h.1).frame (gbfStage_ported h.1) hr.write hr.read⟩
  | onlineJoin h0 hpc _ => exact ⟨h.1, h0, online_reached h hpc⟩
  | collect hs => subst hl; exact ⟨h.1, h.2.1, h.2.2.tau (gbfStage_step hs)⟩
  | output hj => exact ⟨h.1, reached_of_joined h.2.2 fun a _ => ⟨_, hj a⟩⟩
  | comulativeGbfPi => cases hl
  | fault hf => trivial

omit [DecidableEq κ] in
/-- After its GBF a Pi has nothing left to send. -/
theorem reached_sent (hi : i < e.parties) (h0 : i ≠ 0) (hr : Reached e cs i endSession w r) :
    writer e.parties (senderSock e.parties i 0) = i ∧ w (senderSock e.parties i 0) = .sizes [16 * e.Nbf] .stop ∧
      Reached e cs i doneSession (Function.update w (senderSock e.parties i 0) .stop) r := by
  have hd := senderChan_valid hi (a := 0) (by simp [slots, h0])
  have hw := writer_sock hd
  rw [senderSock_eq]
  refine ⟨hw, ?_, fun c hc => ?_, fun c hc => ?_⟩
  · rw [hr.write _ hw, onSock_sock hd, endSession, if_pos (by simp [carriesGbf_senderChan, h0])]
  · obtain ⟨d, hd', hs, rfl⟩ := exists_writer hi hc
    by_cases hg : d.carriesGbf = true
    · obtain ⟨_, hsnd⟩ := (carriesGbf_iff hd').1 hg
      rw [hs] at hsnd
      rw [hsnd, Function.update_self, onSock_sock hd]
      rfl
    · have hne : d.sock e.parties ≠ (senderChan i 0).sock e.parties := by
        intro he
        rw [sock_inj hd' hd he, carriesGbf_senderChan] at hg
        exact hg (by simp [h0])
      rw [Function.update_of_ne hne, hr.write _ hc, onSock_sock hd', onSock_sock hd', endSession, if_neg hg]
      rfl
  · -- and a Pi never reads a GBF
    obtain ⟨d, hd', hs, rfl⟩ := exists_reader hi hc
    have hg : ¬ d.carriesGbf = true := by
      simp [Chan.carriesGbf, hs, h0]
    rw [hr.read _ hc, onSock_sock hd', onSock_sock hd', endSession, if_neg hg]
    rfl

theorem talks_send {c : Sock} {l : List (Atom κ)} (h : Talks L e cs i p w r) (hst : ChunkStep cs e i p (.send c l) p') :
    writer e.parties c = i ∧ ∃ next, w c = .msg (L.bytes l).length next ∧
      Talks L e cs i p' (Function.update w c (next (L.bytes l))) r := by
  obtain ⟨q, hst, rfl⟩ := hst
  generalize hl : (Label.send c l : Label Sock (Atom κ)) = lab at hst
  cases hst with
  | keys hs =>
    subst hl
    obtain ⟨hw, next, hnext, ht⟩ := h.2.send (keysStage_ported h.1) hs
    exact ⟨hw, next, hnext, h.1, ht⟩
  | agree hs =>
    subst hl
    obtain ⟨hw, next, hnext, ht⟩ := h.2.send (agreeStage_ported h.1) hs
    exact ⟨hw, next, hnext, h.1, ht⟩
  | offline hs =>
    subst hl
    obtain ⟨hw, next, hnext, ht⟩ := h.2.send (ported_of_uses h.1 offline_out offline_inp) hs
    exact ⟨hw, next, hnext, h.1, ht⟩
  | bloom hs =>
    subst hl
    cases hs with
    | out _ hc => cases hc
  | online hs =>
    subst hl
    obtain ⟨hw, next, hnext, ht⟩ := h.2.1.send (ported_of_uses h.1 online_out online_inp) hs
    exact ⟨hw, next, hnext, h.1, ht, begun_step h.2.2 hs⟩
  | collect hs =>
    subst hl
    obtain ⟨hi, rfl, ht⟩ := h
    obtain ⟨hw, next, hnext, ht⟩ := ht.send (gbfStage_ported hi) (gbfStage_step hs)
    exact ⟨hw, next, hnext, hi, rfl, ht⟩
  | @comulativeGbfPi m G =>
    cases hl
    obtain ⟨hi, h0, hr⟩ := h
    obtain ⟨hw, hnext, hdone⟩ := reached_sent hi h0 hr
    refine ⟨hw, fun _ => .stop, ?_, hi, hdone⟩
    rw [hnext, L.length_blks, List.length_map, List.length_range]
    rfl
  | keysJoin | agreeJoin | offlineJoin | bloomJoin | begin | pipe | onlineJoin₀ | onlineJoin | output | fault => cases hl

theorem talks_recv {c : Sock} {l : List (Atom κ)} (h : Talks L e cs i p w r) (hst : ChunkStep cs e i p (.recv c l) p') (hl' : Fits l) :
    reader e.parties c = i ∧ ∃ next, r c = .msg (L.bytes l).length next ∧
      Talks L e cs i p' w (Function.update r c (next (L.bytes l))) := by
  obtain ⟨q, hst, rfl⟩ := hst
  generalize hl : (Label.recv c l : Label Sock (Atom κ)) = lab at hst
  cases hst with
  | keys hs =>
    subst hl
    obtain ⟨hr, next, hnext, ht⟩ := h.2.recv (keysStage_ported h.1) hs hl'
    exact ⟨hr, next, hnext, h.1, ht⟩
  | agree hs =>
    subst hl
    obtain ⟨hr, next, hnext, ht⟩ := h.2.recv (agreeStage_ported h.1) hs hl'
    exact ⟨hr, next, hnext, h.1, ht⟩
  | offline hs =>
    subst hl
    obtain ⟨hr, next, hnext, ht⟩ := h.2.recv (ported_of_uses h.1 offline_out offline_inp) hs hl'
    exact ⟨hr, next, hnext, h.1, ht⟩
  | bloom hs =>
    subst hl
    cases hs with
    | inp _ hc => cases hc
  | online hs =>
    subst hl
    obtain ⟨hr, next, hnext, ht⟩ := h.2.1.recv (ported_of_uses h.1 online_out online_inp) hs hl'
    exact ⟨hr, next, hnext, h.1, ht, begun_step h.2.2 hs⟩
  | collect hs =>
    subst hl
    obtain ⟨hi, rfl, ht⟩ := h
    obtain ⟨hr, next, hnext, ht⟩ := ht.recv (gbfStage_ported hi) (gbfStage_step hs) hl'
    exact ⟨hr, next, hnext, hi, rfl, ht⟩
  | comulativeGbfPi => cases hl
  | keysJoin | agreeJoin | offlineJoin | bloomJoin | begin | pipe | onlineJoin₀ | onlineJoin | output | fault => cases hl

theorem talks_keeps (hNot : e.Not < 2 ^ 31) :
    Loops.Keeps L.bytes Fits (ChunkStep cs e) (writer e.parties) (reader e.parties) (Talks L e cs) :=
  ⟨talks_tau hNot, talks_send, talks_recv, Talks.frame⟩

end Party

/-! ## Complete runs -/

section Complete

variable {κ : Type} {e : Env κ} [DecidableEq κ] {D : Outcome e} {d : Chan}

omit [DecidableEq κ] in
theorem fits_agreeSent {i : ℕ} : Fits (agreeSent e i d) := by
  unfold agreeSent keysSent
  split
  · simp
  · simp

section Fits

variable {a : ℕ}

/-- What a sender writes: its peer has taken the sub-group, so `Nc` is in its range. -/
theorem fits_sent_sender (hD : D.Honest) (hNot : e.Not < 2 ^ 31) (hi : i < e.parties) (ha : a < slots e.parties i) :
    Fits (D.sent (senderChan i a)) := by
  obtain ⟨h1, h2, h3, h4⟩ := inst_peer hi ha
  have hNc := (hD.sub_group _ _ h1 h2).1
  have hfit := ((hD.merged _ h1).receiver _ h2).fits
  rw [hNc] at hfit
  have hNc' : IsInt (e.Nc : ℤ) := isInt_of_le hNot (by omega)
  rw [sent_senderChan ha, onlineSent_senderChan ha]
  split
  · simp [fits_agreeSent, hNc']
  · simp [fits_agreeSent, hNc']

/-- What a receiver writes: indexes of the sub-group, their number and those of the function. -/
theorem fits_sent_receiver (hD : D.Honest) (hNot : e.Not < 2 ^ 31) (hi : i < e.parties) (ha : a < slots e.parties i) :
    Fits (D.sent (receiverChan i a)) := by
  have hr := (hD.merged _ hi).receiver _ ha
  have hf := indexFunc_of_merged (hD.merged _ hi) ha
  obtain ⟨st, hst, hres⟩ := computeRr_eq ((D.merged i).receiver a).sub_group (e.bits_length i a) (e.choiceStrings_length i a)
  obtain rfl := Except.ok.inj (hst.symm.trans hr.cut)
  have hR : ∀ z ∈ ((D.merged i).receiver a).cut.R, IsInt z := by
    intro z hz
    rw [hres.R] at hz
    obtain ⟨t, ht, rfl⟩ := mem_ofNats.1 hz
    exact isInt_of_le hNot (SubGroup.lt _ t (mem_sortedDown.1 (mem_zeroPositions.1 ht).1)).le
  have hfunc : ∀ z ∈ (D.merged i).func_recv a, IsInt z := by
    intro z hz
    obtain ⟨j, hj⟩ := List.mem_iff_getElem?.1 hz
    have hlt : j < (D.merged i).BF.length := by
      rw [← hf.length]
      exact (List.getElem?_eq_some_iff.1 hj).1
    obtain ⟨t, ht, htn, _⟩ := hf.entry j hlt
    rw [hj] at ht
    obtain rfl := Option.some.inj ht
    exact isInt_of_le hNot htn.le
  rw [sent_receiverChan ha, onlineSent_receiverChan ha]
  have hNr : IsInt ((D.merged i).receiver a).cut.message.Nr := isInt_of_le hNot (length_R_le hr.cut)
  simp only [fits_append, fits_ints, fits_blks, fits_agreeSent, List.mem_singleton, forall_eq]
  exact ⟨trivial, ⟨⟨hNr, hR⟩, trivial⟩, hfunc⟩

end Fits

/-- The `int`s that honest parties send are values of the type. -/
theorem fits_sent (hD : D.Honest) (hNot : e.Not < 2 ^ 31) (hd : d.Valid e.parties) : Fits (D.sent d) := by
  rcases chan_cases hd with ⟨a, ha, hda⟩ | ⟨a, ha, hda⟩ | ⟨_, h1, h2⟩
  · rw [hda]
    exact fits_sent_sender hD hNot hd.src ha
  · rw [hda]
    exact fits_sent_receiver hD hNot hd.src ha
  · have hs : D.sent d = agreeSent e d.src d := by
      unfold Outcome.sent
      rw [if_neg h1, endSent, onlineSent, offlineSent, apport_pi h1 h2, apport_pi h1 h2, apport_pi h1 h2]
      simp
    rw [hs]
    exact fits_agreeSent

/-- Honest parties that have an outcome have a run over byte streams that comes to the end of `main`. -/
theorem exists_complete_bytes (L : Layout κ) (hD : D.Honest) (hNot : e.Not < 2 ^ 31) :
    ∃ t, ByteReaches L e chunkSize t ∧ ∀ i, i < e.parties → ∃ m G out, t.proc i = .done m G out := by
  obtain ⟨s, _, hs, hc⟩ := exists_complete hD .refl
  have hfits : ∀ c, Fits (s.sent c) := by
    intro c
    refine Fits.mono ?_ ((expected_of_honest hD hs).2.sent c).isInfix
    unfold onChan
    split
    · rename_i d hd
      exact fits_sent hD hNot (sock_of_decode hd).1
    · exact fits_nil
  obtain ⟨t, ht, hq⟩ := Loops.exists_quiet L.bytes_append hs fun c l hl => (hfits c).mono hl
  refine ⟨t, ?_, fun i hi => ?_⟩
  · unfold ByteReaches
    rwa [chunkStep_chunkSize]
  · rw [hq.proc]
    exact hc i hi

end Complete

/-- Commitments that are blocks. -/
def blockLayout : Layout Block where
  size := 16
  com :=
    { toFun := fun b => ⟨blockBytes b, length_numBytes 16 _⟩
      invFun := fun v => bufBlock v.toList
      left_inv := bufBlock_blockBytes
      right_inv := fun v => Subtype.ext (blockBytes_bufBlock v.2) }

/-! ## Conformance -/

/-- The messages of a stream as its read loops take them: the GBF, which comes third on its stream, in the
pieces of `get_gbf`. -/
def Chan.pieces (d : Chan) (chunk_size Nbf : ℕ) (ms : List (List UInt8)) : List (List UInt8) :=
  if d.carriesGbf then Session.cut 2 (gbfPieces chunk_size Nbf) ms else ms

/-- The stream `x` of `d` conforms: the write loops are given messages of the sizes both ends expect; the `k`-th read
loop to come to its end has returned the `k`-th message of the write loops as it was given, and if there is
none yet the read loop was one for no bytes; every byte handed over has been returned, is in the buffer of
the running read loop or in flight, in this order; and when both parties have come to the end of `main`,
no loop is running, all messages have been returned, and nothing is left. -/
structure Conforms (L : Layout κ) (e : Env κ) (chunk_size : ℕ) (s : Loops.Net ℕ Sock (Atom κ) (Party κ e.Not) UInt8) (d : Chan)
    (x : Loops.Line (Atom κ) UInt8) : Prop where
  format : ∃ rest, (keysSession L e [16 * e.Nbf] d).after (x.begun L.bytes) = some rest
  loops : ∀ (k : ℕ) (m : List UInt8), x.returned[k]? = some m →
    (d.pieces chunk_size e.Nbf (x.begun L.bytes))[k]? = some m ∨ m = [] ∧ (d.pieces chunk_size e.Nbf (x.begun L.bytes))[k]? = none
  bytes : x.handed L.bytes = x.returned.flatten ++ x.buffer ++ x.wire
  ends : (∃ m G out, s.proc d.src = .done m G out) → (∃ m G out, s.proc d.dst = .done m G out) →
    x.out = none ∧ x.inp = none ∧ x.returned = d.pieces chunk_size e.Nbf x.written ∧ x.wire = []

section Conforms

variable {L : Layout κ} {e : Env κ} {cs : ℕ} {d : Chan}

/-- The stream of a GBF has it after two messages of fixed sizes. -/
theorem keysSession_gbf {n : ℕ} (hd : d.Valid n) (hg : d.carriesGbf = true) (gbf : List ℕ) :
    keysSession L e gbf d = .sizes ([4, 16] ++ gbf) .stop := by
  obtain ⟨h0, hsnd⟩ := (carriesGbf_iff hd).1 hg
  have hrole : d.role = some .sender := by rw [hsnd, role_senderChan]
  have hmain : d.main = false := by
    simp only [Chan.carriesGbf, Bool.and_eq_true, Bool.not_eq_true'] at hg
    exact hg.2
  rw [Session.sizes_append]
  simp [keysSession, agreeSession, offlineSession, onlineSession, endSession, hmain, hrole, hg]

/-- On the other streams both ends have one session. -/
theorem keysSession_of_not (hg : ¬ d.carriesGbf = true) (gbf gbf' : List ℕ) : keysSession L e gbf d = keysSession L e gbf' d := by
  have hend : endSession gbf d = endSession gbf' d := by rw [endSession, endSession, if_neg hg, if_neg hg]
  simp only [keysSession, agreeSession, offlineSession, onlineSession, hend]

theorem parts_pieces {n : ℕ} (hd : d.Valid n) : Loops.Parts (d.pieces cs e.Nbf) (keysSession L e [16 * e.Nbf] d)
    (keysSession L e (gbfPieces cs e.Nbf) d) := by
  by_cases hg : d.carriesGbf = true
  · rw [keysSession_gbf hd hg, keysSession_gbf hd hg, ← sum_gbfPieces cs e.Nbf]
    have hp : d.pieces cs e.Nbf = Session.cut 2 (gbfPieces cs e.Nbf) := by
      funext ms
      exact if_pos hg
    rw [hp]
    refine ⟨fun h => ?_, fun h => ?_⟩
    · have hcut := Session.cut_after h
      exact hcut.1
    · have hcut := Session.cut_after h
      exact hcut.2
  · rw [keysSession_of_not hg [16 * e.Nbf] (gbfPieces cs e.Nbf)]
    have hp : d.pieces cs e.Nbf = id := by
      funext ms
      exact if_neg hg
    rw [hp]
    exact Loops.parts_self

/-- Every stream between two parties conforms in every state the parties can reach, however the threads take
their turns and the operating system splits the writes and the reads. `Not` is an `int` of the program. -/
theorem channels_conform [DecidableEq κ] {s : Loops.Net ℕ Sock (Atom κ) (Party κ e.Not) UInt8} (hNot : e.Not < 2 ^ 31)
    (h : ByteReaches L e cs s) (hd : d.Valid e.parties) : Conforms L e cs s d (s.line (d.sock e.parties)) := by
  obtain ⟨w, r, hg⟩ := Loops.good_of_reaches (talks_keeps hNot) (fun _ => talks_start) h
  have hf := hg.flow (d.sock e.parties)
  rw [onSock_sock hd, onSock_sock hd] at hf
  refine ⟨hf.begun, fun k m hm => hf.loops (parts_pieces hd) hm, hf.bytes, ?_⟩
  rintro ⟨m, G, out, hsrc⟩ ⟨m', G', out', hdst⟩
  -- parties that have come to the end have nothing left of their sessions
  have hw := hg.inv d.src
  rw [hsrc] at hw
  have hr := hg.inv d.dst
  rw [hdst] at hr
  have hstop : w (d.sock e.parties) = .stop := by
    rw [hw.2.write _ (writer_sock hd), onSock_sock hd]
    rfl
  have hstop' : r (d.sock e.parties) = .stop := by
    rw [hr.2.read _ (reader_sock hd), onSock_sock hd]
    rfl
  rw [hstop, hstop'] at hf
  exact hf.finished (parts_pieces hd)

end Conforms

/-- Three parties to the end of `main`, and the stream of a GBF. -/
theorem channels_conform_three : ∃ s : Loops.Net ℕ Sock (Atom Block) (Party Block (uniform 3 (fun _ => [0]) fun _ _ => 0).Not) UInt8,
    ByteReaches blockLayout (uniform 3 (fun _ => [0]) fun _ _ => 0) chunkSize s ∧
      Conforms blockLayout (uniform 3 (fun _ => [0]) fun _ _ => 0) chunkSize s ⟨1, 0, false⟩ (s.line ((⟨1, 0, false⟩ : Chan).sock 3)) ∧
      (s.line ((⟨1, 0, false⟩ : Chan).sock 3)).wire = [] := by
  have hNot : (uniform 3 (fun _ => [0]) fun _ _ => 0).Not < 2 ^ 31 := by decide
  obtain ⟨s, hs, hc⟩ := exists_complete_bytes blockLayout (uniform_honest 3 (fun _ => [0]) fun _ _ => 0) hNot
  have hconf : Conforms blockLayout (uniform 3 (fun _ => [0]) fun _ _ => 0) chunkSize s ⟨1, 0, false⟩
      (s.line ((⟨1, 0, false⟩ : Chan).sock 3)) := channels_conform hNot hs ⟨by decide, by decide, by decide, by decide⟩
  exact ⟨s, hs, hconf, (hconf.ends (hc 1 (by decide)) (hc 0 (by decide))).2.2.2⟩

end Mpsi
