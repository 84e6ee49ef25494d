/-
How far the parties can be apart, and what a party gives away before its checks. Nothing in `main` waits for
another party but the reads, so these are all that keeps the phases in step: a party goes on only when the
others have written what it reads, whether or not they have stopped since (`phases_in_step`). P0 prints nothing
before every Pi has come to its end.

Whatever the others send, a party writes no more than the offline phase needs before all its checks have passed,
for all instances, and its answers are those to the sub-groups it has read; a Pi does not write its array before
its end (`reveals_after_checks`).
-/
import Mpsi.Run.Local
import Mpsi.Protocol.SetUp

namespace Mpsi

open Thread Stream

variable {κ : Type} {e : Env κ} {i j : ℕ} {W R : Sock → List (Atom κ)}

/-! ## What the threads of the offline phase can write -/

/-- What a receiver writes for a sub-group that passes its check: the cut of its choice strings. -/
def Answer (e : Env κ) (i slot : ℕ) (Nc_recv : ℤ) (seed_recv : Block) (w : List (Atom κ)) : Prop :=
  ∃ (sub_group : SubGroup e.Not) (cut : RrState), 0 ≤ Nc_recv ∧ Nc_recv ≤ e.Not - e.Nbf ∧
    getSubGroup e.aes e.Not Nc_recv.toNat seed_recv = .ok sub_group ∧
    computeRr sub_group.elems (freshIndexes e.Not) (e.bits i slot) e.Not (e.choiceStrings i slot) = .ok cut ∧
    w = ints [(cut.R.length : ℤ)] ++ ints cut.R ++ blks [cut.r]

theorem says_offlineApportReceiver (slot : ℕ) : Says (offlineApportReceiver e i slot) fun r w =>
    w = [] ∨ ∃ Nc_recv seed_recv, r = ints [Nc_recv] ++ blks [seed_recv] ∧ Answer e i slot Nc_recv seed_recv w := by
  -- until the cut is made nothing is written
  refine says_get ⟨[], Or.inl rfl⟩ fun Nc => says_lift_bind ⟨[], Or.inl rfl⟩ fun _ hNc => ?_
  refine says_get ⟨[], Or.inl rfl⟩ fun seed => says_lift_bind ⟨[], Or.inl rfl⟩ fun C hC => ?_
  split
  · rename_i hcode
    refine says_lift_bind ⟨[], Or.inl rfl⟩ fun cut hcut => says_put (says_put (says_put ?_))
    have hans : Answer e i slot Nc.head seed.head (ints [(cut.R.length : ℤ)] ++ (ints cut.R ++ (blks [cut.r] ++ []))) :=
      ⟨C, cut, newArray_ok.1 hNc, checkIfToAbort_code.1 hcode, hC, hcut, by simp⟩
    have hread : ints Nc.toList ++ (blks seed.toList ++ []) = (ints [Nc.head] ++ blks [seed.head] : List (Atom κ)) := by
      rw [vector_one Nc, vector_one seed, List.append_nil]
      rfl
    exact says_lift_bind ⟨[], Or.inr ⟨_, _, hread, hans⟩⟩ fun _ _ => says_ret ⟨[], Or.inr ⟨_, _, hread, hans⟩⟩
  · exact says_fail ⟨[], Or.inl rfl⟩

theorem says_offlineApportSender (slot : ℕ) : Says (offlineApportSender e i slot) fun _ l =>
    l = ints [(e.Nc : ℤ)] ++ blks [e.seed_sub_group i slot] := by
  have hS : ∃ l : List (Atom κ), l = ints [(e.Nc : ℤ)] ++ blks [e.seed_sub_group i slot] := ⟨_, rfl⟩
  have hsent : ∃ l : List (Atom κ), ints [(e.Nc : ℤ)] ++ (blks [e.seed_sub_group i slot] ++ l) =
      ints [(e.Nc : ℤ)] ++ blks [e.seed_sub_group i slot] := ⟨[], by simp⟩
  refine says_lift_bind hS fun _ _ => says_put (says_put ?_)
  refine says_get hsent fun _ => says_lift_bind hsent fun _ _ => says_get hsent fun _ => says_get hsent fun _ =>
    says_lift_bind hsent fun _ _ => ?_
  split
  · exact says_fail hsent
  · exact says_ret hsent

/-! ## What a party has written, and what it has read -/

section Bounds

variable [DecidableEq κ]

omit [DecidableEq κ] in
theorem keys_written {P : Pool (Wire κ) Empty Unit Fault KeyResult}
    (h : Threads e.parties i (keysStage e i) (fun _ => []) (fun _ => []) P W R) (hi : i < e.parties) {d : Chan}
    (hd : d.Valid e.parties) (hs : d.src = i) : W (d.sock e.parties) <+: keysSent e i d := by
  obtain ⟨p, q, m⟩ := d
  obtain rfl : p = i := hs
  cases m with
  | true => exact keys_wrote hi h hd.dst hd.ne.symm
  | false =>
    rw [setUp_grown_out hi h.wrote hd rfl, onChan_sock hd]
    exact List.nil_prefix

omit [DecidableEq κ] in
theorem agree_written {kr : ℕ → Block} {P : Pool (Wire κ) Empty Block Fault (SeedResult κ)}
    (h : Threads e.parties i (agreeStage e i) (keysSent e i) (keysRead i kr) P W R) (hi : i < e.parties) {d : Chan}
    (hd : d.Valid e.parties) (hs : d.src = i) : W (d.sock e.parties) <+: agreeSent e i d := by
  obtain ⟨p, q, m⟩ := d
  obtain rfl : p = i := hs
  rw [setUp_grown_out hi h.wrote hd rfl, onChan_sock hd]
  refine (List.prefix_append_right_inj _).2 ?_
  cases m with
  | true =>
    have hf := h.follow (.write ⟨place p q, (Chan.mk p q true).sock e.parties⟩)
    rw [agreeStage_write ((mem_links hi).2 ⟨q, hd.dst, hd.ne.symm, rfl⟩)] at hf
    exact outs_seedsWrite hf fun m hm => (agree_mem h).2 _ m hm
  | false => exact List.nil_prefix

/-- Before the offline phase a party has written no more than the agreement needs. -/
theorem PartyInv.written_agree {p : Party κ e.Not} (h : PartyInv e i p W R) (hr : p.rank ≤ 1) {d : Chan}
    (hd : d.Valid e.parties) (hs : d.src = i) : W (d.sock e.parties) <+: agreeSent e i d := by
  cases p with
  | keys P => exact (keys_written h.2 h.1 hd hs).trans (List.prefix_append _ _)
  | agree kr P => exact agree_written h.2.2 h.1 hd hs
  | idle => exact absurd (hs ▸ hd.src) (not_lt.2 h)
  | offline | bloom | online | collect | sending | done | halted => simp [Party.rank] at hr

/-- What a party has written in an instance as its receiver: nothing, or the answer to the sub-group it has read. -/
def Replies (e : Env κ) (i : ℕ) (R : Sock → List (Atom κ)) (a : ℕ) (w : List (Atom κ)) : Prop :=
  w = [] ∨ ∃ g Nc_recv seed_recv, Answer e i a Nc_recv seed_recv w ∧
    agreeRead i g (receiverBack i a) ++ (ints [Nc_recv] ++ blks [seed_recv]) <+: R ((receiverBack i a).sock e.parties)

/-- What the offline phase writes, when `w` are the answers of the receivers. -/
def answered (e : Env κ) (i : ℕ) (w : ℕ → List (Atom κ)) (d : Chan) : List (Atom κ) :=
  agreeSent e i d ++ apport i d.dst d.main (fun a => ints [(e.Nc : ℤ)] ++ blks [e.seed_sub_group i a]) w

/-- The streams carry no more of the party than the offline phase needs. -/
def Unrevealed (e : Env κ) (i : ℕ) (W R : Sock → List (Atom κ)) : Prop :=
  ∃ w, (∀ a, a < slots e.parties i → Replies e i R a (w a)) ∧
    ∀ d : Chan, d.Valid e.parties → d.src = i → W (d.sock e.parties) <+: answered e i w d

omit [DecidableEq κ] in
/-- An answer is a message as its sender reads it. -/
theorem Replies.message {a : ℕ} {w : List (Atom κ)} (h : Replies e i R a w) :
    w = [] ∨ ∃ m : RMessage, w = ints [m.Nr] ++ ints m.R ++ blks [m.r] := by
  refine h.imp_right ?_
  rintro ⟨_, _, _, ⟨_, cut, _, _, _, _, rfl⟩, _⟩
  exact ⟨cut.message, rfl⟩

omit [DecidableEq κ] in
theorem apport_initial {d : Chan} (hd : d.Valid e.parties) (hs : d.src = i) {snd rcv snd' rcv' : ℕ → List (Atom κ)}
    (h1 : ∀ a, a < slots e.parties i → snd a <+: snd' a) (h2 : ∀ a, a < slots e.parties i → rcv a <+: rcv' a) :
    apport i d.dst d.main snd rcv <+: apport i d.dst d.main snd' rcv' := by
  rcases chan_cases hd with ⟨a, ha, he⟩ | ⟨a, ha, he⟩ | ⟨_, hsrc, hdst⟩
  · rw [hs] at ha he
    rw [he, apport_sender ha, apport_sender ha]
    exact h1 a ha
  · rw [hs] at ha he
    rw [he, apport_receiver ha, apport_receiver ha]
    exact h2 a ha
  · rw [apport_pi (hs ▸ hsrc) hdst]
    exact List.nil_prefix

omit [DecidableEq κ] in
theorem offline_unrevealed {kr : ℕ → Block} {g : Agreed κ} {P : Pool (Wire κ) Unit (ℕ → Block) Fault (OfflineResult e.Not)}
    (h : Threads e.parties i (offlineStage e i kr) (agreeSent e i) (agreeRead i g) P W R) (hi : i < e.parties) : Unrevealed e i W R := by
  have hrcv : ∀ a, a < slots e.parties i → ∃ w, Replies e i R a w ∧ outs (P.hist (.receiver a)) <+: w := by
    intro a ha
    have hf := h.follow (.receiver a)
    rw [offlineStage_receiver ha] at hf
    obtain ⟨w, hw, hout⟩ := says_offlineApportReceiver a _ _ hf
    refine ⟨w, hw.imp_right ?_, hout⟩
    rintro ⟨Nc, seed, hread, hans⟩
    have hd := receiverBack_valid hi ha
    refine ⟨g, Nc, seed, hans, ?_⟩
    -- the thread is the only reader of its stream
    rw [inst_grown_inp hi h.read offline_inp hd rfl, onChan_sock hd, apport_receiverBack ha, ← hread]
    exact List.prefix_rfl
  have hsnd : ∀ a, a < slots e.parties i → outs (P.hist (.sender a)) <+: ints [(e.Nc : ℤ)] ++ blks [e.seed_sub_group i a] := by
    intro a ha
    have hf := h.follow (.sender a)
    rw [offlineStage_sender ha] at hf
    obtain ⟨_, rfl, hm⟩ := says_offlineApportSender a _ _ hf
    exact hm
  choose! w hw hout using hrcv
  refine ⟨w, hw, fun d hd hs => ?_⟩
  rw [inst_grown_out hi h.wrote offline_out hd hs, onChan_sock hd]
  exact (List.prefix_append_right_inj _).2 (apport_initial hd hs hsnd hout)

/-- Before the online phase a party has written no more than the offline phase needs. -/
theorem PartyInv.unrevealed {p : Party κ e.Not} (h : PartyInv e i p W R) (hr : p.rank ≤ 3) : Unrevealed e i W R := by
  have hsetUp : p.rank ≤ 1 → Unrevealed e i W R := fun hr =>
    ⟨fun _ => [], fun _ _ => Or.inl rfl, fun d hd hs => (h.written_agree hr hd hs).trans (List.prefix_append _ _)⟩
  cases p with
  | keys | agree => exact hsetUp (by simp [Party.rank])
  | offline g P => exact offline_unrevealed h.2.2 h.1
  | bloom o P =>
    refine ⟨fun a => ints [((o.receiver a).cut.R.length : ℤ)] ++ ints (o.receiver a).cut.R ++ blks [(o.receiver a).cut.r],
      fun a ha => Or.inr ?_, fun d hd hs => ?_⟩
    · have hok := h.2.1.receiver a ha
      have hread := h.2.2.read_initial (receiverBack_valid h.1 ha) rfl
      rw [offlineRead, apport_receiverBack ha] at hread
      exact ⟨o.toAgreed, _, _, ⟨_, _, hok.nonneg, hok.fits, hok.sub_group, hok.cut, rfl⟩, hread⟩
    · have hw := h.2.2.wrote.rest (by rw [writer_sock hd, hs]) fun a ha => by cases ha
      rw [hw, onChan_sock hd]
      exact List.prefix_rfl
  | idle => exact ⟨fun _ => [], fun _ _ => Or.inl rfl, fun d hd hs => absurd (hs ▸ hd.src) (not_lt.2 h)⟩
  | online | collect | sending | done | halted => simp [Party.rank] at hr

/-- From the collection on a party has read the functions. -/
theorem PartyInv.read_online {p : Party κ e.Not} (h : PartyInv e i p W R) (hl : ∀ f, p ≠ .halted f) (hi : i < e.parties)
    (hr : 5 ≤ p.rank) :
    ∃ m, MergedOk e i m ∧ ∀ d : Chan, d.Valid e.parties → d.dst = i → onlineRead e i m d <+: R (d.sock e.parties) := by
  cases p with
  | collect m P => exact ⟨m, h.2.2.1, fun d hd hs => h.2.2.2.read_initial hd hs⟩
  | sending m G =>
    refine ⟨m, h.2.2.1, fun d hd hs => ?_⟩
    rw [((rest_iff hi).1 h.2.2.2.2).2 d hd hs]
  | done m G out =>
    refine ⟨m, h.2.1, fun d hd hs => ?_⟩
    by_cases h0 : i = 0
    · obtain ⟨l, _, _, _, hr⟩ := h.2.2.1 h0
      rw [((rest_iff hi).1 hr).2 d hd hs]
      exact List.prefix_append _ _
    · rw [((rest_iff hi).1 (h.2.2.2 h0).2.2).2 d hd hs]
  | halted f => exact absurd rfl (hl f)
  | idle => exact absurd hi (not_lt.2 h)
  | keys | agree | offline | bloom | online => simp [Party.rank] at hr

/-- From the Bloom filter on it has read what the offline phase reads. -/
theorem PartyInv.read_offline {p : Party κ e.Not} (h : PartyInv e i p W R) (hl : ∀ f, p ≠ .halted f) (hi : i < e.parties)
    (hr : 3 ≤ p.rank) :
    ∃ o, OpenedOk e i o ∧ ∀ d : Chan, d.Valid e.parties → d.dst = i → offlineRead e i o d <+: R (d.sock e.parties) := by
  by_cases h5 : 5 ≤ p.rank
  · obtain ⟨m, hm, hread⟩ := h.read_online hl hi h5
    exact ⟨m.toOpened, hm.toOpenedOk, fun d hd hs => (List.prefix_append _ _).trans (hread d hd hs)⟩
  cases p with
  | bloom o P => exact ⟨o, h.2.1, fun d hd hs => h.2.2.read_initial hd hs⟩
  | online b P pipe => exact ⟨b.toOpened, h.2.1.toOpenedOk, fun d hd hs => h.2.2.1.read_initial hd hs⟩
  | keys | agree | offline => simp [Party.rank] at hr
  | collect | sending | done | halted | idle => exact absurd (by simp [Party.rank]) h5

/-- From the offline phase on it has read the keys and the seeds of all others. -/
theorem PartyInv.read_agree {p : Party κ e.Not} (h : PartyInv e i p W R) (hl : ∀ f, p ≠ .halted f) (hi : i < e.parties)
    (hr : 2 ≤ p.rank) : ∃ g, ∀ d : Chan, d.Valid e.parties → d.dst = i → agreeRead i g d <+: R (d.sock e.parties) := by
  by_cases h3 : 3 ≤ p.rank
  · obtain ⟨o, _, hread⟩ := h.read_offline hl hi h3
    exact ⟨o.toAgreed, fun d hd hs => (List.prefix_append _ _).trans (hread d hd hs)⟩
  cases p with
  | offline g P => exact ⟨g, fun d hd hs => h.2.2.read_initial hd hs⟩
  | keys | agree => simp [Party.rank] at hr
  | bloom | online | collect | sending | done | halted | idle => exact absurd (by simp [Party.rank]) h3

/-- On its sender's stream a Pi writes nothing more before its array. -/
theorem PartyInv.written_sender {p : Party κ e.Not} (h : PartyInv e i p W R) (h0 : i ≠ 0) (hr : p.rank ≤ 5) {a : ℕ}
    (ha : a < slots e.parties i) (hi : i < e.parties) : W ((senderChan i a).sock e.parties) <+:
      agreeSent e i (senderChan i a) ++ (ints [(e.Nc : ℤ)] ++ blks [e.seed_sub_group i a]) := by
  have hd := senderChan_valid hi ha
  by_cases h3 : p.rank ≤ 3
  · obtain ⟨w, _, hw⟩ := h.unrevealed h3
    have hw := hw _ hd rfl
    rwa [answered, apport_sender ha] at hw
  cases p with
  | online b P pipe =>
    have hw := inst_grown_out hi h.2.2.1.wrote online_out hd rfl
    rw [apport_sender ha, onChan_sock hd] at hw
    rw [hw, offlineSent, apport_sender ha]
    exact (List.append_nil _).symm ▸ List.prefix_rfl
  | sending m G => rw [((rest_iff hi).1 h.2.2.2.2).1 _ hd rfl, onlineSent_senderChan ha]
  | collect m P => exact absurd h.2.1 h0
  | done | halted | idle => simp [Party.rank] at hr
  | keys | agree | offline | bloom => exact absurd (by simp [Party.rank]) h3

end Bounds

/-! ## Before the checks -/

section Checks

variable [DecidableEq κ] {s : Alone Sock (Atom κ) (Party κ e.Not)}

/-- What the party has read passes the checks of the offline phase in all its instances. -/
def Checked (e : Env κ) (i : ℕ) (R : Sock → List (Atom κ)) : Prop :=
  ∃ o, OpenedOk e i o ∧ ∀ d : Chan, d.Valid e.parties → d.dst = i → offlineRead e i o d <+: R (d.sock e.parties)

/-- The stream of a Pi's sender carries no array. -/
def Unsent (e : Env κ) (i : ℕ) (W : Sock → List (Atom κ)) : Prop :=
  W ((senderChan i 0).sock e.parties) <+: agreeSent e i (senderChan i 0) ++ (ints [(e.Nc : ℤ)] ++ blks [e.seed_sub_group i 0])

theorem pstep_halted {p : Party κ e.Not} {l : Label Sock (Atom κ)} {f : Fault} (h : PStep e i p l (.halted f)) :
    l = .tau ∧ p.Faults e i f := by
  cases h with
  | fault hf => exact ⟨rfl, hf⟩

omit [DecidableEq κ] in
theorem start_live (f : Fault) : (Party.start e i : Party κ e.Not) ≠ .halted f := by
  intro hf
  unfold Party.start at hf
  split at hf <;> cases hf

/-- What holds of a party that has not stopped, and is kept when it stops, holds in every state. -/
theorem party_rule {Q : Party κ e.Not → (Sock → List (Atom κ)) → (Sock → List (Atom κ)) → Prop}
    (hlive : ∀ {p W R}, PartyInv e i p W R → (∀ f, p ≠ .halted f) → Q p W R)
    (hfault : ∀ {p W R f}, Q p W R → p.Faults e i f → Q (.halted f) W R) (h : PartyReaches e i s) :
    Q s.proc s.wrote s.read := by
  induction h with
  | refl => exact hlive partyInv_start start_live
  | @tail u t hs hst ih =>
    have hinv := partyInv_of_party (hs.tail hst)
    by_cases hl : ∀ f, t.proc ≠ .halted f
    · exact hlive hinv hl
    push Not at hl
    obtain ⟨f, hf⟩ := hl
    -- only a fault leads to a stopped state
    cases hst with
    | @tau p hp =>
      obtain rfl : p = .halted f := hf
      exact hfault ih (pstep_halted hp).2
    | @send c l p hp =>
      obtain rfl : p = .halted f := hf
      cases (pstep_halted hp).1
    | @recv c l p hp =>
      obtain rfl : p = .halted f := hf
      cases (pstep_halted hp).1

theorem unrevealed_or_checked (h : PartyReaches e i s) : Unrevealed e i s.wrote s.read ∨ Checked e i s.read := by
  refine party_rule (Q := fun _ W R => Unrevealed e i W R ∨ Checked e i R) (fun {p W R} hinv hl => ?_) (fun hQ _ => hQ) h
  by_cases hi : i < e.parties
  · by_cases h3 : p.rank ≤ 3
    · exact Or.inl (hinv.unrevealed h3)
    · exact Or.inr (hinv.read_offline hl hi (by omega))
  · exact Or.inl ⟨fun _ => [], fun _ _ => Or.inl rfl, fun d hd hs => absurd (hs ▸ hd.src) hi⟩

/-- A Pi that has begun to send its array is at its end. -/
theorem unsent_or_done (h : PartyReaches e i s) (h0 : i ≠ 0) (hi : i < e.parties) :
    Unsent e i s.wrote ∨ ∃ m G out, s.proc = .done m G out := by
  have ha : 0 < slots e.parties i := by rw [slots, if_neg h0]; exact Nat.one_pos
  refine party_rule (Q := fun p W _ => Unsent e i W ∨ ∃ m G out, p = .done m G out) (fun {p W R} hinv hl => ?_)
    (fun {p W R f} hQ hf => ?_) h
  · by_cases h5 : p.rank ≤ 5
    · exact Or.inl (hinv.written_sender h0 h5 ha hi)
    · cases p with
      | done m G out => exact Or.inr ⟨m, G, out, rfl⟩
      | halted f => exact absurd rfl (hl f)
      | idle => exact absurd hi (not_lt.2 hinv)
      | keys | agree | offline | bloom | online | collect | sending => exact absurd (by simp [Party.rank]) h5
  · rcases hQ with hQ | ⟨m, G, out, rfl⟩
    · exact Or.inl hQ
    · exact hf.elim

/-- For a party among others that write anything: what it has written is of the offline phase, its answers those to the
sub-groups it has read, or what it has read passes its checks; and when a Pi has written any of its array, it has read a
whole function. -/
theorem reveals_after_checks (h : PartyReaches e i s) : (Unrevealed e i s.wrote s.read ∨ Checked e i s.read) ∧
    (i ≠ 0 → i < e.parties → Unsent e i s.wrote ∨ ∃ m G out, s.proc = .done m G out ∧ MergedOk e i m ∧
      ∀ d : Chan, d.Valid e.parties → d.dst = i → s.read (d.sock e.parties) = onlineRead e i m d) := by
  refine ⟨unrevealed_or_checked h, fun h0 hi => (unsent_or_done h h0 hi).imp_right ?_⟩
  rintro ⟨m, G, out, hp⟩
  have hinv := partyInv_of_party h
  rw [hp] at hinv
  exact ⟨m, G, out, hp, hinv.2.1, ((rest_iff hi).1 (hinv.2.2.2 h0).2.2).2⟩

end Checks

/-! ## The phases of two parties -/

section Steps

variable [DecidableEq κ] {s u : State κ e.Not}

omit [DecidableEq κ] in
theorem length_agree {g : Agreed κ} {d : Chan} : (agreeRead i g d).length = (agreeSent e j d).length := by
  cases hm : d.main <;> simp [agreeRead, keysRead, agreeSent, keysSent, hm]

/-- Party `j` has written the same in both states. -/
def SameSent (s u : State κ e.Not) (j : ℕ) : Prop := ∀ c, writer e.parties c = j → s.sent c = u.sent c

omit [DecidableEq κ] in
/-- What is read on a stream of `j` was written when `j` had written all it has. -/
theorem SameSent.taken_initial (h : SameSent s u j) {d : Chan} (hd : d.Valid e.parties) (hs : d.src = j) :
    s.taken (d.sock e.parties) <+: u.sent (d.sock e.parties) :=
  h _ ((writer_sock hd).trans hs) ▸ s.taken_initial _

/-- The seeds of all others come from parties that have left the key exchange. -/
theorem left_keys (hs : HonestReaches e s) (hu : HonestReaches e u) (hsame : SameSent s u j) (hi : i < e.parties) (hj : j < e.parties)
    (hne : j ≠ i) (hl : ∀ f, s.proc i ≠ .halted f) (hr : 2 ≤ (s.proc i).rank) : 1 ≤ (u.proc j).rank := by
  by_contra hk
  have hd := (setUp_valid hi hj hne).2
  obtain ⟨g, hread⟩ := ((partyInv_of_reaches hs).inv i).read_agree hl hi hr
  have hsent : u.sent ((Chan.mk j i true).sock e.parties) <+: keysSent e j ⟨j, i, true⟩ := by
    have hinv := (partyInv_of_reaches hu).inv j
    cases hp : u.proc j with
    | keys P => rw [hp] at hinv; exact keys_written hinv.2 hj hd rfl
    | agree | offline | bloom | online | collect | sending | done | halted => simp [hp, Party.rank] at hk
    | idle => simp [hp, Party.rank] at hk
  -- three elements read, one written
  have hlen : 3 ≤ 1 := (((hread _ hd rfl).trans (hsame.taken_initial hd rfl)).trans hsent).length_le
  omega

omit [DecidableEq κ] in
theorem back_sender (hi : i < e.parties) {a : ℕ} (ha : a < slots e.parties i) :
    receiverBack i a = senderChan (instPeer i a) (Env.peerSlot i) ∧ senderBack i a = receiverChan (instPeer i a) (Env.peerSlot i) := by
  obtain ⟨h1, h2, h3, h4⟩ := inst_peer hi ha
  have hr := receiverBack_eq h1 h2
  have hs := senderBack_eq h1 h2
  rw [h3, h4] at hr hs
  exact ⟨hr, hs⟩

/-- The sub-group comes from a peer in the offline phase. -/
theorem in_offline {a : ℕ} (hs : HonestReaches e s) (hu : HonestReaches e u) (hsame : SameSent s u (instPeer i a)) (hi : i < e.parties)
    (ha : a < slots e.parties i) (hl : ∀ f, s.proc i ≠ .halted f) (hr : 3 ≤ (s.proc i).rank) : 2 ≤ (u.proc (instPeer i a)).rank := by
  by_contra hk
  have hd := receiverBack_valid hi ha
  have hsrc : (receiverBack i a).src = instPeer i a := by rw [(back_sender hi ha).1]; rfl
  obtain ⟨o, _, hread⟩ := ((partyInv_of_reaches hs).inv i).read_offline hl hi hr
  have hsent := ((partyInv_of_reaches hu).inv (instPeer i a)).written_agree (by omega) hd hsrc
  have hlen := (((hread _ hd rfl).trans (hsame.taken_initial hd hsrc)).trans hsent).length_le
  rw [offlineRead, apport_receiverBack ha, List.length_append, length_agree (e := e) (j := instPeer i a)] at hlen
  simp at hlen

/-- The function comes from a peer in the online phase. -/
theorem in_online {a : ℕ} (hs : HonestReaches e s) (hu : HonestReaches e u) (hsame : SameSent s u (instPeer i a)) (hi : i < e.parties)
    (ha : a < slots e.parties i) (hN : 0 < e.Nbf) (hl : ∀ f, s.proc i ≠ .halted f) (hr : 5 ≤ (s.proc i).rank) :
    4 ≤ (u.proc (instPeer i a)).rank := by
  by_contra hk
  obtain ⟨_, h2, _⟩ := inst_peer hi ha
  have hd := senderBack_valid hi ha
  have hback := (back_sender hi ha).2
  have hsrc : (senderBack i a).src = instPeer i a := by rw [hback]; rfl
  obtain ⟨m, hm, hread⟩ := ((partyInv_of_reaches hs).inv i).read_online hl hi hr
  obtain ⟨w, hw, hsent⟩ := ((partyInv_of_reaches hu).inv (instPeer i a)).unrevealed (by omega)
  have hle := ((hread _ hd rfl).trans (hsame.taken_initial hd hsrc)).trans (hsent _ hd hsrc)
  rw [onlineRead_senderBack ha, answered] at hle
  obtain ⟨_, hle⟩ := prefix_split hle length_agree
  rw [hback, apport_receiver h2] at hle
  have hlen := hm.func_sender a ha
  rcases (hw _ h2).message with hw | ⟨m', hw⟩
  · -- no answer is written
    rw [hw] at hle
    simpa using hle.length_le
  · -- after the same answer the reader has the function, the writer nothing
    rw [hw] at hle
    obtain ⟨_, hfunc⟩ := msg_split (hle.trans (List.prefix_append _ []))
    have hnil := hfunc.length_le
    rw [length_ints, List.length_nil] at hnil
    omega

/-- P0 is at its end when every Pi has sent its array. -/
theorem at_end (h : HonestReaches e s) (h0 : 0 < e.parties) {a : ℕ} (ha : a < slots e.parties 0) (hN : 0 < e.Nbf)
    {m : Merged κ e.Not} {G : ℕ → Block} {out : List ℤ} (hp : s.proc 0 = .done m G out) :
    ∃ m' G' out', s.proc (a + 1) = .done m' G' out' := by
  have hinv := (partyInv_of_reaches h).inv 0
  rw [hp] at hinv
  obtain ⟨l, hlen, _, _, hr⟩ := hinv.2.2.1 rfl
  have hd := receiverBack_valid h0 ha
  have hback : receiverBack 0 a = senderChan (a + 1) 0 := (back_sender h0 ha).1
  have halone := alone_of_reaches partyInv_follows (fun _ => partyInv_start) h (a + 1)
  refine (unsent_or_done halone (Nat.succ_ne_zero a) (inst_peer h0 ha).1).resolve_left fun hsent => ?_
  have hw : writer e.parties ((receiverBack 0 a).sock e.parties) = a + 1 := writer_sock hd
  unfold Unsent at hsent
  rw [← hback, Net.alone_wrote hw] at hsent
  -- P0 has read the array on that stream
  have hle := ((((rest_iff h0).1 hr).2 _ hd rfl) ▸ s.taken_initial _).trans hsent
  rw [endRead, onlineRead_receiverBack ha, apport_receiverBack ha] at hle
  have hle' := hle.length_le
  simp only [List.length_append, length_ints, length_blks, List.length_singleton, length_agree (e := e) (j := a + 1)] at hle'
  have hla := hlen a ha
  omega

/-! ## Runs -/

/-- The states `run 0, …, run n` of parties that all follow the program. -/
def HonestRun (e : Env κ) (run : ℕ → State κ e.Not) (n : ℕ) : Prop :=
  Reach.Run (Step (PStep e)) (Net.start (Party.start e)) run n

/-- In a state of the run in which it had not stopped, the party had `k` phases behind it. -/
def Come {Not : ℕ} (run : ℕ → State κ Not) (n i k : ℕ) : Prop :=
  ∃ m, m ≤ n ∧ (∀ f, (run m).proc i ≠ .halted f) ∧ k ≤ ((run m).proc i).rank

variable {run : ℕ → State κ e.Not} {n k k' : ℕ}

/-- A party does not go back to an earlier phase. -/
theorem pstep_rank {p p' : Party κ e.Not} {l : Label Sock (Atom κ)} (h : PStep e i p l p') : p.rank ≤ p'.rank := by
  cases h with
  | keys | keysJoin | agree | agreeJoin | offline | offlineJoin | bloom | bloomJoin => simp [Party.rank]
  | online | begin | pipe | onlineJoin₀ | onlineJoin | collect | output | comulativeGbfPi => simp [Party.rank]
  | fault => cases p <;> simp [Party.rank]

theorem step_rank (h : Step (PStep e) s u) (j : ℕ) : (s.proc j).rank ≤ (u.proc j).rank := by
  cases h with
  | @tau i _ hp | @send i _ _ _ hp | @recv i _ _ _ hp _ =>
    by_cases hj : j = i
    · subst hj
      simpa using pstep_rank hp
    · simp [hj]

/-- Where it has come it stays, or it is further. -/
theorem Come.rank (h : HonestRun e run n) (hc : Come run n j k) : k ≤ ((run n).proc j).rank := by
  obtain ⟨m, hm, _, hk⟩ := hc
  exact hk.trans (h.le_of_step (f := fun s => (s.proc j).rank) (fun _ _ hst => step_rank hst j) hm)

/-- All that a party has written it had written when it had not stopped. -/
theorem exists_live (h : HonestRun e run n) (j : ℕ) :
    ∃ m, m ≤ n ∧ (∀ f, (run m).proc j ≠ .halted f) ∧ SameSent (run n) (run m) j := by
  refine exists_within partyInv_follows (fun _ => partyInv_start) (L := fun p => ∀ f, p ≠ .halted f) start_live
    (fun hst hL => ?_) h
  push Not at hL
  obtain ⟨f, rfl⟩ := hL
  exact (pstep_halted hst).1

/-- What a party reads binds the one that wrote it, also when that one has stopped since. -/
theorem come_of_sent (h : HonestRun e run n) (hi : Come run n i k)
    (hread : ∀ {s u}, HonestReaches e s → HonestReaches e u → SameSent s u j → (∀ f, s.proc i ≠ .halted f) → k ≤ (s.proc i).rank →
      k' ≤ (u.proc j).rank) : Come run n j k' := by
  obtain ⟨m, hm, hl, hk⟩ := hi
  have hrun := h.initial hm
  obtain ⟨m', hm', hl', hsame⟩ := exists_live hrun j
  exact ⟨m', hm'.trans hm, hl', hread hrun.reaches (hrun.initial hm').reaches hsame hl hk⟩

/-- In a run, for two parties: how far the second has come when the first has come to a phase, whether or not one of
them has stopped since; and it does not go back. -/
structure InStep (e : Env κ) (run : ℕ → State κ e.Not) (n i j : ℕ) : Prop where
  seeds : Come run n i 2 → Come run n j 1
  opened : i = 0 ∨ j = 0 → Come run n i 3 → Come run n j 2
  functions : i = 0 ∨ j = 0 → 0 < e.Nbf → Come run n i 5 → Come run n j 4
  arrays : i = 0 → 0 < e.Nbf → (∃ m G out, (run n).proc i = .done m G out) → ∃ m G out, (run n).proc j = .done m G out
  stays : ∀ k, Come run n j k → k ≤ ((run n).proc j).rank

omit [DecidableEq κ] in
/-- The two ends of an instance. -/
theorem exists_inst (hj : j < e.parties) (hne : j ≠ i) (h : i = 0 ∨ j = 0) :
    ∃ a, a < slots e.parties i ∧ instPeer i a = j := by
  unfold slots instPeer
  by_cases h0 : i = 0
  · refine ⟨j - 1, ?_, ?_⟩
    · rw [if_pos h0]; omega
    · rw [if_pos h0]; omega
  · refine ⟨0, ?_, ?_⟩
    · rw [if_neg h0]; omega
    · rw [if_neg h0]; omega

theorem phases_in_step (h : HonestRun e run n) (hi : i < e.parties) (hj : j < e.parties) (hne : j ≠ i) : InStep e run n i j := by
  constructor
  · exact fun hc => come_of_sent h hc fun hs hu hsame hl hr => left_keys hs hu hsame hi hj hne hl hr
  · intro h0 hc
    obtain ⟨a, ha, rfl⟩ := exists_inst hj hne h0
    exact come_of_sent h hc fun hs hu hsame hl hr => in_offline hs hu hsame hi ha hl hr
  · intro h0 hN hc
    obtain ⟨a, ha, rfl⟩ := exists_inst hj hne h0
    exact come_of_sent h hc fun hs hu hsame hl hr => in_online hs hu hsame hi ha hN hl hr
  · rintro rfl hN ⟨m, G, out, hp⟩
    obtain ⟨a, ha, rfl⟩ := exists_inst hj hne (Or.inl rfl)
    exact at_end h.reaches hi ha hN hp
  · exact fun k hc => hc.rank h

end Steps

/-- The third of three parties that have finished. -/
theorem reveals_after_checks_three : ∃ s : Alone Sock (Atom Block) (Party Block 5),
    PartyReaches (uniform 3 (fun _ => []) fun _ _ => 0) 2 s ∧ (∃ m G out, s.proc = .done m G out) ∧
      (Unrevealed (uniform 3 (fun _ => []) fun _ _ => 0) 2 s.wrote s.read ∨ Checked (uniform 3 (fun _ => []) fun _ _ => 0) 2 s.read) := by
  obtain ⟨s, hs, hc⟩ := uniform_complete 3 (fun _ => []) fun _ _ => 0
  have halone := alone_of_reaches partyInv_follows (fun _ => partyInv_start) hs 2
  exact ⟨_, halone, hc 2 (by decide), (reveals_after_checks halone).1⟩

/-- A run of three parties to their end. -/
theorem phases_in_step_three : ∃ (run : ℕ → State Block 5) (n : ℕ), HonestRun (uniform 3 (fun _ => []) fun _ _ => 0) run n ∧
    Come run n 0 6 ∧ InStep (uniform 3 (fun _ => []) fun _ _ => 0) run n 0 2 := by
  obtain ⟨s, hs, hc⟩ := uniform_complete 3 (fun _ => []) fun _ _ => 0
  obtain ⟨m, G, out, hp⟩ := hc 0 (by decide)
  obtain ⟨run, n, hrun, rfl⟩ := Reach.exists_run hs
  have hl : ∀ f, (run n).proc 0 ≠ .halted f := fun f hf => by rw [hp] at hf; cases hf
  exact ⟨run, n, hrun, ⟨n, le_rfl, hl, by rw [hp]; exact le_rfl⟩, phases_in_step hrun (by decide) (by decide) (by decide)⟩

end Mpsi
