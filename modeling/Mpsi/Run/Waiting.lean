/-
How far a party has come that can only wait. All it could do is to read what is not written yet; then its threads have
come as far in their scripts as what is written lets them, so it has written what the phase it is in writes before it
reads, and it has left the phase when all that the phase reads is there.

For parties that wait together this means that none of them is in the middle of `main`: phase by phase each finds what
the others have written, and they are all at the end (`done_of_waiting`).
-/
import Mpsi.Run.Lone

namespace Mpsi

open Thread Stream

variable {κ : Type} {e : Env κ} {i : ℕ} {W R : Sock → List (Atom κ)} {D : Outcome e}

/-! ## What a stream carries -/

/-- What one end of a stream reads in each phase is what the other end writes. -/
structure Outcome.Carried (D : Outcome e) (d : Chan) : Prop where
  keys : keysRead d.dst (D.merged d.dst).keys_recv d = keysSent e d.src d
  agree : agreeRead d.dst (D.merged d.dst).toAgreed d = agreeSent e d.src d
  offline : offlineRead e d.dst (D.merged d.dst).toOpened d = offlineSent e d.src (D.merged d.src).toOpened d
  online : onlineRead e d.dst (D.merged d.dst) d = onlineSent e d.src (D.merged d.src) d
  all : D.read d = D.sent d

section Carried

variable {d : Chan} {a : ℕ}

theorem Outcome.Honest.carried [DecidableEq κ] (h : D.Honest) (hd : d.Valid e.parties) : D.Carried d :=
  ⟨h.keys_stream hd, h.agree_stream hd, h.offline_stream hd, h.online_stream hd, h.stream hd⟩

theorem keys_eq_of_initial (h : D.read d <+: D.sent d) : keysRead d.dst (D.merged d.dst).keys_recv d = keysSent e d.src d := by
  have hag := agree_eq_of_initial h
  unfold agreeRead agreeSent at hag
  exact (List.append_inj hag (by cases hm : d.main <;> simp [keysRead, keysSent, hm])).1

/-- The stream of a sender, where its receiver reads the sub-group, and P0 the array. -/
theorem carried_sender (hi : i < e.parties) (ha : a < slots e.parties i)
    (hl : instPeer i a = 0 → (D.lists (Env.peerSlot i)).length = e.Nbf) (h : D.read (senderChan i a) <+: D.sent (senderChan i a)) :
    D.Carried (senderChan i a) := by
  obtain ⟨hj, hb, h3, h4⟩ := inst_peer hi ha
  have hc : receiverBack (instPeer i a) (Env.peerSlot i) = senderChan i a := receiverBack_eq hi ha
  obtain ⟨hNc, hseed, hlist⟩ := offer_of_initial hj hb hl (hc ▸ h)
  rw [h3, h4] at hseed
  have hag : agreeRead (instPeer i a) (D.merged (instPeer i a)).toAgreed (senderChan i a) = agreeSent e i (senderChan i a) :=
    agree_eq_of_initial h
  have hoffline : offlineRead e (instPeer i a) (D.merged (instPeer i a)).toOpened (senderChan i a) =
      offlineSent e i (D.merged i).toOpened (senderChan i a) := by
    rw [offlineSent, apport_sender ha, ← hag, ← hc, offlineRead, apport_receiverBack hb, hNc, hseed]
  have honline : onlineRead e (instPeer i a) (D.merged (instPeer i a)) (senderChan i a) = onlineSent e i (D.merged i) (senderChan i a) := by
    rw [onlineSent, apport_sender ha, ← hoffline, ← hc, onlineRead, apport_receiverBack hb]
  refine ⟨keys_eq_of_initial h, hag, hoffline, honline, ?_⟩
  rw [← hc, read_receiverBack hb, hc, honline, sent_senderChan ha]
  congr 1
  by_cases h0 : i = 0
  · have hne : instPeer i a ≠ 0 := by rw [instPeer, if_pos h0]; exact Nat.succ_ne_zero a
    rw [if_pos h0, if_neg hne]
  · have hz : instPeer i a = 0 := if_neg h0
    have hi' : Env.peerSlot i + 1 = i := by rw [Env.peerSlot, if_neg h0]; omega
    rw [if_neg h0, if_pos hz, hlist hz, hi']

/-- The stream of a receiver, where its sender reads the answer and the function. -/
theorem carried_receiver [DecidableEq κ] (hi : i < e.parties) (ha : a < slots e.parties i) (hm : MergedOk e i (D.merged i))
    (hm' : MergedOk e (instPeer i a) (D.merged (instPeer i a))) (h : D.read (receiverChan i a) <+: D.sent (receiverChan i a)) :
    D.Carried (receiverChan i a) := by
  obtain ⟨_, hb, _, _⟩ := inst_peer hi ha
  have hc : senderBack (instPeer i a) (Env.peerSlot i) = receiverChan i a := senderBack_eq hi ha
  obtain ⟨hmsg, hfunc⟩ := answer_of_initial hi ha hm hm' h
  have hag : agreeRead (instPeer i a) (D.merged (instPeer i a)).toAgreed (receiverChan i a) = agreeSent e i (receiverChan i a) :=
    agree_eq_of_initial h
  have hoffline : offlineRead e (instPeer i a) (D.merged (instPeer i a)).toOpened (receiverChan i a) =
      offlineSent e i (D.merged i).toOpened (receiverChan i a) := by
    rw [offlineSent, apport_receiver ha, ← hag, ← hc, offlineRead, apport_senderBack hb, hmsg]
    rfl
  have honline : onlineRead e (instPeer i a) (D.merged (instPeer i a)) (receiverChan i a) =
      onlineSent e i (D.merged i) (receiverChan i a) := by
    rw [onlineSent, apport_receiver ha, ← hoffline, ← hc, onlineRead, apport_senderBack hb, hfunc]
  refine ⟨keys_eq_of_initial h, hag, hoffline, honline, ?_⟩
  rw [← hc, read_senderBack hb, hc, honline, sent_receiverChan ha]

/-- Between two Pis only the set-up is read. -/
theorem carried_pi (hs : d.src ≠ 0) (ht : d.dst ≠ 0) (h : D.read d <+: D.sent d) : D.Carried d := by
  have hag := agree_eq_of_initial h
  have hoffline : offlineRead e d.dst (D.merged d.dst).toOpened d = offlineSent e d.src (D.merged d.src).toOpened d := by
    rw [offlineRead, offlineSent, apport_pi ht hs, apport_pi hs ht, hag]
  have honline : onlineRead e d.dst (D.merged d.dst) d = onlineSent e d.src (D.merged d.src) d := by
    rw [onlineRead, onlineSent, apport_pi ht hs, apport_pi hs ht, hoffline]
  refine ⟨keys_eq_of_initial h, hag, hoffline, honline, ?_⟩
  rw [Outcome.read, Outcome.sent, if_neg ht, if_neg hs, endSent, apport_pi hs ht, honline, List.append_nil]

theorem carried_of_initial [DecidableEq κ] (hd : d.Valid e.parties) (hm : MergedOk e d.src (D.merged d.src))
    (hm' : MergedOk e d.dst (D.merged d.dst)) (hl : d.dst = 0 → ∀ a, a < e.parties - 1 → (D.lists a).length = e.Nbf)
    (h : D.read d <+: D.sent d) : D.Carried d := by
  have hsrc := hd.src
  rcases chan_cases hd with ⟨a, ha, he⟩ | ⟨a, ha, he⟩ | ⟨_, hs, ht⟩
  · have hb := (inst_peer hsrc ha).2.1
    rw [he] at h hl ⊢
    refine carried_sender hsrc ha (fun h0 => hl h0 _ ?_) h
    rwa [h0, slots, if_pos rfl] at hb
  · rw [he] at h hm' ⊢
    exact carried_receiver hsrc ha hm hm' h
  · exact carried_pi hs ht h

end Carried

/-! ## How far a party is -/

/-- The number of phases behind a party. One that has stopped counts as if it had them all behind it. -/
def Party.rank {Not : ℕ} : Party κ Not → ℕ
  | .keys _ => 0
  | .agree _ _ => 1
  | .offline _ _ => 2
  | .bloom _ _ => 3
  | .online _ _ _ => 4
  | .collect _ _ => 5
  | .sending _ _ => 5
  | _ => 6

/-- What a party has written with `k` phases behind it. -/
def Outcome.upTo (D : Outcome e) (i : ℕ) (d : Chan) : ℕ → List (Atom κ)
  | 0 => []
  | 1 => keysSent e i d
  | 2 => agreeSent e i d
  | 3 => offlineSent e i (D.merged i).toOpened d
  | 4 => offlineSent e i (D.merged i).toOpened d
  | 5 => onlineSent e i (D.merged i) d
  | _ => D.sent d

theorem upTo_succ (D : Outcome e) {d : Chan} (hs : d.src = i) : ∀ k, D.upTo i d k <+: D.upTo i d (k + 1)
  | 0 => List.nil_prefix
  | 1 => List.prefix_append _ _
  | 2 => List.prefix_append _ _
  | 3 => List.prefix_rfl
  | 4 => List.prefix_append _ _
  | 5 => onlineSent_initial D hs
  | _ + 6 => List.prefix_rfl

theorem upTo_mono (D : Outcome e) {d : Chan} (hs : d.src = i) {k l : ℕ} (h : k ≤ l) : D.upTo i d k <+: D.upTo i d l := by
  induction h with
  | refl => exact List.prefix_rfl
  | step _ ih => exact ih.trans (upTo_succ D hs _)

variable [DecidableEq κ]

theorem upTo_rank {p : Party κ e.Not} (h : PartyInv e i p W R) (ht : Tracks D i p) {d : Chan} (hd : d.Valid e.parties)
    (hs : d.src = i) : D.upTo i d p.rank <+: W (d.sock e.parties) := by
  cases p with
  | keys P => exact List.nil_prefix
  | agree kr P => exact h.2.2.wrote_initial hd hs
  | offline g P => exact h.2.2.wrote_initial hd hs
  | bloom o P =>
    obtain rfl : o = _ := ht
    exact h.2.2.wrote_initial hd hs
  | online b P pipe =>
    obtain rfl : b = _ := ht
    exact h.2.2.1.wrote_initial hd hs
  | collect m P =>
    obtain rfl : m = _ := ht
    exact h.2.2.2.wrote_initial hd hs
  | sending m G =>
    obtain rfl : m = _ := ht
    rw [((rest_iff h.1).1 h.2.2.2.2).1 d hd hs]
    exact List.prefix_rfl
  | done m G out =>
    rw [done_sent h ht hd hs]
    exact List.prefix_rfl
  | halted f => exact ht.elim
  | idle => exact absurd (hs ▸ hd.src) (not_lt.2 h)

/-! ## A party that waits -/

/-- Party `i` is on its way with the values of the outcome, and all it can do is to read what is not written. -/
structure Waiting (D : Outcome e) (s : State κ e.Not) (i : ℕ) : Prop extends D.Own i where
  inv : PartyInv e i (s.proc i) s.sent s.taken
  reads : Reads D i s.taken
  live : ∀ f, s.proc i ≠ .halted f
  waits : ∀ l p, PStep e i (s.proc i) l p → ∃ c x, l = .recv c x ∧ ¬ s.taken c ++ x <+: s.sent c

omit [DecidableEq κ] in
/-- What is written for the party begins with `r`. -/
def Offered (s : State κ e.Not) (i : ℕ) (r : Chan → List (Atom κ)) : Prop :=
  ∀ d : Chan, d.Valid e.parties → d.dst = i → r d <+: s.sent (d.sock e.parties)

namespace Waiting

variable {s : State κ e.Not} {d : Chan}

omit [DecidableEq κ] in
theorem offered_onChan {r : Chan → List (Atom κ)} (hi : i < e.parties) (h : Offered s i r) (c : Sock) (hc : reader e.parties c = i) :
    onChan e.parties r c <+: s.sent c := by
  obtain ⟨d, hd, hs, rfl⟩ := exists_reader hi hc
  rw [onChan_sock hd]
  exact h d hd hs

section Party

variable (H : Waiting D s i)

include H

theorem no_tau {p q : Party κ e.Not} (hp : s.proc i = p) : ¬ PStep e i p .tau q := fun h => by
  obtain ⟨_, _, hl, _⟩ := H.waits _ _ (hp ▸ h)
  cases hl

theorem tracks : Tracks D i (s.proc i) := tracks_of_inv (fun _ => ⟨H.merged, H.lists⟩) H.inv H.reads H.live

/-- What is known of a party in a given state. -/
theorem stands {p : Party κ e.Not} (hp : s.proc i = p) : PartyInv e i p s.sent s.taken ∧ Tracks D i p := by
  subst hp
  exact ⟨H.inv, H.tracks⟩

theorem upTo {k : ℕ} (hk : k ≤ (s.proc i).rank) (hd : d.Valid e.parties) (hs : d.src = i) : D.upTo i d k <+: s.sent (d.sock e.parties) :=
  (upTo_mono D hs hk).trans (upTo_rank H.inv H.tracks hd hs)

/-! ### The set-up -/

theorem keys_waits {P} (hp : s.proc i = .keys P) : (keysStage e i).Waits P s.taken s.sent :=
  fun l P' hst => H.waits l (.keys P') (hp ▸ .keys hst)

theorem keys_sent (hd : d.Valid e.parties) (hs : d.src = i) : keysSent e i d <+: s.sent (d.sock e.parties) := by
  by_cases h1 : 1 ≤ (s.proc i).rank
  · exact H.upTo h1 hd hs
  cases hp : s.proc i with
  | keys P =>
    obtain ⟨hinv, _⟩ := H.stands hp
    obtain ⟨v, S⟩ := keys_script (m := D.merged i) hinv.1
    have hpl := S.on_script hinv.2 (keysStage_ported hinv.1) (H.reads.onChan H.lt fun d => keysRead_initial D)
    obtain ⟨p, q, m⟩ := d
    obtain rfl : p = i := hs
    cases m with
    | false => exact List.nil_prefix
    | true =>
      have hout := (setUp_out hinv.1).2 ⟨q, hd.dst, hd.ne.symm, rfl, rfl⟩
      have hw := S.written hinv.2 hout (S.reached hinv.2 (H.keys_waits hp) (hpl _) List.prefix_rfl fun c hc => by cases hc)
      rwa [onChan_sock hd] at hw
  | _ => exact absurd (by rw [hp]; simp [Party.rank]) h1

theorem leave_keys (hA : Offered s i (keysRead i (D.merged i).keys_recv)) : 1 ≤ (s.proc i).rank := by
  cases hp : s.proc i with
  | keys P =>
    obtain ⟨hinv, _⟩ := H.stands hp
    obtain ⟨v, S⟩ := keys_script (m := D.merged i) hinv.1
    have hpl := S.on_script hinv.2 (keysStage_ported hinv.1) (H.reads.onChan H.lt fun d => keysRead_initial D)
    have hj : P.Joined v := S.joined hinv.2 (keysStage_ported hinv.1) (H.keys_waits hp) hpl (offered_onChan H.lt hA)
    exact absurd (.keysJoin hj) (H.no_tau hp)
  | _ => simp [Party.rank]

theorem agree_waits {kr P} (hp : s.proc i = .agree kr P) : (agreeStage e i).Waits P s.taken s.sent :=
  fun l P' hst => H.waits l (.agree kr P') (hp ▸ .agree hst)

theorem agree_sent (h1 : 1 ≤ (s.proc i).rank) (hd : d.Valid e.parties) (hs : d.src = i) : agreeSent e i d <+: s.sent (d.sock e.parties) := by
  by_cases h2 : 2 ≤ (s.proc i).rank
  · exact H.upTo h2 hd hs
  cases hp : s.proc i with
  | agree kr P =>
    obtain ⟨hinv, rfl⟩ := H.stands hp
    obtain ⟨v, S⟩ := agree_script (m := D.merged i) hinv.1
    have hpl := S.on_script hinv.2.2 (agreeStage_ported hinv.1) (H.reads.onChan H.lt fun d hs => hs ▸ agreeRead_initial D d)
    obtain ⟨p, q, m⟩ := d
    obtain rfl : p = i := hs
    cases m with
    | false => exact List.nil_prefix
    | true =>
      have hout := (setUp_out hinv.1).2 ⟨q, hd.dst, hd.ne.symm, rfl, rfl⟩
      have hw := S.written hinv.2.2 hout (S.reached hinv.2.2 (H.agree_waits hp) (hpl _) List.prefix_rfl fun c hc => by cases hc)
      rwa [onChan_sock hd] at hw
  | keys => rw [hp] at h1; cases h1
  | _ => exact absurd (by rw [hp]; simp [Party.rank]) h2

theorem leave_agree (h1 : 1 ≤ (s.proc i).rank) (hA : Offered s i (agreeRead i (D.merged i).toAgreed)) : 2 ≤ (s.proc i).rank := by
  cases hp : s.proc i with
  | keys P => rw [hp] at h1; cases h1
  | agree kr P =>
    obtain ⟨hinv, rfl⟩ := H.stands hp
    obtain ⟨v, S⟩ := agree_script (m := D.merged i) hinv.1
    have hpl := S.on_script hinv.2.2 (agreeStage_ported hinv.1) (H.reads.onChan H.lt fun d hs => hs ▸ agreeRead_initial D d)
    have hj : P.Joined v := S.joined hinv.2.2 (agreeStage_ported H.lt) (H.agree_waits hp) hpl (offered_onChan H.lt hA)
    exact absurd (.agreeJoin hj) (H.no_tau hp)
  | _ => simp [Party.rank]

/-! ### The offline phase -/

theorem offline_waits {g P} (hp : s.proc i = .offline g P) : (offlineStage e i g.keys_recv).Waits P s.taken s.sent :=
  fun l P' hst => H.waits l (.offline g P') (hp ▸ .offline hst)

theorem offline_hist {P} (hp : s.proc i = .offline (D.merged i).toAgreed P) (a : Offline) : P.hist a <+: offlineScript e i (D.merged i) a := by
  obtain ⟨hinv, _⟩ := H.stands hp
  obtain ⟨v, S⟩ := offline_script H.lt H.merged.toOpenedOk (D.merged i).keys_recv
  exact S.on_script hinv.2.2 (ported_of_uses H.lt offline_out offline_inp) (H.reads.onChan H.lt fun d hs => hs ▸ offlineRead_initial D d) a

/-- A sender opens its sub-group before it waits. -/
theorem sender_sent (h2 : 2 ≤ (s.proc i).rank) {a : ℕ} (ha : a < slots e.parties i) :
    offlineSent e i (D.merged i).toOpened (senderChan i a) <+: s.sent ((senderChan i a).sock e.parties) := by
  have hd := senderChan_valid H.lt ha
  by_cases h3 : 3 ≤ (s.proc i).rank
  · exact H.upTo h3 hd rfl
  cases hp : s.proc i with
  | offline g P =>
    have hw := H.offline_waits hp
    obtain ⟨hinv, rfl⟩ := H.stands hp
    have hpl := H.offline_hist hp
    obtain ⟨v, S⟩ := offline_script H.lt H.merged.toOpenedOk (D.merged i).keys_recv
    have hinp : ((offlineStage e i (D.merged i).keys_recv).port (.sender a)).inp = some _ := offline_inp.sender ha rfl
    have hout : ((offlineStage e i (D.merged i).keys_recv).port (.sender a)).out = some _ := offline_out.sender ha rfl
    have hread : (onChan e.parties (agreeRead i (D.merged i).toAgreed)) (senderSock e.parties i a).peer <+:
        s.sent (senderSock e.parties i a).peer := by
      refine List.IsPrefix.trans ?_ (s.taken_initial _)
      rw [hinv.2.2.read.owned hinp]
      exact List.prefix_append _ _
    have hopen : [.out (ints [(e.Nc : ℤ)]), .out (blks [e.seed_sub_group i a])] <+: offlineScript e i (D.merged i) (.sender a) := by
      rw [offlineScript, if_pos ha]; simp
    have hes := S.reached hinv.2.2 hw (hpl (.sender a)) hopen fun c hc => by
      obtain rfl := Option.some.inj (hinp.symm.trans hc)
      simpa using hread
    rw [← senderSock_eq, hinv.2.2.wrote.owned hout, senderSock_eq, onChan_sock hd, offlineSent, apport_sender ha,
      List.prefix_append_right_inj]
    simpa using outs_initial hes
  | keys | agree => rw [hp] at h2; simp [Party.rank] at h2
  | _ => exact absurd (by rw [hp]; simp [Party.rank]) h3

/-- A receiver that has the sub-group answers. -/
theorem receiver_sent (h2 : 2 ≤ (s.proc i).rank) {a : ℕ} (ha : a < slots e.parties i)
    (hA : offlineRead e i (D.merged i).toOpened (receiverBack i a) <+: s.sent ((receiverBack i a).sock e.parties)) :
    offlineSent e i (D.merged i).toOpened (receiverChan i a) <+: s.sent ((receiverChan i a).sock e.parties) := by
  have hd := receiverChan_valid H.lt ha
  by_cases h3 : 3 ≤ (s.proc i).rank
  · exact H.upTo h3 hd rfl
  cases hp : s.proc i with
  | offline g P =>
    have hw := H.offline_waits hp
    obtain ⟨hinv, rfl⟩ := H.stands hp
    have hpl := H.offline_hist hp
    obtain ⟨v, S⟩ := offline_script H.lt H.merged.toOpenedOk (D.merged i).keys_recv
    have hinp : ((offlineStage e i (D.merged i).keys_recv).port (.receiver a)).inp = some _ := offline_inp.receiver ha rfl
    have hall := S.reached hinv.2.2 hw (hpl (.receiver a)) List.prefix_rfl fun c hc => by
      have hb := receiverBack_valid H.lt ha
      have hc' : c = (receiverBack i a).sock e.parties := by
        rw [← Option.some.inj (hinp.symm.trans hc), receiverSock_peer H.lt ha]
      rw [← S.inp hc, hc', onChan_sock hb]
      exact hA
    have hwr := S.written hinv.2.2 (offline_out.receiver ha rfl) hall
    rwa [receiverSock_eq, onChan_sock hd] at hwr
  | keys | agree => rw [hp] at h2; simp [Party.rank] at h2
  | _ => exact absurd (by rw [hp]; simp [Party.rank]) h3

theorem leave_offline (h2 : 2 ≤ (s.proc i).rank) (hA : Offered s i (offlineRead e i (D.merged i).toOpened)) : 3 ≤ (s.proc i).rank := by
  cases hp : s.proc i with
  | keys P | agree kr P => rw [hp] at h2; simp [Party.rank] at h2
  | offline g P =>
    have hw := H.offline_waits hp
    obtain ⟨hinv, rfl⟩ := H.stands hp
    obtain ⟨v, S⟩ := offline_script H.lt H.merged.toOpenedOk (D.merged i).keys_recv
    have hj : P.Joined v := S.joined hinv.2.2 (ported_of_uses H.lt offline_out offline_inp) hw (H.offline_hist hp) (offered_onChan H.lt hA)
    exact absurd (.offlineJoin hj) (H.no_tau hp)
  | _ => simp [Party.rank]

/-! ### The Bloom filter and the online phase -/

theorem leave_bloom (h3 : 3 ≤ (s.proc i).rank) : 4 ≤ (s.proc i).rank := by
  cases hp : s.proc i with
  | keys P | agree kr P | offline g P => rw [hp] at h3; simp [Party.rank] at h3
  | bloom o P =>
    have hw : (bloomStage Sock e.aes o.seed e.Nbf e.seeds_num (e.items i)).Waits P s.taken s.sent :=
      fun l P' hst => H.waits l (.bloom o P') (hp ▸ .bloom hst)
    obtain ⟨hinv, rfl⟩ := H.stands hp
    obtain ⟨sc, S⟩ : ∃ sc, (bloomStage Sock e.aes (D.merged i).seed e.Nbf e.seeds_num (e.items i)).Script
        (onChan e.parties (offlineSent e i (D.merged i).toOpened)) (onChan e.parties (offlineRead e i (D.merged i).toOpened))
        (onChan e.parties (offlineSent e i (D.merged i).toOpened)) (onChan e.parties (offlineRead e i (D.merged i).toOpened)) sc
        (fun _ => ()) := exists_bloom_script H.merged.Nbf
    have hpl := S.on_script hinv.2.2 bloomStage_ported (H.reads.onChan H.lt fun d hs => hs ▸ offlineRead_initial D d)
    have hj : P.Joined (fun _ => ()) := fun a => by
      have hsc := S.reached hinv.2.2 hw (hpl a) List.prefix_rfl fun c hc => by cases hc
      have hf := hinv.2.2.follow a
      rw [(hpl a).eq_of_length_le hsc.length_le] at hf
      exact script_end (S.ends a) hf
    exact absurd (.bloomJoin hj) (H.no_tau hp)
  | _ => simp [Party.rank]

theorem online_waits {b P pipe} (hp : s.proc i = .online b P pipe) : (onlineStage e i b.BF b.receiver).Waits P s.taken s.sent :=
  fun l P' hst => H.waits l (.online b P' pipe) (hp ▸ .online hst)

theorem online_hist {P pipe} (hp : s.proc i = .online (D.merged i).toFiltered P pipe) (a : Source) :
    P.hist a <+: onlineScript e i (D.merged i) a := by
  obtain ⟨hinv, _⟩ := H.stands hp
  exact (online_script H.lt H.merged).on_script hinv.2.2.1 (ported_of_uses H.lt online_out online_inp)
    (H.reads.onChan H.lt fun d hs => hs ▸ onlineRead_initial D d) a

/-- A receiver sends its function without waiting. -/
theorem online_sent (h4 : 4 ≤ (s.proc i).rank) (hd : d.Valid e.parties) (hs : d.src = i) :
    onlineSent e i (D.merged i) d <+: s.sent (d.sock e.parties) := by
  by_cases h5 : 5 ≤ (s.proc i).rank
  · exact H.upTo h5 hd hs
  have hup : offlineSent e i (D.merged i).toOpened d <+: _ := H.upTo h4 hd hs
  subst hs
  rcases chan_cases hd with ⟨a, ha, he⟩ | ⟨a, ha, he⟩ | ⟨_, h1, h2⟩
  · have hnil : onlineSent e d.src (D.merged d.src) d = offlineSent e d.src (D.merged d.src).toOpened d := by
      generalize d.src = j at *
      subst he
      unfold onlineSent
      rw [apport_sender ha, List.append_nil]
    rw [hnil]
    exact hup
  · cases hp : s.proc d.src with
    | online b P pipe =>
      have hw := H.online_waits hp
      obtain ⟨hinv, rfl⟩ := H.stands hp
      have S := online_script H.lt H.merged
      have hall := S.reached hinv.2.2.1 hw (H.online_hist hp (a, .receiver)) List.prefix_rfl fun c hc => by cases hc
      have hwr := S.written hinv.2.2.1 (online_out.receiver ha rfl) hall
      rwa [receiverSock_eq, ← he, onChan_sock hd] at hwr
    | keys | agree | offline | bloom => rw [hp] at h4; simp [Party.rank] at h4
    | _ => exact absurd (by rw [hp]; simp [Party.rank]) h5
  · unfold onlineSent
    rw [apport_pi h1 h2, List.append_nil]
    exact hup

theorem leave_online (h4 : 4 ≤ (s.proc i).rank) (hA : Offered s i (onlineRead e i (D.merged i))) : 5 ≤ (s.proc i).rank := by
  cases hp : s.proc i with
  | keys P | agree kr P | offline g P | bloom o P => rw [hp] at h4; simp [Party.rank] at h4
  | online b P pipe =>
    have hw := H.online_waits hp
    obtain ⟨hinv, rfl⟩ := H.stands hp
    obtain ⟨_, _, hthr, hpipe⟩ := hinv
    have S := online_script H.lt H.merged
    have hpl := H.online_hist hp
    have hj := S.joined hthr (ported_of_uses H.lt online_out online_inp) hw hpl (offered_onChan H.lt hA)
    -- all producers have returned, so they push and notify as long as they can
    have hpc : ∀ src ∈ producers (slots e.parties i), pipe.pc src = 9 := fun src hsrc =>
      pc_of_stopped hpipe.inv (fun t ht => H.no_tau hp (.pipe ht))
        (Nat.pos_of_ne_zero fun h0 => H.no_tau hp (.begin hsrc (hj src) h0))
    have hdone : pipe.Done (slots e.parties i * 2) := by
      rw [← card_producers]
      have hok : ∀ src ∈ producers (slots e.parties i), ∀ j, j < e.Nbf →
          ∃ x, contribution none (onlineData e i (D.merged i).BF P) src j = .ok x := fun src hsrc j hjn => by
        rw [contribution_returned H.merged H.lt hthr hpl (hj src)]
        exact H.named src hsrc j hjn
      exact done_of_stopped hpipe.inv hpc hok fun t ht => H.no_tau hp (.pipe (by rwa [← card_producers]))
    by_cases h0 : i = 0
    · exact absurd (.onlineJoin₀ h0 hpc hdone) (H.no_tau hp)
    · exact absurd (.onlineJoin h0 hpc hdone) (H.no_tau hp)
  | _ => simp [Party.rank]

/-! ### The end -/

/-- A Pi sends its array without waiting. -/
theorem end_sending (h5 : 5 ≤ (s.proc i).rank) (h0 : i ≠ 0) : ∃ m G out, s.proc i = .done m G out := by
  cases hp : s.proc i with
  | keys P | agree kr P | offline g P | bloom o P | online b P pipe => rw [hp] at h5; simp [Party.rank] at h5
  | collect m P => exact absurd (H.stands hp).1.2.1 h0
  | sending m G =>
    have hst : PStep e i (.sending m G) _ _ := .comulativeGbfPi
    obtain ⟨_, _, hl, _⟩ := H.waits _ _ (hp ▸ hst)
    cases hl
  | done m G out => exact ⟨m, G, out, rfl⟩
  | halted f => exact (H.stands hp).2.elim
  | idle => exact absurd H.lt (not_lt.2 (H.stands hp).1)

theorem end_collect (h5 : 5 ≤ (s.proc i).rank) (h0 : i = 0) (hA : Offered s i D.read) : ∃ m G out, s.proc i = .done m G out := by
  subst h0
  cases hp : s.proc 0 with
  | keys P | agree kr P | offline g P | bloom o P | online b P pipe => rw [hp] at h5; simp [Party.rank] at h5
  | collect m P =>
    have hw : (collectStage e m.shared).Waits P s.taken s.sent := fun l P' hst => H.waits l (.collect m P') (hp ▸ .collect hst)
    obtain ⟨hinv, rfl⟩ := H.stands hp
    obtain ⟨sc, S, _⟩ := collect_script (m := D.merged 0) H.lt (H.lists rfl)
    have hread : ∀ d : Chan, d.dst = 0 → endRead e 0 (D.merged 0) D.lists d = D.read d := fun d hs => (if_pos hs).symm
    have hpl := S.on_script hinv.2.2.2 (collectStage_ported H.lt) (H.reads.onChan H.lt fun d hs => by rw [hread d hs])
    have hj := S.joined hinv.2.2.2 (collectStage_ported H.lt) hw hpl
      (offered_onChan H.lt fun d hd hs => by rw [hread d hs]; exact hA d hd hs)
    exact absurd (.output hj) (H.no_tau hp)
  | sending m G => exact absurd rfl (H.stands hp).1.2.1
  | done m G out => exact ⟨m, G, out, rfl⟩
  | halted f => exact (H.stands hp).2.elim
  | idle => exact absurd H.lt (not_lt.2 (H.stands hp).1)

theorem end_sent {m : Merged κ e.Not} {G : ℕ → Block} {out : List ℤ} (hp : s.proc i = .done m G out) (hd : d.Valid e.parties)
    (hs : d.src = i) : s.sent (d.sock e.parties) = D.sent d := by
  obtain ⟨hinv, ht⟩ := H.stands hp
  exact done_sent hinv ht hd hs

end Party

end Waiting

/-! ## Parties that wait together -/

section Together

variable {s : State κ e.Not} {H : Finset ℕ} (hW : ∀ i ∈ H, Waiting D s i)
  (hin : ∀ d : Chan, d.Valid e.parties → d.src ∈ H → d.dst ∈ H → D.Carried d)
  (hout : ∀ d : Chan, d.Valid e.parties → d.src ∉ H → d.dst ∈ H → D.read d <+: s.sent (d.sock e.parties))

omit [DecidableEq κ] in
include hout in
/-- When those of `H` have written their part of a phase, all that a party reads in it is there. -/
theorem offered_of_sent (hi : i ∈ H) {r : Chan → List (Atom κ)} (hr : ∀ d : Chan, d.dst = i → r d <+: D.read d)
    (hs : ∀ d : Chan, d.Valid e.parties → d.src ∈ H → d.dst = i → r d <+: s.sent (d.sock e.parties)) : Offered s i r := by
  intro d hd hdst
  by_cases hsrc : d.src ∈ H
  · exact hs d hd hsrc hdst
  · exact (hr d hdst).trans (hout d hd hsrc (hdst ▸ hi))

include hW hin

/-- A receiver of `H` has what it reads of a sender of `H`, so both have written their part of the offline phase. -/
theorem offline_sent_together (h2 : ∀ j ∈ H, 2 ≤ (s.proc j).rank) {d : Chan} (hd : d.Valid e.parties) (hsrc : d.src ∈ H)
    (hdst : d.dst ∈ H) : offlineSent e d.src (D.merged d.src).toOpened d <+: s.sent (d.sock e.parties) := by
  rcases chan_cases hd with ⟨a, ha, he⟩ | ⟨a, ha, he⟩ | ⟨_, hs, ht⟩
  · have hw := (hW d.src hsrc).sender_sent (h2 d.src hsrc) ha
    rwa [← he] at hw
  · have hpeer : instPeer d.src a ∈ H := by
      have hq : d.dst = instPeer d.src a := congrArg Chan.dst he
      rwa [hq] at hdst
    obtain ⟨_, hb, h3, h4⟩ := inst_peer hd.src ha
    have hback : receiverBack d.src a = senderChan (instPeer d.src a) (Env.peerSlot d.src) := by
      rw [← receiverBack_eq (inst_peer hd.src ha).1 hb, h3, h4]
    have hread := (hin _ (receiverBack_valid hd.src ha) hpeer hsrc).offline
    have hw := (hW d.src hsrc).receiver_sent (h2 d.src hsrc) ha (by
      change offlineRead e d.src (D.merged d.src).toOpened (receiverBack d.src a) =
        offlineSent e (instPeer d.src a) (D.merged (instPeer d.src a)).toOpened (receiverBack d.src a) at hread
      rw [hread, hback]
      exact (hW _ hpeer).sender_sent (h2 _ hpeer) hb)
    rwa [← he] at hw
  · unfold offlineSent
    rw [apport_pi hs ht, List.append_nil]
    exact (hW d.src hsrc).agree_sent ((by omega : 1 ≤ 2).trans (h2 d.src hsrc)) hd rfl

include hout

/-- Phase by phase all of `H` come to the end of `main`. -/
theorem done_of_waiting (hi : i ∈ H) : ∃ m G out, s.proc i = .done m G out := by
  have h1 : ∀ j ∈ H, 1 ≤ (s.proc j).rank := by
    intro j hj
    refine (hW j hj).leave_keys (offered_of_sent hout hj (fun d => keysRead_initial D) fun d hd hsrc hdst => ?_)
    subst hdst
    rw [(hin d hd hsrc hj).keys]
    exact (hW d.src hsrc).keys_sent hd rfl
  have h2 : ∀ j ∈ H, 2 ≤ (s.proc j).rank := by
    intro j hj
    refine (hW j hj).leave_agree (h1 j hj) (offered_of_sent hout hj (fun d hs => hs ▸ agreeRead_initial D d) fun d hd hsrc hdst => ?_)
    subst hdst
    rw [(hin d hd hsrc hj).agree]
    exact (hW d.src hsrc).agree_sent (h1 d.src hsrc) hd rfl
  have h3 : ∀ j ∈ H, 3 ≤ (s.proc j).rank := by
    intro j hj
    refine (hW j hj).leave_offline (h2 j hj) (offered_of_sent hout hj (fun d hs => hs ▸ offlineRead_initial D d) fun d hd hsrc hdst => ?_)
    subst hdst
    rw [(hin d hd hsrc hj).offline]
    exact offline_sent_together hW hin h2 hd hsrc hj
  have h4 : ∀ j ∈ H, 4 ≤ (s.proc j).rank := fun j hj => (hW j hj).leave_bloom (h3 j hj)
  have h5 : ∀ j ∈ H, 5 ≤ (s.proc j).rank := by
    intro j hj
    refine (hW j hj).leave_online (h4 j hj) (offered_of_sent hout hj (fun d hs => hs ▸ onlineRead_initial D d) fun d hd hsrc hdst => ?_)
    subst hdst
    rw [(hin d hd hsrc hj).online]
    exact (hW d.src hsrc).online_sent (h4 d.src hsrc) hd rfl
  by_cases h0 : i = 0
  · refine (hW i hi).end_collect (h5 i hi) h0 (offered_of_sent hout hi (fun d _ => List.prefix_rfl) fun d hd hsrc hdst => ?_)
    -- the Pis of `H` have sent their arrays
    obtain ⟨m, G, out, hp⟩ := (hW d.src hsrc).end_sending (h5 d.src hsrc) fun hs => hd.ne (hs.trans (hdst.trans h0).symm)
    rw [(hin d hd hsrc (hdst ▸ hi)).all, (hW d.src hsrc).end_sent hp hd rfl]
  · exact (hW i hi).end_sending (h5 i hi) h0

end Together

end Mpsi
