/-
The outcome of a complete run: what every party has in the end. In an honest outcome (`Outcome.Honest`)
the values of each party belong together and what each party has read is what the other one has
written (`Honest.stream`); the outcome of every complete run is honest (`exists_outcome`).
-/
import Mpsi.Apport.Handshake
import Mpsi.Apport.Receiver
import Mpsi.Run.Invariant

namespace Mpsi

open Thread Stream

variable {κ : Type} {e : Env κ} {i a : ℕ}

/-! ## Other ends -/

/-- The other end of an instance is an instance of the other party, and its other end is the first. -/
theorem inst_peer (hi : i < e.parties) (ha : a < slots e.parties i) :
    instPeer i a < e.parties ∧ Env.peerSlot i < slots e.parties (instPeer i a) ∧
      instPeer (instPeer i a) (Env.peerSlot i) = i ∧ Env.peerSlot (instPeer i a) = a := by
  unfold slots at ha
  unfold instPeer Env.peerSlot slots
  by_cases h0 : i = 0
  · subst h0
    simp only [if_true] at ha ⊢
    refine ⟨by omega, by simp, by simp, by simp⟩
  · simp only [if_neg h0] at ha ⊢
    refine ⟨by omega, ?_, ?_, ?_⟩
    · simp only [if_true]; omega
    · simp only [if_true]; omega
    · simp only [if_true]; omega

theorem senderChan_back (hi : i < e.parties) (ha : a < slots e.parties i) :
    (senderChan i a).back = receiverChan (instPeer i a) (Env.peerSlot i) := by
  have h := (inst_peer hi ha).2.2.1
  unfold senderChan receiverChan Chan.back
  rw [h]
  by_cases h0 : i = 0 <;> simp [instPeer, h0]

/-- What one side of an instance writes is what the other side reads, when this holds of the two
directions of every instance. -/
theorem apport_peer {α : Type} {d : Chan} (hd : d.Valid e.parties) {snd rcv snd' rcv' : ℕ → List α}
    (hs : ∀ a, a < slots e.parties d.src → d.dst = instPeer d.src a → snd a = rcv' (Env.peerSlot d.src))
    (hr : ∀ a, a < slots e.parties d.src → d.dst = instPeer d.src a → rcv a = snd' (Env.peerSlot d.src)) :
    apport d.src d.dst d.main snd rcv = apport d.dst d.src d.main snd' rcv' := by
  obtain ⟨p, q, m⟩ := d
  have h1 := hd.src
  have h2 := hd.dst
  have h3 := hd.ne
  simp only at h1 h2 h3 hs hr ⊢
  by_cases hp : p = 0
  · subst hp
    have hq : q ≠ 0 := Ne.symm h3
    have hq1 : q - 1 + 1 = q := by omega
    have ha : q - 1 < slots e.parties 0 := by simp only [slots, if_true]; omega
    have hs' := hs (q - 1) ha (by simp [instPeer, hq1])
    have hr' := hr (q - 1) ha (by simp [instPeer, hq1])
    simp only [Env.peerSlot, if_true] at hs' hr'
    cases m <;> simp [apport, hq, hs', hr']
  · by_cases hq : q = 0
    · subst hq
      have ha : 0 < slots e.parties p := by simp [slots, hp]
      have hs' := hs 0 ha (by simp [instPeer, hp])
      have hr' := hr 0 ha (by simp [instPeer, hp])
      simp only [Env.peerSlot, if_neg hp] at hs' hr'
      cases m <;> simp [apport, hp, hs', hr']
    · simp [apport, hp, hq]

/-! ## Outcomes -/

/-- What a run leaves: the values of every party, and the arrays P0 has received in the end. -/
structure Outcome (e : Env κ) where
  merged : ℕ → Merged κ e.Not
  lists : ℕ → List Block

namespace Outcome

variable (D : Outcome e)

/-- P0's GBF in the end. -/
def total : ℕ → Block := (D.merged 0).total e D.lists

/-- The items P0 prints. -/
def out : List ℤ := getIntersection (e.items 0) (D.merged 0).h_kokhav D.total

/-- What was written on a stream. -/
def sent (d : Chan) : List (Atom κ) :=
  if d.src = 0 then onlineSent e 0 (D.merged 0) d
  else endSent e d.src (D.merged d.src) ((D.merged d.src).sent e d.src) d

/-- What was read from it. -/
def read (d : Chan) : List (Atom κ) :=
  if d.dst = 0 then endRead e 0 (D.merged 0) D.lists d else onlineRead e d.dst (D.merged d.dst) d

/-- The state in which a party ends. -/
def final (i : ℕ) : Party κ e.Not :=
  if i < e.parties then
    if i = 0 then .done (D.merged 0) D.total D.out else .done (D.merged i) ((D.merged i).sent e i) []
  else .idle

end Outcome

/-- All parties have the values of a run in which everybody has read what was written for him. -/
structure Outcome.Honest [DecidableEq κ] (D : Outcome e) : Prop where
  merged : ∀ i, i < e.parties → MergedOk e i (D.merged i)
  keys_recv : ∀ i q, i < e.parties → q < e.parties → q ≠ i → (D.merged i).keys_recv (place i q) = e.keys q (place q i)
  recv : ∀ i q, i < e.parties → q < e.parties → q ≠ i → (D.merged i).recv (place i q) = (e.commit (e.seed q), e.seed q)
  sub_group : ∀ i a, i < e.parties → a < slots e.parties i → ((D.merged i).receiver a).Nc_recv = e.Nc ∧
    ((D.merged i).receiver a).seed_recv = e.seed_sub_group (instPeer i a) (Env.peerSlot i)
  msg : ∀ i a, i < e.parties → a < slots e.parties i →
    ((D.merged (instPeer i a)).sender (Env.peerSlot i)).msg = ((D.merged i).receiver a).cut.message
  func : ∀ i a, i < e.parties → a < slots e.parties i →
    (D.merged (instPeer i a)).func_sender (Env.peerSlot i) = (D.merged i).func_recv a
  lists : ∀ a, a < e.parties - 1 → D.lists a = (List.range e.Nbf).map ((D.merged (a + 1)).sent e (a + 1))

section Honest

variable [DecidableEq κ] {D : Outcome e} (h : D.Honest) {d : Chan} (hd : d.Valid e.parties)

include h hd

/-! ## What was read was written -/

theorem Outcome.Honest.keys_stream : keysRead d.dst (D.merged d.dst).keys_recv d = keysSent e d.src d := by
  unfold keysRead keysSent
  rw [h.keys_recv d.dst d.src hd.dst hd.src hd.ne]

theorem Outcome.Honest.agree_stream : agreeRead d.dst (D.merged d.dst).toAgreed d = agreeSent e d.src d := by
  unfold agreeRead agreeSent
  rw [h.keys_stream hd, h.recv d.dst d.src hd.dst hd.src hd.ne]

theorem Outcome.Honest.offline_stream :
    offlineRead e d.dst (D.merged d.dst).toOpened d = offlineSent e d.src (D.merged d.src).toOpened d := by
  unfold offlineRead offlineSent
  rw [h.agree_stream hd]
  refine congrArg _ (apport_peer hd (fun a ha hq => ?_) fun a ha hq => ?_).symm
  · -- the sub-group a sender opens
    obtain ⟨h1, h2, h3, h4⟩ := inst_peer hd.src ha
    rw [← hq] at h1 h2 h3 h4
    obtain ⟨hNc, hseed⟩ := h.sub_group d.dst _ h1 h2
    rw [hNc, hseed, h3, h4]
  · rw [hq, h.msg d.src a hd.src ha]
    rfl

theorem Outcome.Honest.online_stream : onlineRead e d.dst (D.merged d.dst) d = onlineSent e d.src (D.merged d.src) d := by
  unfold onlineRead onlineSent
  rw [h.offline_stream hd]
  refine congrArg _ (apport_peer hd (fun _ _ _ => rfl) fun a ha hq => ?_).symm
  rw [hq, h.func d.src a hd.src ha]

theorem Outcome.Honest.stream : D.read d = D.sent d := by
  unfold Outcome.read Outcome.sent
  by_cases hs : d.src = 0
  · have ht : d.dst ≠ 0 := fun ht => hd.ne (hs.trans ht.symm)
    rw [if_pos hs, if_neg ht, h.online_stream hd, hs]
  · rw [if_neg hs]
    by_cases ht : d.dst = 0
    · have hon := h.online_stream hd
      rw [ht] at hon
      rw [if_pos ht, endRead, endSent, hon]
      apply congrArg _
      rw [ht]
      have hlist : blks ((List.range e.Nbf).map ((D.merged d.src).sent e d.src)) = (blks (D.lists (Env.peerSlot d.src)) : List (Atom κ)) := by
        have h1 : d.src - 1 + 1 = d.src := by omega
        rw [Env.peerSlot, if_neg hs, h.lists _ (by have := hd.src; omega), h1]
      have hp : apport d.src d.dst d.main (fun _ => blks ((List.range e.Nbf).map ((D.merged d.src).sent e d.src))) (fun _ => []) =
          (apport d.dst d.src d.main (fun _ => []) fun a => blks (D.lists a) : List (Atom κ)) :=
        apport_peer hd (fun _ _ _ => hlist) fun _ _ _ => rfl
      rw [ht] at hp
      exact hp.symm
    · rw [if_neg ht, h.online_stream hd, endSent, apport_pi hs ht, List.append_nil]

end Honest

/-! ## What was read determines the values -/

theorem prefix_split {μ : Type} {x y u v : List μ} (h : x ++ u <+: y ++ v) (hl : x.length = y.length) : x = y ∧ u <+: v := by
  obtain ⟨t, ht⟩ := h
  rw [List.append_assoc] at ht
  obtain ⟨rfl, h2⟩ := List.append_inj ht hl
  exact ⟨rfl, t, h2⟩

section Unique

variable {d : Chan} {u v : List (Atom κ)}

theorem agree_split {g g' : Agreed κ} (h : agreeRead i g d ++ u <+: agreeRead i g' d ++ v) :
    agreeRead i g d = agreeRead i g' d ∧ u <+: v := by
  apply prefix_split h
  cases hm : d.main <;> simp [agreeRead, keysRead, hm]

/-- The count in front says how long the list is. -/
theorem msg_split {m m' : RMessage} (h : ints [m.Nr] ++ ints m.R ++ blks [m.r] ++ u <+: ints [m'.Nr] ++ ints m'.R ++ blks [m'.r] ++ v) :
    m = m' ∧ u <+: v := by
  simp only [List.append_assoc] at h
  obtain ⟨hN, h⟩ := prefix_split h (by simp)
  have hNr : m.Nr = m'.Nr := by simpa using ints_inj.1 hN
  obtain ⟨hR, h⟩ := prefix_split h (by simp [m.len, m'.len, hNr])
  obtain ⟨hr, h⟩ := prefix_split h (by simp)
  have hR' := ints_inj.1 hR
  have hr' : m.r = m'.r := by simpa using blks_inj.1 hr
  refine ⟨?_, h⟩
  cases m; cases m'
  simp only at hNr hR' hr'
  subst hNr hR' hr'
  rfl

theorem receiver_unique {r r' : Receiver e.Not} (h : ReceiverOk e i a r) (h' : ReceiverOk e i a r')
    (hNc : r.Nc_recv = r'.Nc_recv) (hseed : r.seed_recv = r'.seed_recv) : r = r' := by
  obtain ⟨Nc, seed, C, cut, z, o⟩ := r
  obtain ⟨Nc', seed', C', cut', z', o'⟩ := r'
  obtain ⟨_, hC, _, hcut, hv⟩ := h
  obtain ⟨_, hC', _, hcut', hv'⟩ := h'
  simp only at hNc hseed hC hC' hcut hcut' hv hv'
  subst hNc hseed
  obtain rfl := Except.ok.inj (hC.symm.trans hC')
  obtain rfl := Except.ok.inj (hcut.symm.trans hcut')
  obtain ⟨rfl, rfl⟩ := Prod.mk.inj (Except.ok.inj (hv.symm.trans hv'))
  rfl

theorem sender_unique {s s' : Sender e.Not} (h : SenderOk e i a s) (h' : SenderOk e i a s') (hm : s.msg = s'.msg) : s = s' := by
  obtain ⟨C, m⟩ := s
  obtain ⟨C', m'⟩ := s'
  obtain rfl := Except.ok.inj (h.sub_group.symm.trans h'.sub_group)
  obtain rfl : m = m' := hm
  rfl

/-- The first three elements of a stream. -/
theorem agree_values {g : Agreed κ} {q : ℕ} {k s : Block} {c : κ}
    (h : agreeRead i g ⟨q, i, true⟩ = blks [k] ++ (coms [c] ++ blks [s])) :
    g.keys_recv (place i q) = k ∧ g.recv (place i q) = (c, s) := by
  simp only [agreeRead, keysRead, if_true] at h
  obtain ⟨h1, h2⟩ := List.append_inj h (by simp)
  obtain ⟨h3, h4⟩ := List.append_inj h2 (by simp)
  exact ⟨by simpa using blks_inj.1 h1, Prod.ext (by simpa using coms_inj.1 h3) (by simpa using blks_inj.1 h4)⟩

variable [DecidableEq κ]

theorem agreed_unique {g g' : Agreed κ} (hi : i < e.parties) (hg : AgreedOk e i g) (hg' : AgreedOk e i g')
    (h : ∀ q, q < e.parties → q ≠ i → agreeRead i g ⟨q, i, true⟩ = agreeRead i g' ⟨q, i, true⟩) : g = g' := by
  have hk := hg.keys_recv.ext hi hg'.keys_recv fun q hq hne => (agree_values (h q hq hne)).1
  have hr := hg.recv.ext hi hg'.recv fun q hq hne => (agree_values (h q hq hne)).2
  obtain ⟨_, _, hs, ho⟩ := hg
  obtain ⟨_, _, hs', ho'⟩ := hg'
  cases g; cases g'
  simp only at hk hr hs hs' ho ho'
  subst hk hr hs hs' ho ho'
  rfl

theorem opened_unique {o o' : Opened κ e.Not} (hi : i < e.parties) (ho : OpenedOk e i o) (ho' : OpenedOk e i o')
    (h : ∀ d, d.Valid e.parties → d.dst = i → ∃ v, offlineRead e i o d <+: offlineRead e i o' d ++ v) : o = o' := by
  -- what both read of the agreement is the same, so the streams can be compared behind it
  have hag := agreed_unique hi ho.toAgreedOk ho'.toAgreedOk fun q hq hne => by
    obtain ⟨v, hv⟩ := h ⟨q, i, true⟩ (setUp_valid hi hq hne).2 rfl
    unfold offlineRead at hv
    rw [List.append_assoc] at hv
    exact (agree_split hv).1
  have hrcv : o.receiver = o'.receiver := by
    funext a
    by_cases ha : a < slots e.parties i
    · obtain ⟨v, hv⟩ := h (receiverBack i a) (receiverChan_valid hi ha).back rfl
      unfold offlineRead at hv
      rw [hag, List.append_assoc, List.prefix_append_right_inj, apport_receiverBack ha, apport_receiverBack ha] at hv
      rw [← List.append_nil (ints [(o.receiver a).Nc_recv] ++ _)] at hv
      obtain ⟨heq, _⟩ := prefix_split hv (by simp)
      obtain ⟨h1, h2⟩ := List.append_inj heq (by simp)
      exact receiver_unique (ho.receiver a ha) (ho'.receiver a ha) (by simpa using ints_inj.1 h1) (by simpa using blks_inj.1 h2)
    · rw [ho.noReceiver a (not_lt.1 ha), ho'.noReceiver a (not_lt.1 ha)]
  have hsnd : o.sender = o'.sender := by
    funext a
    by_cases ha : a < slots e.parties i
    · obtain ⟨v, hv⟩ := h (senderBack i a) (senderChan_valid hi ha).back rfl
      unfold offlineRead at hv
      rw [hag, List.append_assoc, List.prefix_append_right_inj, apport_senderBack ha, apport_senderBack ha] at hv
      rw [← List.append_nil (ints [(o.sender a).msg.Nr] ++ _ ++ _)] at hv
      exact sender_unique (ho.sender a ha) (ho'.sender a ha) (msg_split hv).1
    · rw [ho.noSender a (not_lt.1 ha), ho'.noSender a (not_lt.1 ha)]
  have hG := ho.GBF
  rw [hag, ← ho'.GBF] at hG
  cases o; cases o'
  simp only at hag hrcv hsnd hG
  subst hag hrcv hsnd hG
  rfl

theorem filtered_unique {b b' : Filtered κ e.Not} (hb : FilteredOk e i b) (hb' : FilteredOk e i b') (h : b.toOpened = b'.toOpened) :
    b = b' := by
  have h1 := hb.BF
  have h2 := hb.h_kokhav
  rw [h, ← hb'.BF] at h1
  rw [h, ← hb'.h_kokhav] at h2
  cases b; cases b'
  simp only at h h1 h2
  subst h h1 h2
  rfl

theorem merged_unique {m m' : Merged κ e.Not} (hi : i < e.parties) (hm : MergedOk e i m) (hm' : MergedOk e i m')
    (h : m.toFiltered = m'.toFiltered)
    (hread : ∀ d, d.Valid e.parties → d.dst = i → ∃ v, onlineRead e i m d <+: onlineRead e i m' d ++ v) : m = m' := by
  have hrcv : m.func_recv = m'.func_recv := by
    funext a
    by_cases ha : a < slots e.parties i
    · have := hm.func_recv a ha
      rw [h, hm'.func_recv a ha] at this
      exact (Except.ok.inj this).symm
    · rw [hm.noFunc_recv a (not_lt.1 ha), hm'.noFunc_recv a (not_lt.1 ha)]
  have hsnd : m.func_sender = m'.func_sender := by
    funext a
    by_cases ha : a < slots e.parties i
    · obtain ⟨v, hv⟩ := hread (senderBack i a) (senderChan_valid hi ha).back rfl
      unfold onlineRead at hv
      rw [h, List.append_assoc, List.prefix_append_right_inj, apport_senderBack ha, apport_senderBack ha] at hv
      rw [← List.append_nil (ints (m.func_sender a))] at hv
      exact ints_inj.1 (prefix_split hv (by simp [hm.func_sender a ha, hm'.func_sender a ha])).1
    · rw [hm.noFunc_sender a (not_lt.1 ha), hm'.noFunc_sender a (not_lt.1 ha)]
  have hs := hm.shared
  have hs' := hm'.shared
  cases m; cases m'
  simp only at h hrcv hsnd
  subst h hrcv hsnd
  cases hs.trans hs'.symm
  rfl

end Unique

/-! ## Complete runs -/

section Chans

variable {D : Outcome e} {m : Merged κ e.Not} (ha : a < slots e.parties i)

include ha

/-- An instance as a sender reads the answer and the function of the receiver. -/
theorem onlineRead_senderBack : onlineRead e i m (senderBack i a) = agreeRead i m.toAgreed (senderBack i a) ++
    ((ints [(m.sender a).msg.Nr] ++ ints (m.sender a).msg.R ++ blks [(m.sender a).msg.r]) ++ ints (m.func_sender a)) := by
  unfold onlineRead
  rw [offlineRead, apport_senderBack ha, apport_senderBack ha, List.append_assoc]

/-- As a receiver it reads the sub-group. -/
theorem onlineRead_receiverBack : onlineRead e i m (receiverBack i a) = agreeRead i m.toAgreed (receiverBack i a) ++
    (ints [(m.receiver a).Nc_recv] ++ blks [(m.receiver a).seed_recv]) := by
  unfold onlineRead
  rw [offlineRead, apport_receiverBack ha, apport_receiverBack ha, List.append_nil]

theorem onlineSent_senderChan : onlineSent e i m (senderChan i a) = agreeSent e i (senderChan i a) ++
    (ints [(e.Nc : ℤ)] ++ blks [e.seed_sub_group i a]) := by
  unfold onlineSent
  rw [offlineSent, apport_sender ha, apport_sender ha, List.append_nil]

theorem onlineSent_receiverChan : onlineSent e i m (receiverChan i a) = agreeSent e i (receiverChan i a) ++
    ((ints [(m.receiver a).cut.message.Nr] ++ ints (m.receiver a).cut.message.R ++ blks [(m.receiver a).cut.message.r]) ++
      ints (m.func_recv a)) := by
  unfold onlineSent
  rw [offlineSent, apport_receiver ha, apport_receiver ha, List.append_assoc]
  rfl

theorem read_senderBack : D.read (senderBack i a) = onlineRead e i (D.merged i) (senderBack i a) := by
  change (if i = 0 then endRead e 0 (D.merged 0) D.lists (senderBack i a) else onlineRead e i (D.merged i) (senderBack i a)) = _
  split
  · rename_i h0
    subst h0
    unfold endRead
    rw [apport_senderBack ha, List.append_nil]
  · rfl

theorem read_receiverBack : D.read (receiverBack i a) =
    onlineRead e i (D.merged i) (receiverBack i a) ++ if i = 0 then blks (D.lists a) else [] := by
  change (if i = 0 then endRead e 0 (D.merged 0) D.lists (receiverBack i a) else onlineRead e i (D.merged i) (receiverBack i a)) = _
  split
  · rename_i h0
    subst h0
    unfold endRead
    rw [apport_receiverBack ha]
  · rw [List.append_nil]

theorem sent_senderChan : D.sent (senderChan i a) = onlineSent e i (D.merged i) (senderChan i a) ++
    if i = 0 then [] else blks ((List.range e.Nbf).map ((D.merged i).sent e i)) := by
  change (if i = 0 then onlineSent e 0 (D.merged 0) (senderChan i a)
    else endSent e i (D.merged i) ((D.merged i).sent e i) (senderChan i a)) = _
  split
  · rename_i h0
    subst h0
    rw [List.append_nil]
  · unfold endSent
    rw [apport_sender ha]

theorem sent_receiverChan : D.sent (receiverChan i a) = onlineSent e i (D.merged i) (receiverChan i a) := by
  change (if i = 0 then onlineSent e 0 (D.merged 0) (receiverChan i a)
    else endSent e i (D.merged i) ((D.merged i).sent e i) (receiverChan i a)) = _
  split
  · rename_i h0
    subst h0
    rfl
  · unfold endSent
    rw [apport_receiver ha, List.append_nil]

end Chans

theorem senderBack_eq (hi : i < e.parties) (ha : a < slots e.parties i) :
    senderBack (instPeer i a) (Env.peerSlot i) = receiverChan i a := by
  obtain ⟨h1, h2, h3, h4⟩ := inst_peer hi ha
  unfold senderBack
  rw [senderChan_back h1 h2, h3, h4]

theorem receiverBack_eq (hi : i < e.parties) (ha : a < slots e.parties i) :
    receiverBack (instPeer i a) (Env.peerSlot i) = senderChan i a := by
  unfold receiverBack
  rw [← senderChan_back hi ha]
  rfl

theorem agreeRead_initial (D : Outcome e) (d : Chan) : agreeRead d.dst (D.merged d.dst).toAgreed d <+: D.read d := by
  unfold Outcome.read
  split
  · rename_i h0
    rw [h0, endRead, onlineRead, offlineRead, List.append_assoc, List.append_assoc]
    exact List.prefix_append _ _
  · unfold onlineRead
    rw [offlineRead, List.append_assoc]
    exact List.prefix_append _ _

theorem agreeSent_prefix_sent (D : Outcome e) (d : Chan) : agreeSent e d.src d <+: D.sent d := by
  unfold Outcome.sent
  split
  · rename_i h0
    rw [h0, onlineSent, offlineSent, List.append_assoc]
    exact List.prefix_append _ _
  · unfold endSent
    rw [onlineSent, offlineSent, List.append_assoc, List.append_assoc]
    exact List.prefix_append _ _

theorem agree_eq_of_initial {D : Outcome e} {d : Chan} (h : D.read d <+: D.sent d) :
    agreeRead d.dst (D.merged d.dst).toAgreed d = agreeSent e d.src d := by
  have hl : (agreeRead d.dst (D.merged d.dst).toAgreed d).length = (agreeSent e d.src d).length := by
    cases hm : d.main <;> simp [agreeRead, keysRead, agreeSent, keysSent, hm]
  exact List.IsPrefix.eq_of_length (List.prefix_of_prefix_length_le ((agreeRead_initial D d).trans h) (agreeSent_prefix_sent D d) hl.le) hl

/-- The values of a receiver bring a function of the filter's length. -/
theorem indexFunc_of_receiver {r : Receiver e.Not} {BF : List Bool} {f : List ℤ} (hr : ReceiverOk e i a r)
    (hf : arrangeTheIndexes none BF r.zeros r.ones r.cut.indexes = .ok f) : IndexFunc r.sub_group (e.bits i a) BF f := by
  obtain ⟨hpos, hC, _, hcut, hv⟩ := hr
  obtain ⟨st, hst, hres⟩ := computeRr_eq r.sub_group (e.bits_length i a) (e.choiceStrings_length i a)
  obtain rfl := Except.ok.inj (hst.symm.trans hcut)
  rw [← getSubGroup_size hC] at hv
  exact indexFunc_of_ok hres hv hf

section Complete

variable [DecidableEq κ] {D : Outcome e}

theorem indexFunc_of_merged {m : Merged κ e.Not} (hm : MergedOk e i m) (ha : a < slots e.parties i) :
    IndexFunc (m.receiver a).sub_group (e.bits i a) m.BF (m.func_recv a) :=
  indexFunc_of_receiver (hm.receiver a ha) (hm.func_recv a ha)

theorem length_BF {b : Filtered κ e.Not} (hb : FilteredOk e i b) : b.BF.length = e.Nbf := by
  rw [hb.BF, List.length_map, List.length_range]

omit [DecidableEq κ] in
/-- A receiver that has read a part of what was written for it has its peer's offer, and P0 the array too. -/
theorem offer_of_initial (hi : i < e.parties) (ha : a < slots e.parties i) (hl : i = 0 → (D.lists a).length = e.Nbf)
    (h : D.read (receiverBack i a) <+: D.sent (receiverBack i a)) :
    ((D.merged i).receiver a).Nc_recv = e.Nc ∧
      ((D.merged i).receiver a).seed_recv = e.seed_sub_group (instPeer i a) (Env.peerSlot i) ∧
      (i = 0 → D.lists a = (List.range e.Nbf).map ((D.merged (a + 1)).sent e (a + 1))) := by
  obtain ⟨h1, h2, h3, h4⟩ := inst_peer hi ha
  have hc : receiverBack i a = senderChan (instPeer i a) (Env.peerSlot i) := by
    rw [← receiverBack_eq h1 h2, h3, h4]
  have hag : agreeRead i (D.merged i).toAgreed (receiverBack i a) = agreeSent e (instPeer i a) (receiverBack i a) :=
    agree_eq_of_initial h
  -- what both streams carry of the agreement is the same, so the rest of one begins the rest of the other
  have hp := h
  rw [read_receiverBack ha, onlineRead_receiverBack ha] at hp
  rw [hc, sent_senderChan h2, onlineSent_senderChan h2, ← hc, List.append_assoc (agreeRead _ _ _),
    List.append_assoc (agreeSent _ _ _), hag, List.prefix_append_right_inj] at hp
  obtain ⟨heq, hrest⟩ := prefix_split hp (by simp)
  obtain ⟨hN, hs⟩ := List.append_inj heq (by simp)
  refine ⟨by simpa using ints_inj.1 hN, by simpa using blks_inj.1 hs, fun h0 => ?_⟩
  subst h0
  have hj : instPeer 0 a = a + 1 := by simp [instPeer]
  rw [hj, if_pos rfl, if_neg (Nat.succ_ne_zero a)] at hrest
  exact blks_inj.1 (hrest.eq_of_length (by simp [hl rfl]))

/-- A sender that has read a part of what was written for it has its peer's message and function. -/
theorem answer_of_initial (hi : i < e.parties) (ha : a < slots e.parties i) (hm : MergedOk e i (D.merged i))
    (hm' : MergedOk e (instPeer i a) (D.merged (instPeer i a))) (h : D.read (receiverChan i a) <+: D.sent (receiverChan i a)) :
    ((D.merged (instPeer i a)).sender (Env.peerSlot i)).msg = ((D.merged i).receiver a).cut.message ∧
      (D.merged (instPeer i a)).func_sender (Env.peerSlot i) = (D.merged i).func_recv a := by
  obtain ⟨_, h2, _, _⟩ := inst_peer hi ha
  have hc := senderBack_eq hi ha
  have hag : agreeRead (instPeer i a) (D.merged (instPeer i a)).toAgreed (receiverChan i a) =
      agreeSent e i (receiverChan i a) := agree_eq_of_initial h
  have hp := h
  rw [sent_receiverChan ha, onlineSent_receiverChan ha] at hp
  rw [← hc, read_senderBack h2, onlineRead_senderBack h2, hc, hag,
    List.prefix_append_right_inj] at hp
  obtain ⟨hmsg, hrest⟩ := msg_split hp
  refine ⟨hmsg, ints_inj.1 (hrest.eq_of_length ?_)⟩
  rw [length_ints, length_ints, hm'.func_sender _ h2, (indexFunc_of_merged hm ha).length, length_BF hm.toFilteredOk]

/-- Parties whose values belong together, each of them having read a part of what was written for it. -/
theorem honest_of_initial (hm : ∀ i, i < e.parties → MergedOk e i (D.merged i))
    (hl : ∀ a, a < e.parties - 1 → (D.lists a).length = e.Nbf)
    (h : ∀ d, d.Valid e.parties → D.read d <+: D.sent d) : D.Honest := by
  have hset : ∀ i q, i < e.parties → q < e.parties → q ≠ i → (D.merged i).keys_recv (place i q) = e.keys q (place q i) ∧
      (D.merged i).recv (place i q) = (e.commit (e.seed q), e.seed q) := fun i q hi hq hne =>
    agree_values (agree_eq_of_initial (h ⟨q, i, true⟩ (setUp_valid hi hq hne).2))
  have hoffer := fun i a (hi : i < e.parties) (ha : a < slots e.parties i) =>
    offer_of_initial hi ha (fun h0 => hl a (by rwa [h0, slots, if_pos rfl] at ha)) (h _ (receiverBack_valid hi ha))
  have hanswer := fun i a (hi : i < e.parties) (ha : a < slots e.parties i) =>
    answer_of_initial hi ha (hm i hi) (hm _ (inst_peer hi ha).1) (h _ (receiverChan_valid hi ha))
  exact ⟨hm, fun i q hi hq hne => (hset i q hi hq hne).1, fun i q hi hq hne => (hset i q hi hq hne).2,
    fun i a hi ha => ⟨(hoffer i a hi ha).1, (hoffer i a hi ha).2.1⟩, fun i a hi ha => (hanswer i a hi ha).1,
    fun i a hi ha => (hanswer i a hi ha).2, fun a ha => (hoffer 0 a (by omega) ha).2.2 rfl⟩

/-- Every party has come to the end of `main`. -/
def Complete (s : State κ e.Not) : Prop := ∀ i, i < e.parties → ∃ m G out, s.proc i = .done m G out

/-- A complete run has an honest outcome. -/
theorem exists_outcome {s : State κ e.Not} (h : HonestReaches e s) (hc : Complete s) :
    ∃ D : Outcome e, D.Honest ∧ (∀ i, i < e.parties → s.proc i = D.final i) ∧
      ∀ d, d.Valid e.parties → s.sent (d.sock e.parties) = D.sent d := by
  have hT := partyInv_of_reaches h
  have : Nonempty (Merged κ e.Not) := ⟨⟨⟨⟨⟨fun _ => 0, fun _ => (e.commit 0, 0), 0, true⟩, fun _ => 0,
    fun _ => Receiver.none e.Not, fun _ => Sender.none e.Not⟩, [], fun _ => .empty⟩, fun _ => [], fun _ => [], fun _ => 0⟩⟩
  -- the choice needs a value for the numbers that are no party
  choose! m G out hdone using hc
  have hinv : ∀ i, i < e.parties → PartyInv e i (.done (m i) (G i) (out i)) s.sent s.taken := fun i hi => hdone i hi ▸ hT.inv i
  -- the lists P0 has read; a set of no parties has none
  obtain ⟨l, hl⟩ : ∃ l : ℕ → List Block, 0 < e.parties → (∀ a, a < e.parties - 1 → (l a).length = e.Nbf) ∧
      G 0 = (m 0).total e l ∧ out 0 = getIntersection (e.items 0) (m 0).h_kokhav (G 0) ∧
      Rest e.parties 0 (onlineSent e 0 (m 0)) (endRead e 0 (m 0) l) s.sent s.taken := by
    by_cases h0 : 0 < e.parties
    · obtain ⟨l, hl⟩ := (hinv 0 h0).2.2.1 rfl
      exact ⟨l, fun _ => hl⟩
    · exact ⟨fun _ => [], fun h => absurd h h0⟩
  let D : Outcome e := ⟨m, l⟩
  have hrest : ∀ i, i < e.parties → i ≠ 0 → G i = (m i).sent e i ∧ out i = [] ∧
      Rest e.parties i (endSent e i (m i) ((m i).sent e i)) (onlineRead e i (m i)) s.sent s.taken := fun i hi h0 => by
    obtain ⟨hG, ho, hr⟩ := (hinv i hi).2.2.2 h0
    rw [hG] at hr
    exact ⟨hG, ho, hr⟩
  have hsent : ∀ d, d.Valid e.parties → s.sent (d.sock e.parties) = D.sent d := by
    intro d hd
    unfold Outcome.sent
    split
    · rename_i h0
      have hpos : 0 < e.parties := h0 ▸ hd.src
      exact ((rest_iff hpos).1 (hl hpos).2.2.2).1 d hd h0
    · rename_i h0
      exact ((rest_iff hd.src).1 (hrest d.src hd.src h0).2.2).1 d hd rfl
  have hread : ∀ d, d.Valid e.parties → s.taken (d.sock e.parties) = D.read d := by
    intro d hd
    unfold Outcome.read
    split
    · rename_i h0
      have hpos : 0 < e.parties := h0 ▸ hd.dst
      exact ((rest_iff hpos).1 (hl hpos).2.2.2).2 d hd h0
    · rename_i h0
      exact ((rest_iff hd.dst).1 (hrest d.dst hd.dst h0).2.2).2 d hd rfl
  refine ⟨D, honest_of_initial (fun i hi => (hinv i hi).2.1) (fun a ha => (hl (by omega)).1 a ha) fun d hd => ?_,
    fun i hi => ?_, hsent⟩
  · rw [← hread d hd, ← hsent d hd]
    exact s.taken_initial _
  · rw [hdone i hi, Outcome.final, if_pos hi]
    split
    · rename_i h0
      subst h0
      obtain ⟨_, hG, ho, _⟩ := hl hi
      rw [ho, hG]
      rfl
    · rename_i h0
      rw [(hrest i hi h0).1, (hrest i hi h0).2.1]

end Complete

end Mpsi
