/-
The invariant of a party: where it is in `main`, what it has computed and what it has written and read
belong together. Every step of the party keeps it (`partyInv_follows`), so it holds in every run of all
parties and in every run of one party among others that send what they like.
-/
import Mpsi.Run.Phases

namespace Mpsi

open Thread Stream

variable {κ : Type} {e : Env κ} {i : ℕ} {W R W' R' : Sock → List (Atom κ)}

theorem collectStage_ported {G : ℕ → Block} (hi : 0 < e.parties) :
    (collectStage e G).Ported (fun c => writer e.parties c = 0) (fun c => reader e.parties c = 0) :=
  ported_of_uses hi collect_out collect_inp

/-! ## The first three elements -/

/-- On the first connection to each other party there come the key, the commitment and the party's own
seed, in this order. -/
def SetUpWrote (e : Env κ) (i : ℕ) (W : Sock → List (Atom κ)) : Prop :=
  ∀ q, q < e.parties → q ≠ i → (W ((Chan.mk i q true).sock e.parties)).take 3 <+: agreeSent e i ⟨i, q, true⟩

/-- More than its key a party only writes when it has read the keys of all others. -/
def SetUpRead (e : Env κ) (i : ℕ) (W R : Sock → List (Atom κ)) : Prop :=
  (∀ q, q < e.parties → q ≠ i → (W ((Chan.mk i q true).sock e.parties)).length ≤ 1) ∨
    ∀ q, q < e.parties → q ≠ i → ∃ key, blks [key] <+: R ((Chan.mk q i true).sock e.parties)

theorem length_agreeSent {q : ℕ} : (agreeSent e i ⟨i, q, true⟩).length = 3 := rfl

theorem outs_secretWrite {key : Block} {es q} (h : Follow (secretWrite (κ := κ) key) es q) : outs es <+: blks [key] := by
  rcases follow_put.1 h with ⟨rfl, _⟩ | ⟨es', rfl, h'⟩
  · exact List.nil_prefix
  · rw [(follow_ret.1 h').1]; exact List.prefix_rfl

theorem outs_seedsWrite {commit : κ} {seed : Block} {es q} (h : Follow (seedsWrite commit) es q)
    (hl : ∀ m, .load m ∈ es → m = seed) : outs es <+: coms [commit] ++ blks [seed] := by
  rcases follow_put.1 h with ⟨rfl, _⟩ | ⟨es₁, rfl, h₁⟩
  · exact List.nil_prefix
  rcases follow_load.1 h₁ with ⟨rfl, _⟩ | ⟨m, es₂, rfl, h₂⟩
  · exact List.prefix_append _ _
  obtain rfl := hl m (by simp)
  rcases follow_put.1 h₂ with ⟨rfl, _⟩ | ⟨es₃, rfl, h₃⟩
  · exact List.prefix_append _ _
  · rw [(follow_ret.1 h₃).1]; exact List.prefix_rfl

theorem setUpWrote_of_initial (h : ∀ d, d.Valid e.parties → d.src = i → agreeSent e i d <+: W (d.sock e.parties)) (hi : i < e.parties) :
    SetUpWrote e i W := by
  intro q hq hne
  obtain ⟨t, ht⟩ := h ⟨i, q, true⟩ (setUp_valid hi hq hne).1 rfl
  rw [← ht, List.take_left' length_agreeSent]

theorem setUpRead_of_initial (kr : ℕ → Block)
    (h : ∀ d, d.Valid e.parties → d.dst = i → keysRead i kr d <+: R (d.sock e.parties)) (hi : i < e.parties) : SetUpRead e i W R :=
  Or.inr fun q hq hne => ⟨kr (place i q), h ⟨q, i, true⟩ (setUp_valid hi hq hne).2 rfl⟩

/-- A phase only adds to what was written. -/
theorem Threads.wrote_initial {δ σ ι : Type} {α : ι → Type} [DecidableEq ι] {n : ℕ} {S : Stage (Wire κ) δ σ Fault Sock α}
    {w r : Chan → List (Atom κ)} {P : Pool (Wire κ) δ σ Fault α} (h : Threads n i S w r P W R) {d : Chan} (hd : d.Valid n)
    (hs : d.src = i) : w d <+: W (d.sock n) := by
  by_cases ho : ∃ a, (S.port a).out = some (d.sock n)
  · obtain ⟨a, ha⟩ := ho
    rw [h.wrote.owned ha, onChan_sock hd]
    exact List.prefix_append _ _
  · rw [h.wrote.rest (by rw [writer_sock hd, hs]) (not_exists.1 ho), onChan_sock hd]

theorem Threads.read_initial {δ σ ι : Type} {α : ι → Type} [DecidableEq ι] {n : ℕ} {S : Stage (Wire κ) δ σ Fault Sock α}
    {w r : Chan → List (Atom κ)} {P : Pool (Wire κ) δ σ Fault α} (h : Threads n i S w r P W R) {d : Chan} (hd : d.Valid n)
    (hs : d.dst = i) : r d <+: R (d.sock n) := by
  by_cases ho : ∃ a, (S.port a).inp = some (d.sock n)
  · obtain ⟨a, ha⟩ := ho
    rw [h.read.owned ha, onChan_sock hd]
    exact List.prefix_append _ _
  · rw [h.read.rest (by rw [reader_sock hd, hs]) (not_exists.1 ho), onChan_sock hd]

/-- In the key exchange a party writes a part of its key. -/
theorem keys_wrote {P : Pool (Wire κ) Empty Unit Fault KeyResult} (hi : i < e.parties)
    (h : Threads e.parties i (keysStage e i) (fun _ => []) (fun _ => []) P W R) {q : ℕ} (hq : q < e.parties) (hne : q ≠ i) :
    W ((Chan.mk i q true).sock e.parties) <+: blks [e.keys i (place i q)] := by
  have hd := (setUp_valid hi hq hne).1
  have hs := h.follow (.write ⟨place i q, (Chan.mk i q true).sock e.parties⟩)
  rw [keysStage_write ((mem_links hi).2 ⟨q, hq, hne, rfl⟩)] at hs
  rw [setUp_grown_out hi h.wrote hd rfl, onChan_sock hd]
  exact outs_secretWrite hs

theorem keys_setUpWrote {P : Pool (Wire κ) Empty Unit Fault KeyResult} (hi : i < e.parties)
    (h : Threads e.parties i (keysStage e i) (fun _ => []) (fun _ => []) P W R) : SetUpWrote e i W := by
  intro q hq hne
  exact (List.take_prefix _ _).trans ((keys_wrote hi h hq hne).trans (List.prefix_append _ _))

theorem keys_setUpRead {P : Pool (Wire κ) Empty Unit Fault KeyResult} (hi : i < e.parties)
    (h : Threads e.parties i (keysStage e i) (fun _ => []) (fun _ => []) P W R) : SetUpRead e i W R := by
  left
  intro q hq hne
  simpa using (keys_wrote hi h hq hne).length_le

theorem agree_setUpWrote {kr : ℕ → Block} {P : Pool (Wire κ) Empty Block Fault (SeedResult κ)} (hi : i < e.parties)
    (h : Threads e.parties i (agreeStage e i) (keysSent e i) (keysRead i kr) P W R) : SetUpWrote e i W := by
  intro q hq hne
  have hd := (setUp_valid hi hq hne).1
  have hs := h.follow (.write ⟨place i q, (Chan.mk i q true).sock e.parties⟩)
  rw [agreeStage_write ((mem_links hi).2 ⟨q, hq, hne, rfl⟩)] at hs
  rw [setUp_grown_out hi h.wrote hd rfl, onChan_sock hd]
  exact (List.take_prefix _ _).trans
    ((List.prefix_append_right_inj _).2 (outs_seedsWrite hs fun m hm => (agree_mem h).2 _ m hm))

/-! ## The invariant -/

theorem agreeSent_initial {o : Opened κ e.Not} (d : Chan) : agreeSent e i d <+: offlineSent e i o d := List.prefix_append _ _

theorem offlineSent_initial {m : Merged κ e.Not} (d : Chan) : offlineSent e i m.toOpened d <+: onlineSent e i m d :=
  List.prefix_append _ _

section Inv

variable [DecidableEq κ]

/-- The state of party `i`, what it has written and what it has read belong together. -/
def PartyInv (e : Env κ) (i : ℕ) : Party κ e.Not → (Sock → List (Atom κ)) → (Sock → List (Atom κ)) → Prop
  | .keys P, W, R => i < e.parties ∧ Threads e.parties i (keysStage e i) (fun _ => []) (fun _ => []) P W R
  | .agree kr P, W, R => i < e.parties ∧ Filled e.parties i 0 kr ∧
      Threads e.parties i (agreeStage e i) (keysSent e i) (keysRead i kr) P W R
  | .offline g P, W, R => i < e.parties ∧ AgreedOk e i g ∧
      Threads e.parties i (offlineStage e i g.keys_recv) (agreeSent e i) (agreeRead i g) P W R
  | .bloom o P, W, R => i < e.parties ∧ OpenedOk e i o ∧
      Threads e.parties i (bloomStage Sock e.aes o.seed e.Nbf e.seeds_num (e.items i)) (offlineSent e i o) (offlineRead e i o) P W R
  | .online b P pipe, W, R => i < e.parties ∧ FilteredOk e i b ∧
      Threads e.parties i (onlineStage e i b.BF b.receiver) (offlineSent e i b.toOpened) (offlineRead e i b.toOpened) P W R ∧
      Piping e i b P pipe
  | .collect m P, W, R => i < e.parties ∧ i = 0 ∧ MergedOk e i m ∧
      Threads e.parties i (collectStage e m.shared) (onlineSent e i m) (onlineRead e i m) P W R
  | .sending m G, W, R => i < e.parties ∧ i ≠ 0 ∧ MergedOk e i m ∧ G = m.sent e i ∧
      Rest e.parties i (onlineSent e i m) (onlineRead e i m) W R
  | .done m G out, W, R => i < e.parties ∧ MergedOk e i m ∧
      (i = 0 → ∃ l : ℕ → List Block, (∀ a, a < e.parties - 1 → (l a).length = e.Nbf) ∧ G = m.total e l ∧
        out = getIntersection (e.items i) m.h_kokhav G ∧ Rest e.parties i (onlineSent e i m) (endRead e i m l) W R) ∧
      (i ≠ 0 → G = m.sent e i ∧ out = [] ∧ Rest e.parties i (endSent e i m G) (onlineRead e i m) W R)
  | .halted _, W, R => i < e.parties ∧ SetUpWrote e i W ∧ SetUpRead e i W R
  | .idle, _, _ => e.parties ≤ i

/-- In every state of a party. -/
theorem PartyInv.setUpWrote {p : Party κ e.Not} (h : PartyInv e i p W R) (hi : i < e.parties) : SetUpWrote e i W := by
  have hrest : ∀ {w r : Chan → List (Atom κ)}, Rest e.parties i w r W R → (∀ d, agreeSent e i d <+: w d) → SetUpWrote e i W :=
    fun hr hw => setUpWrote_of_initial (fun d hd hs => by rw [((rest_iff hi).1 hr).1 d hd hs]; exact hw d) hi
  cases p with
  | keys P => exact keys_setUpWrote hi h.2
  | agree kr P => exact agree_setUpWrote hi h.2.2
  | offline g P => exact setUpWrote_of_initial (fun d hd hs => h.2.2.wrote_initial hd hs) hi
  | bloom o P => exact setUpWrote_of_initial (fun d hd hs => (agreeSent_initial d).trans (h.2.2.wrote_initial hd hs)) hi
  | online b P pipe => exact setUpWrote_of_initial (fun d hd hs => (agreeSent_initial d).trans (h.2.2.1.wrote_initial hd hs)) hi
  | collect m P =>
    exact setUpWrote_of_initial (fun d hd hs => ((agreeSent_initial d).trans (offlineSent_initial d)).trans (h.2.2.2.wrote_initial hd hs)) hi
  | sending m G => exact hrest h.2.2.2.2 fun d => (agreeSent_initial d).trans (offlineSent_initial d)
  | done m G out =>
    by_cases h0 : i = 0
    · obtain ⟨l, _, _, _, hr⟩ := h.2.2.1 h0
      exact hrest hr fun d => (agreeSent_initial d).trans (offlineSent_initial d)
    · exact hrest (h.2.2.2 h0).2.2 fun d => ((agreeSent_initial d).trans (offlineSent_initial d)).trans (List.prefix_append _ _)
  | halted f => exact h.2.1
  | idle => exact absurd hi (not_lt.2 h)

theorem PartyInv.setUpRead {p : Party κ e.Not} (h : PartyInv e i p W R) (hi : i < e.parties) : SetUpRead e i W R := by
  have hoff : ∀ (o : Opened κ e.Not) d, keysRead i o.keys_recv d <+: offlineRead e i o d := fun o d =>
    (List.prefix_append _ _).trans (List.prefix_append _ _)
  have hon : ∀ (m : Merged κ e.Not) d, keysRead i m.keys_recv d <+: onlineRead e i m d := fun m d =>
    (hoff m.toOpened d).trans (List.prefix_append _ _)
  cases p with
  | keys P => exact keys_setUpRead hi h.2
  | agree kr P => exact setUpRead_of_initial kr (fun d hd hs => h.2.2.read_initial hd hs) hi
  | offline g P => exact setUpRead_of_initial g.keys_recv (fun d hd hs => (List.prefix_append _ _).trans (h.2.2.read_initial hd hs)) hi
  | bloom o P => exact setUpRead_of_initial o.keys_recv (fun d hd hs => (hoff o d).trans (h.2.2.read_initial hd hs)) hi
  | online b P pipe => exact setUpRead_of_initial b.keys_recv (fun d hd hs => (hoff b.toOpened d).trans (h.2.2.1.read_initial hd hs)) hi
  | collect m P => exact setUpRead_of_initial m.keys_recv (fun d hd hs => (hon m d).trans (h.2.2.2.read_initial hd hs)) hi
  | sending m G =>
    refine setUpRead_of_initial m.keys_recv (fun d hd hs => ?_) hi
    rw [((rest_iff hi).1 h.2.2.2.2).2 d hd hs]
    exact hon m d
  | done m G out =>
    refine setUpRead_of_initial m.keys_recv (fun d hd hs => ?_) hi
    by_cases h0 : i = 0
    · obtain ⟨l, _, _, _, hr⟩ := h.2.2.1 h0
      rw [((rest_iff hi).1 hr).2 d hd hs]
      exact (hon m d).trans (List.prefix_append _ _)
    · rw [((rest_iff hi).1 (h.2.2.2 h0).2.2).2 d hd hs]
      exact hon m d
  | halted f => exact h.2.2
  | idle => exact absurd hi (not_lt.2 h)

theorem partyInv_start : PartyInv e i (Party.start e i) (fun _ => []) (fun _ => []) := by
  have hnil : ∀ c : Sock, ([] : List (Atom κ)) = onChan e.parties (fun _ => []) c := by
    intro c; unfold onChan; split <;> rfl
  unfold Party.start
  split
  · rename_i hi
    exact ⟨hi, inv_start (keysStage_ported hi) (fun c _ => hnil c) fun c _ => hnil c⟩
  · rename_i hi
    exact not_lt.1 hi

theorem PartyInv.lt_of_fault {p : Party κ e.Not} {f : Fault} (h : PartyInv e i p W R) (hf : p.Faults e i f) : i < e.parties := by
  cases p with
  | sending | done | halted | idle => exact hf.elim
  | keys | agree | offline | bloom | online | collect => exact h.1

/-- A party keeps the invariant when it computes and when it goes on to its next phase. -/
theorem partyInv_tau {p p' : Party κ e.Not} (h : PartyInv e i p W R) (hst : PStep e i p .tau p') : PartyInv e i p' W R := by
  generalize hl : (Label.tau : Label Sock (Atom κ)) = lab at hst
  cases hst with
  | keys hs => subst hl; exact ⟨h.1, inv_tau h.2 hs⟩
  | keysJoin hj => exact ⟨h.1, filled_fillArray, (keys_rest h.1 h.2 hj).start (agreeStage_ported h.1)⟩
  | agree hs => subst hl; exact ⟨h.1, h.2.1, inv_tau h.2.2 hs⟩
  | agreeJoin hj =>
    obtain ⟨hg, hr⟩ := agree_rest h.1 h.2.1 h.2.2 hj
    exact ⟨h.1, hg, hr.start (ported_of_uses h.1 offline_out offline_inp)⟩
  | offline hs => subst hl; exact ⟨h.1, h.2.1, inv_tau h.2.2 hs⟩
  | offlineJoin hj =>
    obtain ⟨ho, hr⟩ := offline_rest h.1 h.2.1 h.2.2 hj
    exact ⟨h.1, ho, hr.start bloomStage_ported⟩
  | bloom hs => subst hl; exact ⟨h.1, h.2.1, inv_tau h.2.2 hs⟩
  | bloomJoin hj =>
    obtain ⟨hb, hr⟩ := bloom_rest h.2.1 h.2.2 hj
    exact ⟨h.1, hb, hr.start (ported_of_uses h.1 online_out online_inp), piping_start⟩
  | online hs => subst hl; exact ⟨h.1, h.2.1, inv_tau h.2.2.1 hs, h.2.2.2.threads hs⟩
  | begin hsrc hf hpc => exact ⟨h.1, h.2.1, h.2.2.1, h.2.2.2.begin hsrc hf hpc⟩
  | pipe hs => exact ⟨h.1, h.2.1, h.2.2.1, h.2.2.2.pipe hs⟩
  | onlineJoin₀ h0 hpc hd =>
    subst h0
    obtain ⟨hm, hr⟩ := online_rest h.1 h.2.1 h.2.2.1 h.2.2.2 hpc hd
    exact ⟨h.1, rfl, hm, hr.start (collectStage_ported h.1)⟩
  | onlineJoin h0 hpc hd =>
    obtain ⟨hm, hr⟩ := online_rest h.1 h.2.1 h.2.2.1 h.2.2.2 hpc hd
    exact ⟨h.1, h0, hm, rfl, hr⟩
  | collect hs => subst hl; exact ⟨h.1, h.2.1, h.2.2.1, inv_tau h.2.2.2 hs⟩
  | output hj =>
    obtain ⟨hi, rfl, hm, ht⟩ := h
    obtain ⟨l, hlen, hG, hr⟩ := collect_rest hi ht hj
    exact ⟨hi, hm, fun _ => ⟨l, hlen, hG, rfl, hr⟩, fun h0 => absurd rfl h0⟩
  | comulativeGbfPi => cases hl
  | fault hf => exact ⟨h.lt_of_fault hf, h.setUpWrote (h.lt_of_fault hf), h.setUpRead (h.lt_of_fault hf)⟩

omit [DecidableEq κ] in
/-- A Pi's array goes to P0, and to nobody else. -/
theorem rest_of_sent {m : Merged κ e.Not} {G : ℕ → Block} (hi : i < e.parties) (h0 : i ≠ 0)
    (h : Rest e.parties i (onlineSent e i m) (onlineRead e i m) W R) :
    writer e.parties (senderSock e.parties i 0) = i ∧
      Rest e.parties i (endSent e i m G) (onlineRead e i m)
        (Function.update W (senderSock e.parties i 0) (W (senderSock e.parties i 0) ++ blks ((List.range e.Nbf).map G))) R := by
  have ha : 0 < slots e.parties i := by rw [slots, if_neg h0]; omega
  refine ⟨(inst_writer hi ha).1, (rest_iff hi).2 ⟨fun d hd hs => ?_, ((rest_iff hi).1 h).2⟩⟩
  have hw := ((rest_iff hi).1 h).1 d hd hs
  rw [senderSock_eq]
  by_cases hc : d.sock e.parties = (senderChan i 0).sock e.parties
  · obtain rfl := sock_inj hd (senderChan_valid hi ha) hc
    rw [Function.update_self, hw, endSent, apport_sender ha]
  · rw [Function.update_of_ne hc, hw, endSent]
    rcases chan_cases hd with ⟨a, ha', he⟩ | ⟨a, ha', he⟩ | ⟨_, h1, h2⟩
    · -- slot 0 is a Pi's only one
      rw [hs] at ha' he
      rw [slots, if_neg h0] at ha'
      rw [he, Nat.lt_one_iff.1 ha'] at hc
      exact absurd rfl hc
    · rw [hs] at ha' he
      subst he
      rw [apport_receiver ha', List.append_nil]
    · rw [apport_pi h0 h2, List.append_nil]

theorem partyInv_send {p p' : Party κ e.Not} {c : Sock} {l : List (Atom κ)} (h : PartyInv e i p W R)
    (hst : PStep e i p (.send c l) p') :
    writer e.parties c = i ∧ PartyInv e i p' (Function.update W c (W c ++ l)) R := by
  generalize hl : (Label.send c l : Label Sock (Atom κ)) = lab at hst
  cases hst with
  | keys hs =>
    subst hl
    obtain ⟨hw, ht⟩ := inv_send h.2 (keysStage_ported h.1) hs
    exact ⟨hw, h.1, ht⟩
  | agree hs =>
    subst hl
    obtain ⟨hw, ht⟩ := inv_send h.2.2 (agreeStage_ported h.1) hs
    exact ⟨hw, h.1, h.2.1, ht⟩
  | offline hs =>
    subst hl
    obtain ⟨hw, ht⟩ := inv_send h.2.2 (ported_of_uses h.1 offline_out offline_inp) hs
    exact ⟨hw, h.1, h.2.1, ht⟩
  | bloom hs =>
    subst hl
    obtain ⟨hw, ht⟩ := inv_send h.2.2 bloomStage_ported hs
    exact ⟨hw, h.1, h.2.1, ht⟩
  | online hs =>
    subst hl
    obtain ⟨hw, ht⟩ := inv_send h.2.2.1 (ported_of_uses h.1 online_out online_inp) hs
    exact ⟨hw, h.1, h.2.1, ht, h.2.2.2.threads hs⟩
  | collect hs =>
    subst hl
    obtain ⟨hi, rfl, hm, ht⟩ := h
    obtain ⟨hw, ht⟩ := inv_send ht (collectStage_ported hi) hs
    exact ⟨hw, hi, rfl, hm, ht⟩
  | @comulativeGbfPi m G =>
    cases hl
    obtain ⟨hi, h0, hm, rfl, hr⟩ := h
    obtain ⟨hw, hr'⟩ := rest_of_sent hi h0 hr
    exact ⟨hw, hi, hm, fun h0' => absurd h0' h0, fun _ => ⟨rfl, rfl, hr'⟩⟩
  | keysJoin | agreeJoin | offlineJoin | bloomJoin | begin | pipe | onlineJoin₀ | onlineJoin | output | fault => cases hl

theorem partyInv_recv {p p' : Party κ e.Not} {c : Sock} {l : List (Atom κ)} (h : PartyInv e i p W R)
    (hst : PStep e i p (.recv c l) p') :
    reader e.parties c = i ∧ PartyInv e i p' W (Function.update R c (R c ++ l)) := by
  generalize hl : (Label.recv c l : Label Sock (Atom κ)) = lab at hst
  cases hst with
  | keys hs =>
    subst hl
    obtain ⟨hw, ht⟩ := inv_recv h.2 (keysStage_ported h.1) hs
    exact ⟨hw, h.1, ht⟩
  | agree hs =>
    subst hl
    obtain ⟨hw, ht⟩ := inv_recv h.2.2 (agreeStage_ported h.1) hs
    exact ⟨hw, h.1, h.2.1, ht⟩
  | offline hs =>
    subst hl
    obtain ⟨hw, ht⟩ := inv_recv h.2.2 (ported_of_uses h.1 offline_out offline_inp) hs
    exact ⟨hw, h.1, h.2.1, ht⟩
  | bloom hs =>
    subst hl
    obtain ⟨hw, ht⟩ := inv_recv h.2.2 bloomStage_ported hs
    exact ⟨hw, h.1, h.2.1, ht⟩
  | online hs =>
    subst hl
    obtain ⟨hw, ht⟩ := inv_recv h.2.2.1 (ported_of_uses h.1 online_out online_inp) hs
    exact ⟨hw, h.1, h.2.1, ht, h.2.2.2.threads hs⟩
  | collect hs =>
    subst hl
    obtain ⟨hi, rfl, hm, ht⟩ := h
    obtain ⟨hw, ht⟩ := inv_recv ht (collectStage_ported hi) hs
    exact ⟨hw, hi, rfl, hm, ht⟩
  | comulativeGbfPi => cases hl
  | keysJoin | agreeJoin | offlineJoin | bloomJoin | begin | pipe | onlineJoin₀ | onlineJoin | output | fault => cases hl

/-- Only the party's own streams matter. -/
theorem partyInv_frame {p : Party κ e.Not} (h : PartyInv e i p W R) (hW : ∀ c, writer e.parties c = i → W' c = W c)
    (hR : ∀ c, reader e.parties c = i → R' c = R c) : PartyInv e i p W' R' := by
  cases p with
  | keys P => exact ⟨h.1, h.2.frame (keysStage_ported h.1) hW hR⟩
  | agree kr P => exact ⟨h.1, h.2.1, h.2.2.frame (agreeStage_ported h.1) hW hR⟩
  | offline g P => exact ⟨h.1, h.2.1, h.2.2.frame (ported_of_uses h.1 offline_out offline_inp) hW hR⟩
  | bloom o P => exact ⟨h.1, h.2.1, h.2.2.frame bloomStage_ported hW hR⟩
  | online b P pipe => exact ⟨h.1, h.2.1, h.2.2.1.frame (ported_of_uses h.1 online_out online_inp) hW hR, h.2.2.2⟩
  | collect m P =>
    obtain ⟨hi, rfl, hm, ht⟩ := h
    exact ⟨hi, rfl, hm, ht.frame (collectStage_ported hi) hW hR⟩
  | sending m G => exact ⟨h.1, h.2.1, h.2.2.1, h.2.2.2.1, h.2.2.2.2.frame hW hR⟩
  | done m G out =>
    refine ⟨h.1, h.2.1, fun h0 => ?_, fun h0 => ?_⟩
    · obtain ⟨l, hlen, hG, ho, hr⟩ := h.2.2.1 h0
      exact ⟨l, hlen, hG, ho, hr.frame hW hR⟩
    · obtain ⟨hG, ho, hr⟩ := h.2.2.2 h0
      exact ⟨hG, ho, hr.frame hW hR⟩
  | halted f =>
    refine ⟨h.1, fun q hq hne => ?_, h.2.2.imp (fun hw q hq hne => ?_) fun hr q hq hne => ?_⟩
    · rw [hW _ (writer_sock (setUp_valid h.1 hq hne).1)]
      exact h.2.1 q hq hne
    · rw [hW _ (writer_sock (setUp_valid h.1 hq hne).1)]
      exact hw q hq hne
    · rw [hR _ (reader_sock (setUp_valid h.1 hq hne).2)]
      exact hr q hq hne
  | idle => exact h

theorem partyInv_follows : Follows (PStep e) (writer e.parties) (reader e.parties) (PartyInv e) :=
  ⟨partyInv_tau, partyInv_send, partyInv_recv, partyInv_frame⟩

/-- In every run of all parties. -/
theorem partyInv_of_reaches {s : State κ e.Not} (h : HonestReaches e s) : OnTrack (PartyInv e) s :=
  onTrack_of_reaches partyInv_follows (fun _ => partyInv_start) h

/-- In every run of one party among others that send what they like. -/
theorem partyInv_of_party {s : Alone Sock (Atom κ) (Party κ e.Not)} (h : PartyReaches e i s) :
    PartyInv e i s.proc s.wrote s.read :=
  inv_of_alone partyInv_follows partyInv_start h

end Inv

end Mpsi
