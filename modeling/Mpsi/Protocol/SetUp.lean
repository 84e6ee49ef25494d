/-
The set-up of the parties: the exchange of the keys with the shares of zero made from them, and the
agreement on the common seed.

Whatever the order of the steps, each party has the keys the others generated for it, so the shares add
up to zero (`shares_zero_sum`), and the parties that agree have the same seed (`common_seed`). A party
does not wait for the others' commitments with its own seed (`seed_before_commitments`); what it waits
for is in `seed_after_own_commitment`.
-/
import Mpsi.Run.Local

namespace Mpsi

open Thread Stream

variable {κ : Type} {e : Env κ} {i : ℕ} {W R : Sock → List (Atom κ)}

/-! ## What a party has from the set-up -/

/-- The array `keys_recv`, once the key exchange is over. -/
def Party.keys_recv {Not : ℕ} : Party κ Not → Option (ℕ → Block)
  | .agree kr _ => some kr
  | .offline g _ => some g.keys_recv
  | .bloom o _ => some o.keys_recv
  | .online b _ _ => some b.keys_recv
  | .collect m _ => some m.keys_recv
  | .sending m _ => some m.keys_recv
  | .done m _ _ => some m.keys_recv
  | _ => none

/-- The results of the seeds agreement, once it is over. -/
def Party.agreed {Not : ℕ} : Party κ Not → Option (Agreed κ)
  | .offline g _ => some g
  | .bloom o _ => some o.toAgreed
  | .online b _ _ => some b.toAgreed
  | .collect m _ => some m.toAgreed
  | .sending m _ => some m.toAgreed
  | .done m _ _ => some m.toAgreed
  | _ => none

/-- The array of `synchGBF` as `secret_sharing_aes` has left it. -/
def Party.share {Not : ℕ} : Party κ Not → Option (ℕ → Block)
  | .offline _ P => match P.ts .shares with
    | .ret _ => some P.mem
    | _ => none
  | .bloom o _ => some o.GBF
  | .online b _ _ => some b.GBF
  | .collect m _ => some m.GBF
  | .sending m _ => some m.GBF
  | .done m _ _ => some m.GBF
  | _ => none

section Inv

variable [DecidableEq κ] {p : Party κ e.Not}

/-- What a party has from the agreement is what it has read. -/
theorem PartyInv.agreed (h : PartyInv e i p W R) {g : Agreed κ} (hg : p.agreed = some g) :
    AgreedOk e i g ∧ ∀ d : Chan, d.Valid e.parties → d.dst = i → agreeRead i g d <+: R (d.sock e.parties) := by
  cases p with
  | keys | agree | halted | idle => cases hg
  | offline g P =>
    cases hg
    exact ⟨h.2.1, fun d hd hs => h.2.2.read_initial hd hs⟩
  | bloom o P =>
    cases hg
    exact ⟨h.2.1.toAgreedOk, fun d hd hs => (List.prefix_append _ _).trans (h.2.2.read_initial hd hs)⟩
  | online b P pipe =>
    cases hg
    exact ⟨h.2.1.toAgreedOk, fun d hd hs => (List.prefix_append _ _).trans (h.2.2.1.read_initial hd hs)⟩
  | collect m P =>
    cases hg
    refine ⟨h.2.2.1.toAgreedOk, fun d hd hs => ?_⟩
    exact ((List.prefix_append _ _).trans (List.prefix_append _ _)).trans (h.2.2.2.read_initial hd hs)
  | sending m G =>
    cases hg
    refine ⟨h.2.2.1.toAgreedOk, fun d hd hs => ?_⟩
    rw [((rest_iff h.1).1 h.2.2.2.2).2 d hd hs]
    exact (List.prefix_append _ _).trans (List.prefix_append _ _)
  | done m G out =>
    cases hg
    refine ⟨h.2.1.toAgreedOk, fun d hd hs => ?_⟩
    by_cases h0 : i = 0
    · obtain ⟨l, _, _, _, hr⟩ := h.2.2.1 h0
      rw [((rest_iff h.1).1 hr).2 d hd hs]
      exact ((List.prefix_append _ _).trans (List.prefix_append _ _)).trans (List.prefix_append _ _)
    · obtain ⟨_, _, hr⟩ := h.2.2.2 h0
      rw [((rest_iff h.1).1 hr).2 d hd hs]
      exact (List.prefix_append _ _).trans (List.prefix_append _ _)

theorem PartyInv.keys_recv (h : PartyInv e i p W R) {kr : ℕ → Block} (hk : p.keys_recv = some kr) {d : Chan}
    (hd : d.Valid e.parties) (hs : d.dst = i) : keysRead i kr d <+: R (d.sock e.parties) := by
  have hag : ∀ g, p.agreed = some g → g.keys_recv = kr → keysRead i kr d <+: R (d.sock e.parties) := by
    rintro g hg rfl
    exact (List.prefix_append _ _).trans ((h.agreed hg).2 d hd hs)
  cases p with
  | keys | halted | idle => cases hk
  | agree kr P =>
    cases hk
    exact h.2.2.read_initial hd hs
  | offline g P | bloom g P | online g P pipe | collect g P | sending g G | done g G out => exact hag _ rfl (Option.some.inj hk)

/-- The share is the one of the keys received, unless there are only two parties. -/
theorem PartyInv.share (h : PartyInv e i p W R) (hn : 2 < e.parties) {S : ℕ → Block} (hS : p.share = some S) :
    ∃ kr, p.keys_recv = some kr ∧ S = secretSharingAes e.aes e.parties e.Nbf (e.keys i) kr (e.memory i) := by
  have hGBF : ∀ o : Opened κ e.Not, OpenedOk e i o → S = o.GBF →
      S = secretSharingAes e.aes e.parties e.Nbf (e.keys i) o.keys_recv (e.memory i) := by
    rintro o ho rfl
    rw [ho.GBF, if_pos hn]
  cases p with
  | keys | agree | halted | idle => cases hS
  | offline g P =>
    refine ⟨_, rfl, ?_⟩
    unfold Party.share at hS
    dsimp only at hS
    split at hS
    · rename_i hr
      cases hS
      exact offline_shares h.2.2 hn hr
    · cases hS
  | bloom o P => exact ⟨_, rfl, hGBF o h.2.1 (Option.some.inj hS).symm⟩
  | online b P pipe => exact ⟨_, rfl, hGBF b.toOpened h.2.1.toOpenedOk (Option.some.inj hS).symm⟩
  | collect m P => exact ⟨_, rfl, hGBF m.toOpened h.2.2.1.toOpenedOk (Option.some.inj hS).symm⟩
  | sending m G => exact ⟨_, rfl, hGBF m.toOpened h.2.2.1.toOpenedOk (Option.some.inj hS).symm⟩
  | done m G out => exact ⟨_, rfl, hGBF m.toOpened h.2.1.toOpenedOk (Option.some.inj hS).symm⟩

/-! ## Keys and shares -/

omit [DecidableEq κ] in
theorem xorSeeds_eq (n : ℕ) (seed : Block) (recv : ℕ → κ × Block) :
    xorSeeds n seed recv = seed + ∑ a ∈ Finset.range (n - 1), (recv a).2 := by
  unfold xorSeeds
  induction n - 1 with
  | zero => simp
  | succ m ih => rw [List.range_succ, List.foldl_append, ih, Finset.sum_range_succ, ← add_assoc]; rfl

variable {s : State κ e.Not}

/-- What was read on a connection of the set-up begins as what its writer sends in the set-up. -/
theorem taken_agreeSent (h : HonestReaches e s) {p q : ℕ} (hp : p < e.parties) (hq : q < e.parties) (hne : q ≠ p)
    {l : List (Atom κ)} (hl : l <+: s.taken ((Chan.mk p q true).sock e.parties)) (hlen : l.length ≤ 3) :
    l <+: agreeSent e p ⟨p, q, true⟩ := by
  have hw := ((partyInv_of_reaches h).inv p).setUpWrote hp q hq hne
  refine List.IsPrefix.trans ?_ hw
  exact List.prefix_take_iff.2 ⟨hl.trans (s.taken_initial _), hlen⟩

/-- The key a party has at the place of another one is the one that party generated for it. -/
theorem keys_recv_eq (h : HonestReaches e s) {p q : ℕ} (hp : p < e.parties) (hq : q < e.parties) (hne : p ≠ q) {kr : ℕ → Block}
    (hk : (s.proc q).keys_recv = some kr) : kr (place q p) = e.keys p (place p q) := by
  have hd := (setUp_valid hq hp hne).2
  have hr := taken_agreeSent h hp hq hne.symm (((partyInv_of_reaches h).inv q).keys_recv hk hd rfl) (by simp [keysRead])
  have hlen : (keysRead q kr ⟨p, q, true⟩ : List (Atom κ)).length = (keysSent e p ⟨p, q, true⟩).length := by simp [keysRead, keysSent]
  have heq := (List.prefix_of_prefix_length_le hr (List.prefix_append _ _) hlen.le).eq_of_length hlen
  simpa [keysRead, keysSent] using blks_inj.1 heq

/-- For all parties, wherever each of them is in the run: the shares add up to zero, and each has the keys
the others generated for it. -/
theorem shares_zero_sum (hn : 3 ≤ e.parties) {S : ℕ → ℕ → Block}
    (hS : ∀ p, p < e.parties → ∃ t : State κ e.Not, HonestReaches e t ∧ (t.proc p).share = some (S p)) :
    (∀ c, c < e.Nbf → ∑ p ∈ Finset.range e.parties, S p c = 0) ∧
      ∀ t : State κ e.Not, HonestReaches e t → ∀ p q, p < e.parties → q < e.parties → p ≠ q →
        ∀ kr, (t.proc q).keys_recv = some kr → kr (place q p) = e.keys p (place p q) := by
  refine ⟨fun c hc => ?_, fun t ht p q hp hq hne kr hk => keys_recv_eq ht hp hq hne hk⟩
  have hex : ∀ p, ∃ kr : ℕ → Block, p < e.parties →
      S p = secretSharingAes e.aes e.parties e.Nbf (e.keys p) kr (e.memory p) ∧
        ∀ q, q < e.parties → q ≠ p → kr (place p q) = e.keys q (place q p) := by
    intro p
    by_cases hp : p < e.parties
    · obtain ⟨t, ht, hs⟩ := hS p hp
      obtain ⟨kr, hkr, hSp⟩ := ((partyInv_of_reaches ht).inv p).share hn hs
      exact ⟨kr, fun _ => ⟨hSp, fun q hq hne => keys_recv_eq ht hq hp hne hkr⟩⟩
    · exact ⟨fun _ => 0, fun h => absurd h hp⟩
  choose kr hkr using hex
  rw [Finset.sum_congr rfl fun p hp => by rw [(hkr p (Finset.mem_range.1 hp)).1]]
  exact shares_sum_zero (fun p q hp hq hne => (hkr q hq).2 p hp hne) hc

/-- Three parties have shares. -/
theorem shares_zero_sum_three : ∑ p ∈ Finset.range 3, ((uniformInstances 3 (fun _ => [0]) fun _ _ => 0).merged p).GBF 0 = 0 := by
  refine (shares_zero_sum (e := uniform 3 (fun _ => [0]) fun _ _ => 0) le_rfl fun p hp => ?_).1 0 Nat.one_pos
  obtain ⟨t, ht, hc⟩ := uniform_complete 3 (fun _ => [0]) fun _ _ => 0
  refine ⟨t, ht, ?_⟩
  rw [(final_of_complete (uniform_honest 3 _ _) ht hc).1 p hp, Outcome.final, if_pos hp]
  split
  · rename_i h0
    subst h0
    rfl
  · rfl

/-! ## The common seed -/

/-- What the agreement computes from the seeds of all parties with their commitments. -/
theorem AgreedOk.seed_sum {q : ℕ} {g : Agreed κ} (hok : AgreedOk e q g) (hq : q < e.parties)
    (hrecv : ∀ p, p < e.parties → p ≠ q → g.recv (place q p) = (e.commit (e.seed p), e.seed p)) :
    g.seed = ∑ p ∈ Finset.range e.parties, e.seed p ∧ g.ok = true := by
  refine ⟨?_, ?_⟩
  · rw [hok.seed, xorSeeds_eq, sum_places hq (fun a => (g.recv a).2) e.seed fun p hp hne => by rw [hrecv p hp hne]]
    exact Finset.add_sum_erase _ _ (Finset.mem_range.2 hq)
  · rw [hok.ok, commitsOk, List.all_eq_true]
    intro a ha
    obtain ⟨p, hp, hne, rfl⟩ := exists_place_eq hq (List.mem_range.1 ha)
    simp [hrecv p hp hne]

/-- In every state of a run of all parties: those that are through with the agreement have the same seed,
the exclusive or of all initial ones, and have found the commitments in order; and each party sends its
key, its commitment and its initial seed. -/
theorem common_seed (h : HonestReaches e s) :
    (∀ q, q < e.parties → ∀ g, (s.proc q).agreed = some g → g.seed = ∑ p ∈ Finset.range e.parties, e.seed p ∧ g.ok = true) ∧
      ∀ p q, p < e.parties → q < e.parties → q ≠ p → (s.sent ((Chan.mk p q true).sock e.parties)).take 3 <+:
        blks [e.keys p (place p q)] ++ (coms [e.commit (e.seed p)] ++ blks [e.seed p]) := by
  refine ⟨fun q hq g hg => ?_, fun p q hp hq hne => ((partyInv_of_reaches h).inv p).setUpWrote hp q hq hne⟩
  obtain ⟨hok, hread⟩ := ((partyInv_of_reaches h).inv q).agreed hg
  apply hok.seed_sum hq
  intro p hp hne
  have hr := taken_agreeSent h hp hq hne.symm (hread _ (setUp_valid hq hp hne).2 rfl) (by simp [agreeRead, keysRead])
  have hlen : (agreeRead q g ⟨p, q, true⟩).length = (agreeSent e p ⟨p, q, true⟩).length := by
    simp [agreeRead, keysRead, agreeSent, keysSent]
  exact (agree_values (hr.eq_of_length hlen)).2

/-- Two parties agree. -/
theorem common_seed_two : ∃ s : State Block (uniform 2 (fun _ => []) fun _ _ => 0).Not,
    HonestReaches (uniform 2 (fun _ => []) fun _ _ => 0) s ∧ Complete s ∧
      ∀ q, q < 2 → ∀ g, (s.proc q).agreed = some g → g.seed = ∑ _p ∈ Finset.range 2, 0 ∧ g.ok = true := by
  obtain ⟨s, hs, hc⟩ := uniform_complete 2 (fun _ => []) fun _ _ => 0
  exact ⟨s, hs, hc, (common_seed hs).1⟩

/-! ## What a seed waits for -/

/-- Among parties that send what they like: when a party's seed is on a connection, it came there after the
party's own commitment, and the keys of all others were read. -/
theorem seed_after_own_commitment {s : Alone Sock (Atom κ) (Party κ e.Not)} (h : PartyReaches e i s) (hi : i < e.parties) {q : ℕ}
    (hq : q < e.parties) (hne : q ≠ i) (hw : 3 ≤ (s.wrote ((Chan.mk i q true).sock e.parties)).length) :
    (s.wrote ((Chan.mk i q true).sock e.parties)).take 3 =
        blks [e.keys i (place i q)] ++ (coms [e.commit (e.seed i)] ++ blks [e.seed i]) ∧
      ∀ q', q' < e.parties → q' ≠ i → ∃ key, blks [key] <+: s.read ((Chan.mk q' i true).sock e.parties) := by
  have hinv := partyInv_of_party h
  refine ⟨(hinv.setUpWrote hi q hq hne).eq_of_length ?_, ?_⟩
  · rw [List.length_take, Nat.min_eq_left hw, length_agreeSent]
  · rcases hinv.setUpRead hi with hle | hread
    · have := hle q hq hne
      omega
    · exact hread

/-- A party of two. -/
theorem seed_after_own_commitment_two : ∃ s : Alone Sock (Atom Block) (Party Block 5), s.wrote ((Chan.mk 0 1 true).sock 2) ≠ [] ∧
    ∃ key, blks [key] <+: s.read ((Chan.mk 1 0 true).sock 2) := by
  obtain ⟨s, hs, hc⟩ := uniform_complete 2 (fun _ => []) fun _ _ => 0
  have hd := (setUp_valid (i := 0) (n := 2) (q := 1) (by decide) (by decide) (by decide)).1
  have hsent := (final_of_complete (uniform_honest 2 _ _) hs hc).2 _ hd
  have hp := agreeSent_prefix_sent (uniformInstances 2 (fun _ => []) fun _ _ => 0).outcome ⟨0, 1, true⟩
  rw [← hsent] at hp
  have hw := hp.length_le
  rw [length_agreeSent] at hw
  have ha := alone_of_reaches partyInv_follows (fun _ => partyInv_start) hs 0
  have halone : (s.alone (writer 2) (reader 2) 0).wrote ((Chan.mk 0 1 true).sock 2) = s.sent ((Chan.mk 0 1 true).sock 2) :=
    Net.alone_wrote (writer_sock hd)
  have h := seed_after_own_commitment ha Nat.two_pos Nat.one_lt_two one_ne_zero (halone ▸ hw)
  refine ⟨s.alone (writer 2) (reader 2) 0, fun hnil => ?_, h.2 1 Nat.one_lt_two one_ne_zero⟩
  have hlen : (s.sent ((Chan.mk 0 1 true).sock 2)).length = 0 := congrArg List.length (halone.symm.trans hnil)
  exact absurd (hlen ▸ hw) (by decide)

/-! A run of two parties in which P0 does not wait for P1's commitment. -/

abbrev hastyEnv : Env Block := uniform 2 (fun _ => []) fun _ _ => 0

/-- The link of P0, and the one of P1. -/
def link0 : Link := ⟨0, p0Sender 2 1⟩

def link1 : Link := ⟨0, piReceiver 2 1⟩

/-- P0's threads when they have sent and received a key. -/
def hastyKeys : Pool (Wire Block) Empty Unit Fault KeyResult :=
  ((keysStage hastyEnv 0).start.next (.write link0) (.out (blks [0])) (.ret ()) ()).next (.read link0) (.inp (blks [0])) (.ret (0 : Block)) ()

/-- P0's threads when they have sent the commitment, and when they have sent the seed. -/
def hastyCommit : Pool (Wire Block) Empty Block Fault (SeedResult Block) :=
  (agreeStage hastyEnv 0).start.next (.write link0) (.out (coms [(0 : Block)]))
    (Prog.loadMem >>= fun seed => putBlocks [seed] >>= fun _ => pure ()) 0

def hastySeed : Pool (Wire Block) Empty Block Fault (SeedResult Block) :=
  (hastyCommit.next (.write link0) (.load 0) (putBlocks [0] >>= fun _ => pure ()) 0).next (.write link0) (.out (blks [0])) (.ret ()) 0

theorem hasty_joined : hastyKeys.Joined fun | .read _ => (0 : Block) | .write _ => () := by
  have h0 : links hastyEnv.parties 0 = [link0] := by decide
  have hno : ∀ l, l ≠ link0 → l ∉ links hastyEnv.parties 0 := fun l hl => by rw [h0]; simpa using hl
  rintro (l | l)
  · by_cases hl : l = link0
    · subst hl; rfl
    · have hts : hastyKeys.ts (.read l) = (keysStage hastyEnv 0).prog (.read l) := by
        simp [hastyKeys, Pool.next, hl, Stage.start]
      rw [hts]
      exact if_neg (hno l hl)
  · by_cases hl : l = link0
    · subst hl; rfl
    · have hts : hastyKeys.ts (.write l) = (keysStage hastyEnv 0).prog (.write l) := by
        simp [hastyKeys, Pool.next, hl, Stage.start]
      rw [hts]
      exact if_neg (hno l hl)

theorem exists_hasty : ∃ s : State Block hastyEnv.Not, HonestReaches hastyEnv s ∧
    s.sent link0.sock = blks [0] ++ coms [0] ++ blks [0] ∧ s.sent link1.sock = blks [0] := by
  let kr := fillArray 2 0 (fun _ => (0 : Block)) 0
  have h1 : PStep hastyEnv 1 (Party.start hastyEnv 1) (.send link1.sock (blks [0]))
      (.keys ((keysStage hastyEnv 1).start.next (.write link1) (.out (blks [0])) (.ret ()) ())) := .keys (.out .put rfl)
  have h2 : PStep hastyEnv 0 (Party.start hastyEnv 0) (.send link0.sock (blks [0]))
      (.keys ((keysStage hastyEnv 0).start.next (.write link0) (.out (blks [0])) (.ret ()) ())) := .keys (.out .put rfl)
  have h3 : PStep hastyEnv 0 (.keys ((keysStage hastyEnv 0).start.next (.write link0) (.out (blks [0])) (.ret ()) ()))
      (.recv link0.sock.peer (blks [0])) (.keys hastyKeys) :=
    .keys (.inp (a := SetUp.read link0) (.get (T := Wire Block) (t := Kind.blk) ⟨[(0 : Block)], rfl⟩) rfl)
  have h4 : PStep hastyEnv 0 (.keys hastyKeys) .tau (.agree _ (agreeStage hastyEnv 0).start) := .keysJoin hasty_joined
  have h5 : PStep hastyEnv 0 (.agree kr (agreeStage hastyEnv 0).start) (.send link0.sock (coms [(0 : Block)])) (.agree kr hastyCommit) :=
    .agree (.out (a := SetUp.write link0) .put rfl)
  have h6 : PStep hastyEnv 0 (.agree kr hastyCommit) .tau (.agree kr _) := .agree (.load (P := hastyCommit) (a := SetUp.write link0) (.load _))
  have h7 : PStep hastyEnv 0 (.agree kr _) (.send link0.sock (blks [0])) (.agree kr hastySeed) := .agree (.out (a := SetUp.write link0) .put rfl)
  have e1 : HonestReaches hastyEnv _ := .tail .refl (.send (s := Net.start (Party.start hastyEnv)) (i := 1) h1)
  have e2 := e1.tail (.send (i := 0) h2)
  have e3 := e2.tail (.recv (i := 0) h3 ⟨[], rfl⟩)
  have e4 := e3.tail (.tau (i := 0) h4)
  have e5 := e4.tail (.send (i := 0) h5)
  have e6 := e5.tail (.tau (i := 0) h6)
  have e7 := e6.tail (.send (i := 0) h7)
  exact ⟨_, e7, rfl, rfl⟩

/-- A seed may be on its way before the commitments of the others were received. -/
theorem seed_before_commitments : ¬ ∀ (e : Env Block) (s : State Block e.Not), HonestReaches e s →
    ∀ p q q', p < e.parties → q < e.parties → q' < e.parties → q ≠ p → q' ≠ p →
      3 ≤ (s.sent ((Chan.mk p q true).sock e.parties)).length → 2 ≤ (s.taken ((Chan.mk q' p true).sock e.parties)).length := by
  intro h
  obtain ⟨s, hs, h0, h1⟩ := exists_hasty
  have h01 : (Chan.mk 0 1 true).sock 2 = link0.sock := by decide
  have h10 : (Chan.mk 1 0 true).sock 2 = link1.sock := by decide
  have hlen := h hastyEnv s hs 0 1 1 (by decide) (by decide) (by decide) (by decide) (by decide)
    (by rw [show (Chan.mk 0 1 true).sock hastyEnv.parties = _ from h01, h0]; simp)
  rw [show (Chan.mk 1 0 true).sock hastyEnv.parties = _ from h10] at hlen
  have hle := (s.taken_initial link1.sock).length_le
  rw [h1] at hle
  simp only [length_blks, List.length_singleton] at hle
  omega

end Inv

end Mpsi
