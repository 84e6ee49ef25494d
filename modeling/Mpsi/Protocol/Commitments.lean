/-
The check of the commitments in the seeds agreement. `seeds_agreement_p0` and `seeds_agreement_pi` compare
every commitment they receive with the seed that came with it, print a line when one differs, and add all
the seeds to their own in any case; `main` takes the sum for the hash seeds and the Bloom filter.

A party can receive any pairs, and whatever they are it comes to the end of the agreement
(`exists_agreed`). So the check keeps nothing back: `commitments_stop_iff`.
-/
import Mpsi.Lib.Sim
import Mpsi.Protocol.SetUp

namespace Mpsi

open Thread Stream Relation

variable {κ : Type} [DecidableEq κ]

/-! ## The end of the two functions -/

/-- `while (flag && (j<n))` over the pairs received. -/
def flagLoop (commit : Block → κ) (n : ℕ) (recv : ℕ → κ × Block) (flag : Bool) (j : ℕ) : Bool :=
  if flag ∧ j < n then
    flagLoop commit n recv (if (recv j).1 ≠ commit (recv j).2 then false else flag) (j + 1)
  else flag
termination_by n - j

/-- The variable `seed` when a function of the agreement returns, and the lines it has printed. -/
structure Agreement where
  seed : Block
  lines : List String

/-- What both functions do once their threads are joined, with `n` others. -/
def agreementEnd (commit : Block → κ) (n : ℕ) (seed : Block) (recv : ℕ → κ × Block) : Agreement where
  lines := if flagLoop commit n recv true 0 = false then ["commit is not ok"] else []
  seed := (List.range n).foldl (fun seed p => seed ^^^ (recv p).2) seed

/-- `functions::seeds_agreement_p0`, with `size` instances in `P0_s`. -/
def seedsAgreementP0 (commit : Block → κ) (size : ℕ) (seed : Block) (recv : ℕ → κ × Block) : Agreement :=
  agreementEnd commit size seed recv

/-- `functions::seeds_agreement_pi`. -/
def seedsAgreementPi (commit : Block → κ) (parties : ℕ) (seed : Block) (recv : ℕ → κ × Block) : Agreement :=
  agreementEnd commit (parties - 1) seed recv

/-- The one `main` calls for a player. -/
def seedsAgreement (e : Env κ) (player : ℕ) (recv : ℕ → κ × Block) : Agreement :=
  if player = 0 then seedsAgreementP0 e.commit (e.parties - 1) (e.seed player) recv
  else seedsAgreementPi e.commit e.parties (e.seed player) recv

/-- Every commitment received is the one of the seed received with it. -/
def AllMatch (e : Env κ) (recv : ℕ → κ × Block) : Prop := ∀ j, j < e.parties - 1 → (recv j).1 = e.commit (recv j).2

theorem flagLoop_eq {commit : Block → κ} {n : ℕ} {recv : ℕ → κ × Block} {flag : Bool} {j : ℕ} :
    flagLoop commit n recv flag j = true ↔ flag = true ∧ ∀ k, j ≤ k → k < n → (recv k).1 = commit (recv k).2 := by
  induction flag, j using flagLoop.induct commit n recv with
  | case1 flag j hj ih =>
    obtain ⟨hflag, hlt⟩ := hj
    subst hflag
    simp only [dite_eq_ite] at ih
    unfold flagLoop
    rw [if_pos ⟨rfl, hlt⟩, ih]
    constructor
    · rintro ⟨hc, hrest⟩
      refine ⟨rfl, fun k hk hkn => ?_⟩
      -- the pair compared in this round, or one of a later round
      rcases hk.eq_or_lt with rfl | hk
      · by_contra hne
        rw [if_pos hne] at hc
        cases hc
      · exact hrest k hk hkn
    · rintro ⟨_, hall⟩
      have hj := hall j le_rfl hlt
      exact ⟨if_neg (not_not.2 hj), fun k hk hkn => hall k (by omega) hkn⟩
  | case2 flag j hj =>
    unfold flagLoop
    rw [if_neg hj]
    constructor
    · intro hflag
      exact ⟨hflag, fun k hk hkn => absurd ⟨hflag, hk.trans_lt hkn⟩ hj⟩
    · exact fun h => h.1

theorem flagLoop_eq_commitsOk {commit : Block → κ} {parties : ℕ} {recv : ℕ → κ × Block} :
    flagLoop commit (parties - 1) recv true 0 = commitsOk commit parties recv := by
  rw [Bool.eq_iff_iff, flagLoop_eq]
  simp [commitsOk]

theorem seedsAgreement_eq {e : Env κ} {player : ℕ} {recv : ℕ → κ × Block} :
    seedsAgreement e player recv = ⟨xorSeeds e.parties (e.seed player) recv,
      if commitsOk e.commit e.parties recv = false then ["commit is not ok"] else []⟩ := by
  rw [← flagLoop_eq_commitsOk]
  unfold seedsAgreement
  split
  · rfl
  · rfl

/-! ## A run of the agreement -/

section Run

variable {e : Env κ} {i : ℕ} {recv : ℕ → κ × Block}

/-- Player `i` goes through an agreement in which it receives the pairs `recv`, and `g` is what it goes on with:
`main` hands `g.seed` to `get_seeds`, and to `create_BF_threads` later. -/
def Agrees (e : Env κ) (i : ℕ) (recv : ℕ → κ × Block) (g : Agreed κ) : Prop :=
  ∃ s, PartyReaches e i s ∧ s.proc.agreed = some g ∧ ∀ j, j < e.parties - 1 → g.recv j = recv j

/-- Values with the pairs `recv`, for the scripts of the set-up. -/
def expecting (e : Env κ) (keys_recv : ℕ → Block) (recv : ℕ → κ × Block) : Merged κ e.Not where
  keys_recv := keys_recv
  recv := recv
  seed := 0
  ok := true
  GBF := fun _ => 0
  receiver := fun _ => Receiver.none e.Not
  sender := fun _ => Sender.none e.Not
  BF := []
  h_kokhav := fun _ => .empty
  func_recv := fun _ => []
  func_sender := fun _ => []
  shared := fun _ => 0

/-- The keys can be exchanged. -/
theorem exists_agree_start (hi : i < e.parties) : ∃ s, PartyReaches e i s ∧ ∃ kr, Filled e.parties i 0 kr ∧
    s.proc = .agree kr (agreeStage e i).start ∧ Rest e.parties i (keysSent e i) (keysRead i kr) s.wrote s.read := by
  have hstart := partyInv_start (e := e) (i := i)
  have hkeys : Party.start e i = .keys (keysStage e i).start := if_pos hi
  rw [hkeys] at hstart
  obtain ⟨v, K⟩ := keys_script (m := expecting e (fun _ => 0) fun _ => (e.commit 0, 0)) hi
  obtain ⟨t, hst, hinv, hj, _⟩ := K.exists_run (s := ⟨_, _, _⟩) (keysStage_ported hi) (fun a ha => (keys_active a ha).1)
    hstart.2 fun _ _ => List.nil_prefix
  refine ⟨⟨.agree _ (agreeStage e i).start, t.wrote, t.read⟩, ?_, _, filled_fillArray, rfl, keys_rest hi hinv hj⟩
  unfold PartyReaches AloneReaches
  rw [hkeys]
  exact (alone_map Party.keys (fun _ _ _ h => .keys h) hst).tail (.tau (.keysJoin hj))

/-- A party can receive any pairs, and goes on to the offline phase whatever they are. -/
theorem exists_agreed (hi : i < e.parties) (recv : ℕ → κ × Block) : ∃ g, Agrees e i recv g := by
  obtain ⟨⟨_, W, R⟩, hs, kr, hkr, rfl, hrest⟩ := exists_agree_start (e := e) hi
  obtain ⟨v, K⟩ := agree_script (m := expecting e kr recv) hi
  have hinv := hrest.start (agreeStage_ported hi)
  obtain ⟨t, hst, hinv', hj, hhist⟩ := K.exists_run (s := ⟨_, _, _⟩) (agreeStage_ported hi) (fun a ha => (keys_active a ha).2)
    hinv fun c hc => by
      rw [hrest.read c hc]
      exact onChan_initial (fun d => List.prefix_append _ _) c
  refine ⟨_, ⟨_, t.wrote, t.read⟩,
    (hs.trans (alone_map (Party.agree kr) (fun _ _ _ h => .agree h) hst)).tail (.tau (.agreeJoin hj)), rfl, fun j hlt => ?_⟩
  obtain ⟨q, hq, hne, rfl⟩ := exists_place_eq hi hlt
  have hl := (mem_links hi).2 ⟨q, hq, hne, rfl⟩
  have hends := hinv'.ends hj (.read ⟨place i q, (Chan.mk i q true).sock e.parties⟩)
  rw [agreeStage_read hl, hhist, agreeScript, if_pos hl] at hends
  have hv := ends_seedsRead.1 hends
  unfold agreedOf
  dsimp only
  rw [fillArray_place hi hq hne]
  simp only [List.cons.injEq, Event.inp.injEq, coms_inj, blks_inj, and_true] at hv
  exact Prod.ext hv.1.symm hv.2.symm

/-- Every party that is through with the agreement has all the seeds it received in its own. -/
theorem Agrees.seed {g : Agreed κ} (h : Agrees e i recv g) : g.seed = xorSeeds e.parties (e.seed i) recv := by
  obtain ⟨s, hs, hg, hrecv⟩ := h
  have hok := ((partyInv_of_party hs).agreed hg).1
  rw [hok.seed, xorSeeds_eq, xorSeeds_eq]
  refine congrArg _ (Finset.sum_congr rfl fun a ha => ?_)
  rw [hrecv a (Finset.mem_range.1 ha)]

/-! ## What the check keeps back -/

/-- The seed has some of the seeds received in it. -/
def Includes (e : Env κ) (i : ℕ) (recv : ℕ → κ × Block) (seed : Block) : Prop :=
  ∃ J ⊆ Finset.range (e.parties - 1), J.Nonempty ∧ seed = e.seed i + ∑ j ∈ J, (recv j).2

/-- Failed commitments stop the agreement of player `i` when it receives the pairs `recv`: it does not come out
with a seed that has seeds received in it, and only when all commitments are in order does it go on with the
common seed. -/
structure CommitmentsStop (e : Env κ) (i : ℕ) (recv : ℕ → κ × Block) : Prop where
  stops : (∃ j, j < e.parties - 1 ∧ (recv j).1 ≠ e.commit (recv j).2) → ∀ g, Agrees e i recv g → ¬ Includes e i recv g.seed
  handed : ∀ g, Agrees e i recv g → g.seed = xorSeeds e.parties (e.seed i) recv → AllMatch e recv

theorem Agrees.includes {g : Agreed κ} (h : Agrees e i recv g) (hn : 1 < e.parties) : Includes e i recv g.seed :=
  ⟨Finset.range (e.parties - 1), Finset.Subset.rfl, Finset.nonempty_range_iff.2 (by omega), h.seed.trans (xorSeeds_eq _ _ _)⟩

/-- For every number of parties and all pairs a player may receive: failed commitments stop the agreement exactly
when there are none. In any case the agreement comes to an end, and its seed is the one the function called
computes, own seed and all seeds received. -/
theorem commitments_stop_iff (e : Env κ) {player : ℕ} (hp : player < e.parties) (recv : ℕ → κ × Block) :
    (CommitmentsStop e player recv ↔ AllMatch e recv) ∧ (∃ g, Agrees e player recv g) ∧
      ∀ g, Agrees e player recv g → g.seed = (seedsAgreement e player recv).seed ∧
        g.seed = e.seed player + ∑ j ∈ Finset.range (e.parties - 1), (recv j).2 := by
  refine ⟨⟨fun h => ?_, fun h => ?_⟩, exists_agreed hp recv, fun g hg => ⟨?_, hg.seed.trans (xorSeeds_eq _ _ _)⟩⟩
  · obtain ⟨g, hg⟩ := exists_agreed hp recv
    exact h.handed g hg hg.seed
  · refine ⟨?_, fun _ _ _ => h⟩
    rintro ⟨j, hj, hne⟩
    exact absurd (h j hj) hne
  · rw [seedsAgreement_eq]
    exact hg.seed

end Run

/-- Two parties, and a pair that is in order. -/
theorem commitments_stop_two : ∃ g, Agrees (uniform 2 (fun _ => []) fun _ _ => 0) 0 (fun _ => (toBlock 0 1, toBlock 0 1)) g ∧
    g.seed = toBlock 0 1 := by
  have hp : 0 < (uniform 2 (fun _ => []) fun _ _ => 0).parties := by decide
  obtain ⟨_, ⟨g, hg⟩, hseed⟩ := commitments_stop_iff (uniform 2 (fun _ => []) fun _ _ => 0) hp fun _ => (toBlock 0 1, toBlock 0 1)
  exact ⟨g, hg, (hseed g hg).2⟩

/-- P0 receives a seed with the commitment of another one, and takes it over. -/
theorem not_commitments_stop : ¬ CommitmentsStop (uniform 2 (fun _ => []) fun _ _ => 0) 0 fun _ => (0, toBlock 0 1) := by
  intro h
  have hp : 0 < (uniform 2 (fun _ => []) fun _ _ => 0).parties := by decide
  have hn : 1 < (uniform 2 (fun _ => []) fun _ _ => 0).parties := by decide
  obtain ⟨g, hg⟩ := exists_agreed hp fun _ => (0, toBlock 0 1)
  exact h.stops ⟨0, by decide, by decide⟩ g hg (hg.includes hn)

end Mpsi
