/-
Runs in which only some of the parties follow `main`: those of `H`. The others form a coalition. They can write on
their streams whatever they like, read them, and wait for one another in ways `main` knows nothing of.

What a party of `H` has read from another one of `H` is still what that one has by itself, so it is known in
every state what the coalition can change: of the seed of a party only the seeds it has sent to that party
(`coalition_seed`), which need not be the ones it has sent to another, and of the shares only what is made with
the keys between `H` and the coalition (`coalition_shares`).
-/
import Mpsi.Lib.Coalition
import Mpsi.Protocol.SetUp

namespace Mpsi

open Thread Stream Finset

variable {κ : Type} [DecidableEq κ] {e : Env κ} {H : Finset ℕ} {s : State κ e.Not} {i p q : ℕ}

/-- States of runs in which the parties of `H` follow `main`, and any other one does what it likes. -/
def CoalitionReaches (e : Env κ) (H : Finset ℕ) : State κ e.Not → Prop :=
  Reaches (Mixed (· ∈ H) (PStep e) (writer e.parties) (reader e.parties)) (Party.start e)

theorem partyInv_of_coalition (h : CoalitionReaches e H s) (hi : i ∈ H) : PartyInv e i (s.proc i) s.sent s.taken :=
  inv_of_mixed partyInv_follows (fun _ => partyInv_start) h hi

theorem party_of_coalition (h : CoalitionReaches e H s) (hi : i ∈ H) :
    PartyReaches e i (s.alone (writer e.parties) (reader e.parties) i) :=
  alone_of_mixed partyInv_follows (fun _ => partyInv_start) h hi

/-- A run of all parties is one of each coalition. -/
theorem coalition_of_honest (h : HonestReaches e s) : CoalitionReaches e H s :=
  mixed_of_reaches partyInv_follows (fun _ => partyInv_start) h

/-- The coalition. -/
def coalition (e : Env κ) (H : Finset ℕ) : Finset ℕ := range e.parties \ H

omit [DecidableEq κ] in
/-- The other parties are those of `H` and the coalition. -/
theorem sum_others {G : Type} [AddCommMonoid G] (hH : H ⊆ range e.parties) (hq : q ∈ H) (f : ℕ → G) :
    ∑ p ∈ (range e.parties).erase q, f p = ∑ p ∈ H.erase q, f p + ∑ r ∈ coalition e H, f r := by
  have hsplit : (range e.parties).erase q = H.erase q ∪ coalition e H := by
    ext p
    have := @hH p
    have hne : p ∉ H → p ≠ q := fun hp hpq => hp (hpq ▸ hq)
    simp only [mem_erase, mem_union, coalition, mem_sdiff]
    tauto
  rw [hsplit, sum_union]
  exact disjoint_sdiff.mono_left (erase_subset q H)

omit [DecidableEq κ] in
/-- Once a party has its share, it is through with the agreement. -/
theorem agreed_of_share {P : Party κ e.Not} {S : ℕ → Block} (h : P.share = some S) :
    ∃ g, P.agreed = some g ∧ P.keys_recv = some g.keys_recv := by
  cases P with
  | keys | agree | halted | idle => cases h
  | offline g | bloom g | online g | collect g | sending g | done g => exact ⟨_, rfl, rfl⟩

omit [DecidableEq κ] in
/-- With the keys inside `H` as they were generated, these enter two shares, so that only the others are left. -/
theorem sum_shares (hH : H ⊆ range e.parties) {kr r : ℕ → ℕ → Block}
    (hkr : ∀ p ∈ H, ∀ q ∈ H, q ≠ p → kr p (place p q) = e.keys q (place q p)) {c : ℕ} (hc : c < e.Nbf) :
    ∑ p ∈ H, secretSharingAes e.aes e.parties e.Nbf (e.keys p) (kr p) (r p) c =
      ∑ p ∈ H, ∑ q ∈ coalition e H, (e.aes (e.keys p (place p q)) (toBlock 0 c) + e.aes (kr p (place p q)) (toBlock 0 c)) := by
  have hterm : ∀ p ∈ H, secretSharingAes e.aes e.parties e.Nbf (e.keys p) (kr p) (r p) c =
      ∑ q ∈ H.erase p, (e.aes (e.keys p (place p q)) (toBlock 0 c) + e.aes (e.keys q (place q p)) (toBlock 0 c)) +
        ∑ q ∈ coalition e H, (e.aes (e.keys p (place p q)) (toBlock 0 c) + e.aes (kr p (place p q)) (toBlock 0 c)) := by
    intro p hp
    rw [secretSharingAes_eq hc, sum_places (mem_range.1 (hH hp)) _ (fun q => e.aes (e.keys p (place p q)) (toBlock 0 c) +
      e.aes (kr p (place p q)) (toBlock 0 c)) fun _ _ _ => rfl, sum_others hH hp]
    congr 1
    apply sum_congr rfl
    intro q hq
    rw [hkr p hp q (mem_of_mem_erase hq) (ne_of_mem_erase hq)]
  rw [sum_congr rfl hterm, sum_add_distrib, XorGroup.sum_pairs H fun p q => e.aes (e.keys p (place p q)) (toBlock 0 c), zero_add]

section SetUp

variable (h : CoalitionReaches e H s) (hH : H ⊆ range e.parties)

include h hH

/-- What a party of `H` has read in the set-up from another one of `H` is what that one has by itself. -/
theorem coalition_agreed (hp : p ∈ H) (hq : q ∈ H) (hne : p ≠ q) {g : Agreed κ} (hg : (s.proc q).agreed = some g) :
    g.keys_recv (place q p) = e.keys p (place p q) ∧ g.recv (place q p) = (e.commit (e.seed p), e.seed p) := by
  have hpn := mem_range.1 (hH hp)
  have hqn := mem_range.1 (hH hq)
  have hread := ((partyInv_of_coalition h hq).agreed hg).2 ⟨p, q, true⟩ (setUp_valid hqn hpn hne).2 rfl
  have hw := (partyInv_of_coalition h hp).setUpWrote hpn q hqn hne.symm
  -- both begin the stream, and have the same length
  have hlen : (agreeRead q g ⟨p, q, true⟩).length = (agreeSent e p ⟨p, q, true⟩).length := by
    simp [agreeRead, keysRead, agreeSent, keysSent]
  have hpre : agreeRead q g ⟨p, q, true⟩ <+: (s.sent ((Chan.mk p q true).sock e.parties)).take 3 := by
    rw [List.prefix_take_iff]
    exact ⟨hread.trans (s.taken_initial _), by simp [agreeRead, keysRead]⟩
  exact agree_values ((hpre.trans hw).eq_of_length hlen)

/-- In every state, for a party of `H` that is through with the agreement: its seed is the exclusive or of the initial
seeds of `H` and of those the coalition has sent to this party; it has found the commitments in order when those of
the coalition open to them; and it has the seed of another party of `H` when what the coalition has sent to both adds up
to the same. -/
theorem coalition_seed (hq : q ∈ H) {g : Agreed κ} (hg : (s.proc q).agreed = some g) :
    g.seed = ∑ p ∈ H, e.seed p + ∑ r ∈ coalition e H, (g.recv (place q r)).2 ∧
      (g.ok = true ↔ ∀ r ∈ coalition e H, (g.recv (place q r)).1 = e.commit (g.recv (place q r)).2) ∧
      (∀ r ∈ coalition e H, agreeRead q g ⟨r, q, true⟩ <+: s.taken ((Chan.mk r q true).sock e.parties)) ∧
      ∀ q' ∈ H, ∀ g', (s.proc q').agreed = some g' → (g.seed = g'.seed ↔
        ∑ r ∈ coalition e H, (g.recv (place q r)).2 = ∑ r ∈ coalition e H, (g'.recv (place q' r)).2) := by
  have hseed : ∀ q ∈ H, ∀ g, (s.proc q).agreed = some g →
      g.seed = ∑ p ∈ H, e.seed p + ∑ r ∈ coalition e H, (g.recv (place q r)).2 := by
    intro q hq g hg
    have hok := ((partyInv_of_coalition h hq).agreed hg).1
    rw [hok.seed, xorSeeds_eq, sum_places (mem_range.1 (hH hq)) (fun a => (g.recv a).2) (fun p => (g.recv (place q p)).2) fun _ _ _ => rfl,
      sum_others hH hq, ← add_sum_erase H _ hq, add_assoc]
    congr 2
    apply sum_congr rfl
    intro p hp
    rw [(coalition_agreed h hH (mem_of_mem_erase hp) hq (ne_of_mem_erase hp) hg).2]
  obtain ⟨hok, hread⟩ := (partyInv_of_coalition h hq).agreed hg
  have hqn := mem_range.1 (hH hq)
  have hr : ∀ r ∈ coalition e H, r < e.parties ∧ r ≠ q := by
    intro r hr
    obtain ⟨hrn, hrH⟩ := mem_sdiff.1 hr
    exact ⟨mem_range.1 hrn, fun hrq => hrH (hrq ▸ hq)⟩
  refine ⟨hseed q hq g hg, ?_, fun r hrH => hread _ (setUp_valid hqn (hr r hrH).1 (hr r hrH).2).2 rfl, fun q' hq' g' hg' => ?_⟩
  · rw [hok.ok, commitsOk, List.all_eq_true]
    constructor
    · intro hall r hrH
      exact of_decide_eq_true (hall (place q r) (List.mem_range.2 (place_lt hqn (hr r hrH).1 (hr r hrH).2)))
    · intro hall a ha
      obtain ⟨p, hp, hne, rfl⟩ := exists_place_eq hqn (List.mem_range.1 ha)
      apply decide_eq_true
      -- the commitments of `H` are in order
      by_cases hpH : p ∈ H
      · rw [(coalition_agreed h hH hpH hq hne hg).2]
      · exact hall p (mem_sdiff.2 ⟨mem_range.2 hp, hpH⟩)
  · rw [hseed q hq g hg, hseed q' hq' g' hg', add_right_inj]

/-- When all of `H` have their shares, what they add up to is made with the keys between `H` and the coalition. -/
theorem coalition_shares (hn : 3 ≤ e.parties) {S : ℕ → ℕ → Block} (hS : ∀ p ∈ H, (s.proc p).share = some (S p)) :
    ∃ kr : ℕ → ℕ → Block, (∀ p ∈ H, ∀ r ∈ coalition e H, blks [kr p r] <+: s.taken ((Chan.mk r p true).sock e.parties)) ∧
      ∀ c, c < e.Nbf → ∑ p ∈ H, S p c =
        ∑ p ∈ H, ∑ r ∈ coalition e H, (e.aes (e.keys p (place p r)) (toBlock 0 c) + e.aes (kr p r) (toBlock 0 c)) := by
  have hex : ∀ p, ∃ g : Agreed κ, p ∈ H → (s.proc p).agreed = some g ∧
      S p = secretSharingAes e.aes e.parties e.Nbf (e.keys p) g.keys_recv (e.memory p) := by
    intro p
    by_cases hp : p ∈ H
    · obtain ⟨g, hg, hkr⟩ := agreed_of_share (hS p hp)
      obtain ⟨kr, hkr', hSp⟩ := (partyInv_of_coalition h hp).share hn (hS p hp)
      cases hkr.symm.trans hkr'
      exact ⟨g, fun _ => ⟨hg, hSp⟩⟩
    · exact ⟨⟨fun _ => 0, fun _ => (e.commit 0, 0), 0, true⟩, fun hp' => absurd hp' hp⟩
  choose g hg using hex
  refine ⟨fun p r => (g p).keys_recv (place p r), fun p hp r hr => ?_, fun c hc => ?_⟩
  · obtain ⟨hrn, hrH⟩ := mem_sdiff.1 hr
    have hne : r ≠ p := fun hrp => hrH (hrp ▸ hp)
    have hread := ((partyInv_of_coalition h hp).agreed (hg p hp).1).2 _ (setUp_valid (mem_range.1 (hH hp)) (mem_range.1 hrn) hne).2 rfl
    exact (List.prefix_append _ _).trans hread
  · rw [sum_congr rfl fun p hp => by rw [(hg p hp).2]]
    exact sum_shares hH (fun p hp q hq hne => (coalition_agreed h hH hq hp hne (hg p hp).1).1) hc

end SetUp

/-! ## Two of three parties -/

/-- Two of three parties at their end: they have one seed when the third one has sent them seeds that are the same. -/
theorem coalition_seed_three : ∃ (s : State Block 5) (g g' : Agreed Block),
    CoalitionReaches (uniform 3 (fun _ => [0]) fun _ _ => 0) {0, 1} s ∧ (s.proc 0).agreed = some g ∧ (s.proc 1).agreed = some g' ∧
      (g.seed = g'.seed ↔ ∑ r ∈ coalition (uniform 3 (fun _ => [0]) fun _ _ => 0) {0, 1}, (g.recv (place 0 r)).2 =
        ∑ r ∈ coalition (uniform 3 (fun _ => [0]) fun _ _ => 0) {0, 1}, (g'.recv (place 1 r)).2) := by
  obtain ⟨s, hs, hc⟩ := uniform_complete 3 (fun _ => [0]) fun _ _ => 0
  obtain ⟨m, G, out, h0⟩ := hc 0 (by decide)
  obtain ⟨m', G', out', h1⟩ := hc 1 (by decide)
  have hg : (s.proc 0).agreed = some m.toAgreed := by rw [h0]; rfl
  have hg' : (s.proc 1).agreed = some m'.toAgreed := by rw [h1]; rfl
  have hH : ({0, 1} : Finset ℕ) ⊆ range 3 := by decide
  obtain ⟨-, -, -, hsame⟩ := coalition_seed (coalition_of_honest hs) hH (q := 0) (by decide) hg
  exact ⟨s, _, _, coalition_of_honest hs, hg, hg', hsame 1 (by decide) _ hg'⟩

/-- Their shares add up to what is made with the keys of the third. -/
theorem coalition_shares_three : ∃ (s : State Block 5) (kr : ℕ → ℕ → Block) (S : ℕ → ℕ → Block),
    CoalitionReaches (uniform 3 (fun _ => [0]) fun _ _ => 0) {0, 1} s ∧ (∀ p ∈ ({0, 1} : Finset ℕ), (s.proc p).share = some (S p)) ∧
      ∑ p ∈ {0, 1}, S p 0 = ∑ p ∈ {0, 1}, ∑ r ∈ coalition (uniform 3 (fun _ => [0]) fun _ _ => 0) {0, 1},
        ((uniform 3 (fun _ => [0]) fun _ _ => 0).aes ((uniform 3 (fun _ => [0]) fun _ _ => 0).keys p (place p r)) (toBlock 0 0) +
          (uniform 3 (fun _ => [0]) fun _ _ => 0).aes (kr p r) (toBlock 0 0)) := by
  obtain ⟨s, hs, hc⟩ := uniform_complete 3 (fun _ => [0]) fun _ _ => 0
  have hfin := (final_of_complete (uniform_honest 3 _ _) hs hc).1
  have hH : ({0, 1} : Finset ℕ) ⊆ range 3 := by decide
  have hS : ∀ p ∈ ({0, 1} : Finset ℕ), (s.proc p).share = some ((uniformInstances 3 (fun _ => [0]) fun _ _ => 0).merged p).GBF := by
    intro p hp
    have hp3 : p < (uniform 3 (fun _ => [0]) fun _ _ => 0).parties := mem_range.1 (hH hp)
    rw [hfin p hp3, Outcome.final, if_pos hp3]
    split
    · rename_i h0
      subst h0
      rfl
    · rfl
  obtain ⟨kr, -, hsum⟩ := coalition_shares (coalition_of_honest hs) hH (le_refl 3) hS
  exact ⟨s, kr, fun p => ((uniformInstances 3 (fun _ => [0]) fun _ _ => 0).merged p).GBF, coalition_of_honest hs, hS, hsum 0 (by decide)⟩

end Mpsi
