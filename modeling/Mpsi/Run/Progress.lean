/-
Runs with an honest outcome come to their end: every step leaves less to do (`left_net`), and where
no step is left every party has come to the end of `main` (`complete_of_stopped`).
-/
import Mpsi.Run.Waiting

namespace Mpsi

open Thread Stream

variable {κ : Type} [DecidableEq κ] {e : Env κ} {i : ℕ} {W R : Sock → List (Atom κ)} {D : Outcome e}

/-! ## Where no step is left -/

theorem complete_of_stopped (hD : D.Honest) {s : State κ e.Not} (h : HonestReaches e s)
    (hstop : Reach.Stopped (Step (PStep e)) s) : Complete s := by
  have hT := partyInv_of_reaches h
  have htr := tracks_of_reaches hD h
  have hW : ∀ i ∈ Finset.range e.parties, Waiting D s i := by
    intro i hi
    have hlt := Finset.mem_range.1 hi
    refine ⟨⟨hlt, hD.merged i hlt, fun src hsrc j hj => hD.contribution_ok hlt hsrc hj, (hD.at i hlt).2⟩, hT.inv i, (htr i).1, ?_,
      fun l p hp => waits_of_stopped hstop hT.le hp⟩
    intro f hf
    have ht := (htr i).2
    rw [hf] at ht
    exact ht
  intro i hi
  exact done_of_waiting hW (fun d hd _ _ => hD.carried hd) (fun d hd hsrc _ => absurd (Finset.mem_range.2 hd.src) hsrc)
    (Finset.mem_range.2 hi)

/-! ## Every run ends -/

section Left

/-- What the threads of a phase have to do from its beginning, and the step to the next phase. -/
def total {δ σ ι : Type} (A : Finset ι) (sc : ι → List (Event (Wire κ) δ σ)) : ℕ := ∑ a ∈ A, (sc a).length + 1

omit [DecidableEq κ] in
theorem left_start {δ σ ι : Type} {α : ι → Type} {S : Stage (Wire κ) δ σ Fault Sock α} (A : Finset ι)
    (sc : ι → List (Event (Wire κ) δ σ)) : S.start.left A sc + 1 = total A sc := rfl

variable (K : Plan D)

/-! What a party has to do after a phase. -/

def Plan.afterOnline : ℕ := total (Finset.range (e.parties - 1)) K.collect

def Plan.afterBloom (i : ℕ) : ℕ := total (producers (slots e.parties i)) (onlineScript e i (D.merged i)) +
  (Pipe.start fun _ => 0).left (producers (slots e.parties i)) e.Nbf (slots e.parties i * 2) + K.afterOnline

def Plan.afterOffline (i : ℕ) : ℕ := total Finset.univ (K.bloom i) + K.afterBloom i

def Plan.afterAgree (i : ℕ) : ℕ := total (offlineThreads e.parties i) (offlineScript e i (D.merged i)) + K.afterOffline i

def Plan.afterKeys (i : ℕ) : ℕ := total (setUpThreads e.parties i) (agreeScript e i (D.merged i)) + K.afterAgree i

/-- What a party has left to do. -/
def Party.left (i : ℕ) : Party κ e.Not → ℕ
  | .keys P => P.left (setUpThreads e.parties i) (keysScript e i (D.merged i)) + 1 + K.afterKeys i
  | .agree _ P => P.left (setUpThreads e.parties i) (agreeScript e i (D.merged i)) + 1 + K.afterAgree i
  | .offline _ P => P.left (offlineThreads e.parties i) (offlineScript e i (D.merged i)) + 1 + K.afterOffline i
  | .bloom _ P => P.left Finset.univ (K.bloom i) + 1 + K.afterBloom i
  | .online _ P pipe => P.left (producers (slots e.parties i)) (onlineScript e i (D.merged i)) + 1 +
      pipe.left (producers (slots e.parties i)) e.Nbf (slots e.parties i * 2) + K.afterOnline
  | .collect _ P => P.left (Finset.range (e.parties - 1)) K.collect + 1
  | .sending _ _ => 1
  | _ => 0

variable {K}

/-- Every step of a party leaves less to do. -/
theorem left_pstep {p p' : Party κ e.Not} {l : Label Sock (Atom κ)} (h : PartyInv e i p W R) (hf : ∀ f, ¬ p.Faults e i f)
    (hpl : Planned K i p') (hst : PStep e i p l p') : p'.left K i < p.left K i := by
  cases hst with
  | keys hs =>
    have := left_step (A := setUpThreads e.parties i) hs hpl fun a ha => (keys_active a ha).1
    simp only [Party.left]
    omega
  | keysJoin hj =>
    simp only [Party.left, left_start, Plan.afterKeys]
    omega
  | agree hs =>
    have := left_step (A := setUpThreads e.parties i) hs hpl fun a ha => (keys_active a ha).2
    simp only [Party.left]
    omega
  | agreeJoin hj =>
    simp only [Party.left, left_start, Plan.afterAgree]
    omega
  | offline hs =>
    have := left_step hs hpl fun a => offline_active a
    simp only [Party.left]
    omega
  | offlineJoin hj =>
    simp only [Party.left, left_start, Plan.afterOffline]
    omega
  | bloom hs =>
    have := left_step (A := Finset.univ) hs hpl fun a ha => absurd (Finset.mem_univ a) ha
    simp only [Party.left]
    omega
  | bloomJoin hj =>
    have hpipe : ∀ G, (Pipe.start G).left (producers (slots e.parties i)) e.Nbf (slots e.parties i * 2) =
        (Pipe.start fun _ => 0).left (producers (slots e.parties i)) e.Nbf (slots e.parties i * 2) := fun _ => rfl
    simp only [Party.left, left_start, Plan.afterBloom, hpipe]
    omega
  | online hs =>
    have := left_step hs hpl fun a => online_active a
    simp only [Party.left]
    omega
  | begin hsrc _ hpc =>
    have := begin_left e.Nbf (slots e.parties i * 2) hsrc hpc
    simp only [Party.left]
    omega
  | pipe hs =>
    rw [← card_producers] at hs
    have := pipeStep_left h.2.2.2.inv hs
    rw [card_producers] at this
    simp only [Party.left]
    omega
  | onlineJoin₀ _ _ _ =>
    simp only [Party.left, left_start, Plan.afterOnline]
    omega
  | onlineJoin _ _ _ =>
    simp only [Party.left, Plan.afterOnline, total]
    omega
  | collect hs =>
    have := left_step hs hpl K.collect_nil
    simp only [Party.left]
    omega
  | output hj => simp [Party.left]
  | comulativeGbfPi => simp [Party.left]
  | fault h => exact absurd h (hf _)

/-- What all parties have left to do. -/
def State.left (K : Plan D) (s : State κ e.Not) : ℕ := ∑ i ∈ Finset.range e.parties, (s.proc i).left K i

omit [DecidableEq κ] in
theorem left_update {s : State κ e.Not} {i : ℕ} {p : Party κ e.Not} (hi : i < e.parties) (h : p.left K i < (s.proc i).left K i) :
    ∑ j ∈ Finset.range e.parties, (Function.update s.proc i p j).left K j < State.left K s := by
  refine Finset.sum_lt_sum (fun j _ => ?_) ⟨i, Finset.mem_range.2 hi, by rwa [Function.update_self]⟩
  by_cases hj : j = i
  · subst hj; rw [Function.update_self]; exact h.le
  · rw [Function.update_of_ne hj]

theorem left_net (hD : D.Honest) {s t : State κ e.Not} (h : HonestReaches e s) (hst : Step (PStep e) s t) :
    State.left K t < State.left K s := by
  have hT := partyInv_of_reaches h
  have htr := tracks_of_reaches hD h
  have ht : HonestReaches e t := h.tail hst
  have hT' := partyInv_of_reaches ht
  have htr' := tracks_of_reaches hD ht
  have hlt : ∀ {i l p}, PStep e i (s.proc i) l p → t.proc i = p → p.left K i < (s.proc i).left K i ∧ i < e.parties := by
    intro i l p hp htp
    have hf := (planned_of_tracks K hD (hT.inv i) (htr i).1 (htr i).2).no_fault hD (hT.inv i) (htr i).2
    have hpl := planned_of_tracks K hD (hT'.inv i) (htr' i).1 (htr' i).2
    have hi := (hT'.inv i).lt (htp ▸ (hp.live hf).2)
    exact ⟨left_pstep (hT.inv i) hf (htp ▸ hpl) hp, hi⟩
  cases hst with
  | tau hp => exact left_update (hlt hp (Function.update_self _ _ _)).2 (hlt hp (Function.update_self _ _ _)).1
  | send hp => exact left_update (hlt hp (Function.update_self _ _ _)).2 (hlt hp (Function.update_self _ _ _)).1
  | recv hp _ => exact left_update (hlt hp (Function.update_self _ _ _)).2 (hlt hp (Function.update_self _ _ _)).1

end Left

/-- From every state of a run with an honest outcome all parties come to the end. -/
theorem exists_complete (hD : D.Honest) {s : State κ e.Not} (h : HonestReaches e s) :
    ∃ t, Relation.ReflTransGen (Step (PStep e)) s t ∧ HonestReaches e t ∧ Complete t := by
  obtain ⟨K⟩ := exists_plan hD
  obtain ⟨t, hst, ht, hstop⟩ := Reach.exists_stopped (I := HonestReaches e) (fun _ _ hs hst => hs.tail hst) (State.left K)
    (fun _ _ hs hst => left_net hD hs hst) s h
  exact ⟨t, hst, ht, complete_of_stopped hD ht hstop⟩

end Mpsi
