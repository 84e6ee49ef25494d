/-
What a party gives away before the online phase says nothing of its items. Until then `main` has not looked at
them, but for the Bloom filter, whose threads write nothing. So with other items the party can do the same, and
wait in front of the filter, or be stopped: whatever the others send and in whatever order, it can write and read
the same, and but for the filter it has then computed the same (`offlineTraces_eq`).
-/
import Mpsi.Run.Party

namespace Mpsi

open Thread Stream

variable {κ : Type} {e : Env κ} {i : ℕ}

/-! ## Runs before the online phase -/

/-- The same parties with other items. -/
def Env.withItems (e : Env κ) (items : ℕ → List ℤ) : Env κ := { e with items := items }

/-- A phase before the online one. -/
def Party.Offline {Not : ℕ} : Party κ Not → Prop
  | .keys _ => True
  | .agree _ _ => True
  | .offline _ _ => True
  | .bloom _ _ => True
  | _ => False

section Blind

variable [DecidableEq κ]

/-- A step that does not begin the online phase. -/
def OfflineStep (e : Env κ) (i : ℕ) (p : Party κ e.Not) (l : Label Sock (Atom κ)) (p' : Party κ e.Not) : Prop :=
  PStep e i p l p' ∧ (p'.Offline ∨ ∃ f, p' = .halted f)

/-- What a party can write and read before the online phase, among others that write anything. -/
def offlineTraces (e : Env κ) (i : ℕ) : Set (List (Label Sock (Atom κ))) :=
  {ls | ∃ p, Traced (OfflineStep e i) (Party.start e i) ls p}

/-! ## Other items -/

variable {items : ℕ → List ℤ} {p p' : Party κ e.Not} {l : Label Sock (Atom κ)}

/-- The state of the same phase with other items: the filter is at its beginning. -/
def Party.blind (e : Env κ) (i : ℕ) (items : ℕ → List ℤ) : Party κ e.Not → Party κ (e.withItems items).Not
  | .bloom o _ => .bloom o (bloomStage Sock e.aes o.seed e.Nbf e.seeds_num (items i)).start
  | p => p

omit [DecidableEq κ] in
/-- The threads of the filter only compute. -/
theorem bloom_tau {o : Opened κ e.Not} {P P' : Pool (Wire κ) BloomOp BloomMem Fault (fun _ : Fin 37 => Unit)}
    (h : (bloomStage Sock e.aes o.seed e.Nbf e.seeds_num (e.items i)).Step P l P') : l = .tau := by
  cases h with
  | out _ hc => cases hc
  | inp _ hc => cases hc
  | load | op => rfl

/-- A step before the online phase is one with other items too, or it belongs to the filter. -/
theorem offlineStep_blind (items : ℕ → List ℤ) (h : OfflineStep e i p l p') (hp : p.Offline) :
    OfflineStep (e.withItems items) i (p.blind e i items) l (p'.blind e i items) ∨
      (l = .tau ∧ (p'.blind e i items = p.blind e i items ∨ ∃ f, p' = .halted f)) := by
  obtain ⟨hst, hoff⟩ := h
  cases hst with
  | keys hs => exact Or.inl ⟨PStep.keys (e := e.withItems items) hs, hoff⟩
  | keysJoin hj => exact Or.inl ⟨PStep.keysJoin (e := e.withItems items) hj, hoff⟩
  | agree hs => exact Or.inl ⟨PStep.agree (e := e.withItems items) hs, hoff⟩
  | agreeJoin hj => exact Or.inl ⟨PStep.agreeJoin (e := e.withItems items) hj, hoff⟩
  | offline hs => exact Or.inl ⟨PStep.offline (e := e.withItems items) hs, hoff⟩
  | offlineJoin hj => exact Or.inl ⟨PStep.offlineJoin (e := e.withItems items) hj, Or.inl trivial⟩
  | bloom hs => exact Or.inr ⟨bloom_tau hs, Or.inl rfl⟩
  | @fault p f hf =>
    cases p with
    | keys | agree | offline => exact Or.inl ⟨PStep.fault (e := e.withItems items) hf, Or.inr ⟨f, rfl⟩⟩
    | bloom => exact Or.inr ⟨rfl, Or.inr ⟨f, rfl⟩⟩
    | online | collect | sending | done | halted | idle => exact hp.elim
  | bloomJoin =>
    rcases hoff with hoff | ⟨f, hf⟩
    · exact hoff.elim
    · cases hf
  | online | begin | pipe | onlineJoin₀ | onlineJoin | collect | output | comulativeGbfPi => exact hp.elim

/-- A party and the same party with other items: in the same phase, or the former is stopped. -/
def SameOffline (e : Env κ) (i : ℕ) (items : ℕ → List ℤ) (p : Party κ e.Not) (q : Party κ (e.withItems items).Not) : Prop :=
  p.Offline ∧ q = p.blind e i items ∨ p = .idle ∨ ∃ f, p = .halted f

/-- A party that is stopped, or was none, takes no step. -/
theorem sameOffline_step {q : Party κ (e.withItems items).Not} (h : SameOffline e i items p q) (hst : OfflineStep e i p l p') :
    (∃ q', OfflineStep (e.withItems items) i q l q' ∧ SameOffline e i items p' q') ∨
      (l = .tau ∧ SameOffline e i items p' q) := by
  rcases h with ⟨hp, rfl⟩ | rfl | ⟨f, rfl⟩
  · have hsame : SameOffline e i items p' (p'.blind e i items) := hst.2.imp (fun hp' => ⟨hp', rfl⟩) Or.inr
    rcases offlineStep_blind items hst hp with hst' | ⟨rfl, hb⟩
    · exact Or.inl ⟨_, hst', hsame⟩
    · refine Or.inr ⟨rfl, ?_⟩
      rcases hb with hb | hb
      · exact hb ▸ hsame
      · exact Or.inr (Or.inr hb)
  · obtain ⟨hst, -⟩ := hst
    cases hst with
    | fault hf => exact hf.elim
  · obtain ⟨hst, -⟩ := hst
    cases hst with
    | fault hf => exact hf.elim

/-- Whatever a party does before the online phase, it can do with other items. -/
theorem offline_sim (items : ℕ → List ℤ) {ls : List (Label Sock (Atom κ))} (h : Traced (OfflineStep e i) (Party.start e i) ls p) :
    ∃ q, Traced (OfflineStep (e.withItems items) i) (Party.start (e.withItems items) i) ls q ∧ SameOffline e i items p q := by
  have h₀ : SameOffline e i items (Party.start e i) (Party.start (e.withItems items) i) := by
    unfold Party.start
    by_cases hi : i < e.parties
    · rw [if_pos hi]
      exact Or.inl ⟨trivial, if_pos hi⟩
    · rw [if_neg hi]
      exact Or.inr (Or.inl rfl)
  exact traced_sim h₀ sameOffline_step h

theorem offlineTraces_subset (e : Env κ) (i : ℕ) (items : ℕ → List ℤ) : offlineTraces e i ⊆ offlineTraces (e.withItems items) i := by
  rintro ls ⟨p, hp⟩
  obtain ⟨q, hq, _⟩ := offline_sim items hp
  exact ⟨q, hq⟩

/-- The state it then comes to has the same values, the filter apart. -/
theorem traced_blind (items : ℕ → List ℤ) {ls : List (Label Sock (Atom κ))} (h : Traced (OfflineStep e i) (Party.start e i) ls p)
    (hp : p.Offline) : Traced (OfflineStep (e.withItems items) i) (Party.start (e.withItems items) i) ls (p.blind e i items) := by
  obtain ⟨q, hq, hsame⟩ := offline_sim items h
  rcases hsame with ⟨_, rfl⟩ | rfl | ⟨f, rfl⟩
  · exact hq
  · exact hp.elim
  · exact hp.elim

/-- What a party can write and read before the online phase, in any order and whatever the others send, does not
depend on its items, and neither do the states it comes to, but for the filter. -/
theorem offlineTraces_eq (e : Env κ) (i : ℕ) (items : ℕ → List ℤ) : offlineTraces (e.withItems items) i = offlineTraces e i ∧
    ∀ ls p, Traced (OfflineStep e i) (Party.start e i) ls p → p.Offline →
      Traced (OfflineStep (e.withItems items) i) (Party.start (e.withItems items) i) ls (p.blind e i items) :=
  ⟨Set.Subset.antisymm (offlineTraces_subset (e.withItems items) i e.items) (offlineTraces_subset e i items),
    fun _ _ h hp => traced_blind items h hp⟩

end Blind

end Mpsi
