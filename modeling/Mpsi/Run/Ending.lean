/-
A party by itself comes to an end, whatever the others send and in whatever order its threads run. It makes no infinite
run; and as long as it is neither at the end of `main` nor stopped by a fault it can go on, or waits for elements of a message
(`party_ends`). So no thread of a party ever waits for good for another one of the same party.
-/
import Mpsi.Lib.Ending
import Mpsi.Run.Local

namespace Mpsi

open Thread Stream

variable {κ : Type} {e : Env κ} {i : ℕ}

/-! ## The threads of the phases -/

section Served

theorem setUp_served {δ σ : Type} {α : SetUp → Type} {S : Stage (Wire κ) δ σ Fault Sock α} (hS : S.port = setUpPort e.parties i)
    (hread : ∀ l, l ∈ links e.parties i → Confined False True (S.prog (.read l)))
    (hwrite : ∀ l, l ∈ links e.parties i → Confined True False (S.prog (.write l)))
    (hno : ∀ l, l ∉ links e.parties i → (∃ v, S.prog (.read l) = .ret v) ∧ ∃ v, S.prog (.write l) = .ret v) : S.Served := by
  intro a
  rw [hS]
  cases a with
  | read l =>
    by_cases hl : l ∈ links e.parties i
    · simpa [setUpPort, hl] using hread l hl
    · obtain ⟨v, hv⟩ := (hno l hl).1
      rw [hv]
      trivial
  | write l =>
    by_cases hl : l ∈ links e.parties i
    · simpa [setUpPort, hl] using hwrite l hl
    · obtain ⟨v, hv⟩ := (hno l hl).2
      rw [hv]
      trivial

theorem keysStage_served : (keysStage e i).Served := by
  refine setUp_served rfl (fun l hl => ?_) (fun l hl => ?_) fun l hl => ⟨⟨_, if_neg hl⟩, ⟨_, if_neg hl⟩⟩
  · change Confined _ _ (if l ∈ links e.parties i then _ else _)
    rw [if_pos hl]
    exact ⟨trivial, fun _ => trivial⟩
  · change Confined _ _ (if l ∈ links e.parties i then _ else _)
    rw [if_pos hl]
    exact ⟨trivial, trivial⟩

theorem agreeStage_served : (agreeStage e i).Served := by
  refine setUp_served rfl (fun l hl => ?_) (fun l hl => ?_) fun l hl => ⟨⟨_, if_neg hl⟩, ⟨_, if_neg hl⟩⟩
  · change Confined _ _ (if l ∈ links e.parties i then _ else _)
    rw [if_pos hl]
    exact ⟨trivial, fun _ => ⟨trivial, fun _ => trivial⟩⟩
  · change Confined _ _ (if l ∈ links e.parties i then _ else _)
    rw [if_pos hl]
    exact ⟨trivial, fun _ => ⟨trivial, trivial⟩⟩

theorem offlineStage_served {keys_recv : ℕ → Block} : (offlineStage e i keys_recv).Served := by
  intro t
  cases t with
  | receiver a =>
    by_cases ha : a < slots e.parties i
    · simpa [offlineStage, ha] using confined_true _
    · simp [offlineStage, ha, Confined]
  | sender a =>
    by_cases ha : a < slots e.parties i
    · simpa [offlineStage, ha] using confined_true _
    · simp [offlineStage, ha, Confined]
  | shares =>
    change Confined _ _ (if 2 < e.parties then Prog.act () else .ret ())
    split <;> trivial

theorem bloomStage_served {seed : Block} {items : List ℤ} :
    (bloomStage (T := Wire κ) Sock e.aes seed e.Nbf e.seeds_num items).Served := by
  intro a
  have hmod : ∀ x, Confined False False (hashMod e.Nbf x : Prog (Wire κ) BloomOp BloomMem Fault ℕ) := by
    intro x
    unfold hashMod
    split <;> trivial
  have hitem : ∀ n item, Confined False False (bfItem e.aes seed e.Nbf e.seeds_num n item : Prog (Wire κ) BloomOp BloomMem Fault Unit) := by
    intro n item
    refine confined_bind (confined_forEach fun j => confined_bind (hmod _) fun _ => confined_bind (hmod _) fun _ => trivial) fun _ => ?_
    split
    · exact confined_bind (hmod _) fun _ => trivial
    · trivial
  have hthread : Confined False False (bfThread e.aes seed e.Nbf e.seeds_num items (bfStart items.length a) (bfStop items.length a) :
      Prog (Wire κ) BloomOp BloomMem Fault Unit) :=
    confined_forEach fun n => confined_bind (confined_lift _) fun item => hitem n item
  simpa [bloomStage] using hthread

theorem onlineStage_served {BF : List Bool} {receiver : ℕ → Receiver e.Not} : (onlineStage e i BF receiver).Served := by
  rintro ⟨a, _ | _⟩
  · by_cases ha : a < slots e.parties i
    · have hthread : Confined True False (onlineApportReceiver BF (receiver a) : Proc κ Empty Unit (List ℤ)) :=
        confined_bind (confined_lift _) fun _ => ⟨trivial, trivial⟩
      simpa [onlineStage, ha] using hthread
    · simp [onlineStage, ha, Confined]
  · by_cases ha : a < slots e.parties i
    · have hthread : Confined False True (onlineApportSender e.Nbf : Proc κ Empty Unit (List ℤ)) :=
        ⟨trivial, fun _ => trivial⟩
      simpa [onlineStage, ha] using hthread
    · simp [onlineStage, ha, Confined]

theorem collectStage_served {GBF : ℕ → Block} : (collectStage e GBF).Served := by
  intro a
  by_cases ha : a < e.parties - 1
  · have hthread : Confined False True (getGbf chunkSize e.Nbf : Proc κ ChunkXor (ℕ → Block) Unit) := by
      refine confined_bind (confined_forEach fun n => ⟨trivial, fun _ => trivial⟩) fun _ => ?_
      split
      · exact ⟨trivial, fun _ => trivial⟩
      · trivial
    simpa [collectStage, ha] using hthread
  · simp [collectStage, ha, Confined]

end Served

/-! ## No infinite run -/

section Acc

theorem keys_idle (a : SetUp) (ha : a ∉ setUpThreads e.parties i) :
    (∃ v, (keysStage e i).prog a = .ret v) ∧ ∃ v, (agreeStage e i).prog a = .ret v := by
  cases a with
  | read l | write l =>
    have hl : l ∉ links e.parties i := fun hl => ha (by simp [setUpThreads, hl])
    exact ⟨⟨_, if_neg hl⟩, ⟨_, if_neg hl⟩⟩

theorem offline_idle (keys_recv : ℕ → Block) (a : Offline) (ha : a ∉ offlineThreads e.parties i) :
    ∃ v, (offlineStage e i keys_recv).prog a = .ret v := by
  cases a with
  | receiver a | sender a =>
    have hl : ¬ a < slots e.parties i := fun hl => ha (by simp [offlineThreads, hl])
    exact ⟨_, if_neg hl⟩
  | shares => exact absurd (by simp [offlineThreads]) ha

theorem online_idle (BF : List Bool) (receiver : ℕ → Receiver e.Not) (src : Source) (ha : src ∉ producers (slots e.parties i)) :
    ∃ v, (onlineStage e i BF receiver).prog src = .ret v := by
  obtain ⟨a, r⟩ := src
  have hl : ¬ a < slots e.parties i := fun hl => ha (by cases r <;> simp [producers, hl])
  cases r <;> exact ⟨_, if_neg hl⟩

theorem collect_idle (GBF : ℕ → Block) (a : ℕ) (ha : a ∉ Finset.range (e.parties - 1)) :
    ∃ v, (collectStage e GBF).prog a = .ret v := ⟨_, if_neg (by simpa using ha)⟩

variable [DecidableEq κ]

/-- The next states of a party. -/
def PNext (e : Env κ) (i : ℕ) (p' p : Party κ e.Not) : Prop := ∃ l, PStep e i p l p'

theorem acc_done {m : Merged κ e.Not} {G : ℕ → Block} {out : List ℤ} : Acc (PNext e i) (.done m G out) := by
  refine ⟨_, fun p' h => ?_⟩
  obtain ⟨l, hst⟩ := h
  cases hst with
  | fault hf => exact hf.elim

theorem acc_halted {f : Fault} : Acc (PNext e i) (.halted f) := by
  refine ⟨_, fun p' h => ?_⟩
  obtain ⟨l, hst⟩ := h
  cases hst with
  | fault hf => exact hf.elim

theorem acc_idle : Acc (PNext e i) .idle := by
  refine ⟨_, fun p' h => ?_⟩
  obtain ⟨l, hst⟩ := h
  cases hst with
  | fault hf => exact hf.elim

theorem acc_sending {m : Merged κ e.Not} {G : ℕ → Block} : Acc (PNext e i) (.sending m G) := by
  refine ⟨_, fun p' h => ?_⟩
  obtain ⟨l, hst⟩ := h
  cases hst with
  | comulativeGbfPi => exact acc_done
  | fault hf => exact hf.elim

/-- A phase makes no infinite run when what comes after it makes none. -/
theorem acc_phase {δ σ ι : Type} {α : ι → Type} [DecidableEq ι] {S : Stage (Wire κ) δ σ Fault Sock α} {A : Finset ι}
    (f : Pool (Wire κ) δ σ Fault α → Party κ e.Not)
    (hnext : ∀ P l p', PStep e i (f P) l p' → (∃ P', S.Step P l P' ∧ p' = f P') ∨ Acc (PNext e i) p')
    {P : Pool (Wire κ) δ σ Fault α} (h : Idle A P) : Acc (PNext e i) (f P) := by
  have hacc := acc_stage (S := S) h
  induction hacc with
  | intro P _ ih =>
    refine ⟨_, fun p' hp => ?_⟩
    obtain ⟨l, hst⟩ := hp
    rcases hnext P l p' hst with ⟨P', hP, rfl⟩ | hp'
    · exact ih P' ⟨l, hP⟩ (h.step hP)
    · exact hp'

theorem acc_collect {m : Merged κ e.Not} {P : Pool (Wire κ) ChunkXor (ℕ → Block) Fault (fun _ : ℕ => Unit)}
    (h : Idle (Finset.range (e.parties - 1)) P) : Acc (PNext e i) (.collect m P) := by
  refine acc_phase (S := collectStage e m.shared) (Party.collect m) (fun P l p' hst => ?_) h
  cases hst with
  | collect hs => exact Or.inl ⟨_, hs, rfl⟩
  | output => exact Or.inr acc_done
  | fault => exact Or.inr acc_halted

/-- In the online phase the queues have less left with every step in which no thread moves. -/
theorem acc_online {b : Filtered κ e.Not} {P : Pool (Wire κ) Empty Unit Fault (fun _ : Source => List ℤ)} {pipe : Pipe Source}
    (h : Idle (producers (slots e.parties i)) P) (hp : Piping e i b P pipe) : Acc (PNext e i) (.online b P pipe) := by
  have hacc := acc_stage (S := onlineStage e i b.BF b.receiver) h
  induction hacc generalizing pipe with
  | intro P _ ih =>
    induction hn : pipe.left (producers (slots e.parties i)) e.Nbf (producers (slots e.parties i)).card using Nat.strong_induction_on
      generalizing pipe with
    | _ n ihn =>
      subst hn
      refine ⟨_, fun p' hst => ?_⟩
      obtain ⟨l, hst⟩ := hst
      cases hst with
      | online hs => exact ih _ ⟨_, hs⟩ (h.step hs) (hp.threads hs)
      | begin hsrc hf hpc => exact ihn _ (begin_left _ _ hsrc hpc) (hp.begin hsrc hf hpc) rfl
      | pipe hs =>
        have hleft := hs
        rw [← card_producers] at hleft
        exact ihn _ (pipeStep_left hp.inv hleft) (hp.pipe hs) rfl
      | onlineJoin₀ => exact acc_collect (idle_start (collect_idle _))
      | onlineJoin => exact acc_sending
      | fault => exact acc_halted

theorem acc_bloom {o : Opened κ e.Not} {P : Pool (Wire κ) BloomOp BloomMem Fault (fun _ : Fin 37 => Unit)} :
    Acc (PNext e i) (.bloom o P) := by
  refine acc_phase (S := bloomStage Sock e.aes o.seed e.Nbf e.seeds_num (e.items i)) (A := Finset.univ) (Party.bloom o)
    (fun P l p' hst => ?_) fun a ha => absurd (Finset.mem_univ a) ha
  cases hst with
  | bloom hs => exact Or.inl ⟨_, hs, rfl⟩
  | bloomJoin => exact Or.inr (acc_online (idle_start (online_idle _ _)) piping_start)
  | fault => exact Or.inr acc_halted

theorem acc_offline {g : Agreed κ} {P : Pool (Wire κ) Unit (ℕ → Block) Fault (OfflineResult e.Not)}
    (h : Idle (offlineThreads e.parties i) P) : Acc (PNext e i) (.offline g P) := by
  refine acc_phase (S := offlineStage e i g.keys_recv) (Party.offline g) (fun P l p' hst => ?_) h
  cases hst with
  | offline hs => exact Or.inl ⟨_, hs, rfl⟩
  | offlineJoin => exact Or.inr acc_bloom
  | fault => exact Or.inr acc_halted

theorem acc_agree {kr : ℕ → Block} {P : Pool (Wire κ) Empty Block Fault (SeedResult κ)}
    (h : Idle (setUpThreads e.parties i) P) : Acc (PNext e i) (.agree kr P) := by
  refine acc_phase (S := agreeStage e i) (Party.agree kr) (fun P l p' hst => ?_) h
  cases hst with
  | agree hs => exact Or.inl ⟨_, hs, rfl⟩
  | agreeJoin => exact Or.inr (acc_offline (idle_start (offline_idle _)))
  | fault => exact Or.inr acc_halted

theorem acc_keys {P : Pool (Wire κ) Empty Unit Fault KeyResult} (h : Idle (setUpThreads e.parties i) P) :
    Acc (PNext e i) (.keys P) := by
  refine acc_phase (S := keysStage e i) Party.keys (fun P l p' hst => ?_) h
  cases hst with
  | keys hs => exact Or.inl ⟨_, hs, rfl⟩
  | keysJoin => exact Or.inr (acc_agree (idle_start fun a ha => (keys_idle a ha).2))
  | fault => exact Or.inr acc_halted

variable {p : Party κ e.Not} {W R : Sock → List (Atom κ)}

/-- In every state a party can reach. -/
theorem PartyInv.acc (h : PartyInv e i p W R) : Acc (PNext e i) p := by
  cases p with
  | keys P => exact acc_keys (idle_of_follow (fun a ha => (keys_idle a ha).1) h.2.follow)
  | agree kr P => exact acc_agree (idle_of_follow (fun a ha => (keys_idle a ha).2) h.2.2.follow)
  | offline g P => exact acc_offline (idle_of_follow (offline_idle _) h.2.2.follow)
  | bloom o P => exact acc_bloom
  | online b P pipe => exact acc_online (idle_of_follow (online_idle _ _) h.2.2.1.follow) h.2.2.2
  | collect m P => exact acc_collect (idle_of_follow (collect_idle _) h.2.2.2.follow)
  | sending m G => exact acc_sending
  | done m G out => exact acc_done
  | halted f => exact acc_halted
  | idle => exact acc_idle

end Acc

/-! ## No state without a next step -/

section Next

variable [DecidableEq κ] {p : Party κ e.Not} {W R : Sock → List (Atom κ)}

/-- The party goes on, or waits on one of its streams. -/
def Lives (e : Env κ) (i : ℕ) (p : Party κ e.Not) : Prop :=
  Goes (PStep e i) p ∨ ∃ d : Chan, d.Valid e.parties ∧ d.dst = i ∧ WaitsFor (PStep e i) p (d.sock e.parties)

theorem lives_phase {δ σ ι : Type} {α : ι → Type} [DecidableEq ι] {S : Stage (Wire κ) δ σ Fault Sock α} (hi : i < e.parties)
    (f : Pool (Wire κ) δ σ Fault α → Party κ e.Not) (hf : ∀ P l P', S.Step P l P' → PStep e i (f P) l (f P')) (hS : S.Served)
    (hp : S.Ported (fun c => writer e.parties c = i) (fun c => reader e.parties c = i)) {P : Pool (Wire κ) δ σ Fault α}
    (h : ∀ a, Follow (S.prog a) (P.hist a) (P.ts a)) (hjoin : ∀ v, P.Joined v → Goes (PStep e i) (f P))
    (hfault : ∀ x, S.Faults P x → (f P).Faults e i x) : Lives e i (f P) := by
  rcases exists_next hS h with ⟨v, hv⟩ | ⟨x, hx⟩ | hgo | ⟨a, c, hc, hw⟩
  · exact Or.inl (hjoin v hv)
  · exact Or.inl (goes_tau (.fault (hfault x hx)))
  · exact Or.inl (hgo.map f hf)
  · obtain ⟨d, hd, hdst, rfl⟩ := exists_reader hi (hp.inp hc)
    exact Or.inr ⟨d, hd, hdst, hw.map f hf⟩

/-- With all functions there the queues go on to their end, or a consumer reads outside its arrays. -/
theorem goes_online {b : Filtered κ e.Not} {P : Pool (Wire κ) Empty Unit Fault (fun _ : Source => List ℤ)} {pipe : Pipe Source}
    (hp : Piping e i b P pipe) {v : Source → List ℤ} (hv : P.Joined v) : Goes (PStep e i) (.online b P pipe) := by
  by_cases hbegin : ∃ src ∈ producers (slots e.parties i), pipe.pc src = 0
  · obtain ⟨src, hsrc, hpc⟩ := hbegin
    exact goes_tau (.begin hsrc (hv src) hpc)
  by_cases hpipe : ∃ t, PipeStep e.Nbf (slots e.parties i * 2) (contribution none (onlineData e i b.BF P)) pipe t
  · obtain ⟨t, ht⟩ := hpipe
    exact goes_tau (.pipe ht)
  push Not at hbegin hpipe
  have hpc : ∀ src ∈ producers (slots e.parties i), pipe.pc src = 9 := fun src hsrc =>
    pc_of_stopped hp.inv hpipe (Nat.pos_of_ne_zero (hbegin src hsrc))
  rcases done_or_error_of_stopped hp.inv hpc fun t ht => hpipe t (by rwa [← card_producers]) with hd | ⟨lane, g, j, f, hx⟩
  · rw [card_producers] at hd
    by_cases h0 : i = 0
    · exact goes_tau (.onlineJoin₀ h0 hpc hd)
    · exact goes_tau (.onlineJoin h0 hpc hd)
  · exact goes_tau (.fault (Or.inr ⟨lane, g, j, hx⟩))

theorem PartyInv.lives (h : PartyInv e i p W R) (hi : i < e.parties) :
    (∃ m G out, p = .done m G out) ∨ (∃ f, p = .halted f) ∨ Lives e i p := by
  cases p with
  | keys P =>
    exact Or.inr (Or.inr (lives_phase hi Party.keys (fun _ _ _ hs => .keys hs) keysStage_served (keysStage_ported hi) h.2.follow
      (fun v hv => goes_tau (.keysJoin hv)) fun _ hx => hx))
  | agree kr P =>
    exact Or.inr (Or.inr (lives_phase hi (Party.agree kr) (fun _ _ _ hs => .agree hs) agreeStage_served (agreeStage_ported hi) h.2.2.follow
      (fun v hv => goes_tau (.agreeJoin hv)) fun _ hx => hx))
  | offline g P =>
    exact Or.inr (Or.inr (lives_phase hi (Party.offline g) (fun _ _ _ hs => .offline hs) offlineStage_served
      (ported_of_uses hi offline_out offline_inp) h.2.2.follow (fun v hv => goes_tau (.offlineJoin hv)) fun _ hx => hx))
  | bloom o P =>
    exact Or.inr (Or.inr (lives_phase hi (Party.bloom o) (fun _ _ _ hs => .bloom hs) bloomStage_served bloomStage_ported h.2.2.follow
      (fun v hv => goes_tau (.bloomJoin hv)) fun _ hx => hx))
  | online b P pipe =>
    exact Or.inr (Or.inr (lives_phase hi (fun P => Party.online b P pipe) (fun _ _ _ hs => .online hs) onlineStage_served
      (ported_of_uses hi online_out online_inp) h.2.2.1.follow (fun v hv => goes_online h.2.2.2 hv) fun _ hx => Or.inl hx))
  | collect m P =>
    obtain ⟨_, rfl, _, ht⟩ := h
    exact Or.inr (Or.inr (lives_phase hi (Party.collect m) (fun _ _ _ hs => .collect hs) collectStage_served (collectStage_ported hi) ht.follow
      (fun v hv => goes_tau (.output hv)) fun _ hx => hx))
  | sending m G => exact Or.inr (Or.inr (Or.inl ⟨_, _, .comulativeGbfPi, fun _ _ hl => by cases hl⟩))
  | done m G out => exact Or.inl ⟨m, G, out, rfl⟩
  | halted f => exact Or.inr (Or.inl ⟨f, rfl⟩)
  | idle => exact absurd hi (not_lt.2 h)

end Next

end Mpsi
