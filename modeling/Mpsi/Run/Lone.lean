/-
A party by itself, among others that send what they like. Values that belong together are what some run leaves:
the party reads what they name, phase by phase, and comes to its end with them (`gets_output`, `gets_sent`), if
only the functions it receives name strings. In every run that has come so far they do (`strings_named`).
-/
import Mpsi.Lib.Sim
import Mpsi.Run.Invariant
import Mpsi.Run.Plan
import Mpsi.Run.Tracked

namespace Mpsi

open Thread Stream Relation

variable {κ : Type} [DecidableEq κ] {e : Env κ} {i : ℕ}

/-- The functions of the instances name strings, so that no consumer of `run_xoring` reads outside its arrays. -/
def StringsNamed (e : Env κ) (i : ℕ) (m : Merged κ e.Not) : Prop :=
  ∀ src ∈ producers (slots e.parties i), ∀ j, j < e.Nbf → ∃ b, contribution none (m.data e i) src j = .ok b

/-- In `s` party `i` does not halt, and it can go on to `p` with `w` written and `r` read. -/
structure Leads (e : Env κ) (i : ℕ) (s : Alone Sock (Atom κ) (Party κ e.Not)) (p : Party κ e.Not) (w r : Chan → List (Atom κ)) :
    Prop where
  no_fault : ∀ f, ¬ s.proc.Faults e i f
  run : ∃ W R, ReflTransGen (AloneStep (PStep e i)) s ⟨p, W, R⟩ ∧ Rest e.parties i w r W R

/-- What party `i` has read is on the streams `r`, or goes on behind them. -/
def ReadsOn (n i : ℕ) (r : Chan → List (Atom κ)) (R : Sock → List (Atom κ)) : Prop :=
  ∀ c, reader n c = i → ∃ l, R c <+: onChan n r c ++ l

/-! ## Phase by phase -/

section Phases

variable {m : Merged κ e.Not} {W R : Sock → List (Atom κ)}

theorem Leads.trans {s : Alone Sock (Atom κ) (Party κ e.Not)} {p q : Party κ e.Not} {w r w' r' : Chan → List (Atom κ)}
    (h : Leads e i s p w r) (hp : ∀ W R, Rest e.parties i w r W R → Leads e i ⟨p, W, R⟩ q w' r') : Leads e i s q w' r' := by
  obtain ⟨hf, W, R, hrun, hrest⟩ := h
  obtain ⟨_, W', R', hrun', hrest'⟩ := hp W R hrest
  exact ⟨hf, W', R', hrun.trans hrun', hrest'⟩

omit [DecidableEq κ] in
/-- The threads of a phase that have read what their script has for them do not halt, and can all return. -/
theorem finish_phase {δ σ ι : Type} {α : ι → Type} [DecidableEq ι] {S : Stage (Wire κ) δ σ Fault Sock α}
    (hp : S.Ported (fun c => writer e.parties c = i) (fun c => reader e.parties c = i)) {w r w' r' : Chan → List (Atom κ)}
    {sc : ι → List (Event (Wire κ) δ σ)} {v : ∀ a, α a}
    (K : S.Script (onChan e.parties w) (onChan e.parties r) (onChan e.parties w') (onChan e.parties r') sc v)
    {A : Finset ι} (hA : ∀ a, a ∉ A → sc a = []) (hr : ∀ d, r d <+: r' d) {P : Pool (Wire κ) δ σ Fault α}
    (h : Threads e.parties i S w r P W R) (hR : ReadsOn e.parties i r' R) :
    (∀ f, ¬ S.Faults P f) ∧ ∃ P' W' R', ReflTransGen (AloneStep S.Step) ⟨P, W, R⟩ ⟨P', W', R'⟩ ∧
      Threads e.parties i S w r P' W' R' ∧ P'.Joined v ∧
      ∀ d : Chan, d.Valid e.parties → d.dst = i → R' (d.sock e.parties) <+: r' d := by
  have hpre := K.on_script h hp hR
  refine ⟨K.no_fault h hpre, ?_⟩
  obtain ⟨t, hrun, ht, hj, _, hread⟩ := K.exists_run_within (s := ⟨P, W, R⟩) hp hA h fun c hc =>
    K.taken h hpre (onChan_initial hr) hc
  refine ⟨t.proc, t.wrote, t.read, hrun, ht, hj, fun d hd hdst => ?_⟩
  have hd' := hread (d.sock e.parties) (by rw [reader_sock hd, hdst])
  rwa [onChan_sock hd] at hd'

theorem leads_agree (hi : i < e.parties) (hm : AgreedOk e i m.toAgreed) {P}
    (ht : Threads e.parties i (keysStage e i) (fun _ => []) (fun _ => []) P W R)
    (hR : ReadsOn e.parties i (keysRead i m.keys_recv) R) :
    Leads e i ⟨.keys P, W, R⟩ (.agree m.keys_recv (agreeStage e i).start) (keysSent e i) (keysRead i m.keys_recv) := by
  obtain ⟨v, K⟩ := keys_script (m := m) hi
  obtain ⟨hf, P', W', R', hrun, ht', hj, hread⟩ := finish_phase (keysStage_ported hi) K (fun a ha => (keys_active a ha).1)
    (fun _ => List.nil_prefix) ht hR
  have hrest := keys_rest hi ht' hj
  -- the array the threads have filled is the one they were to read
  have hkr : fillArray e.parties i (fun l => v (.read l)) 0 = m.keys_recv := by
    refine filled_fillArray.ext hi hm.keys_recv fun q hq hne => ?_
    have hd := (setUp_valid hi hq hne).2
    have hpre := hread _ hd rfl
    rw [((rest_iff hi).1 hrest).2 _ hd rfl] at hpre
    exact (List.cons.inj (blks_inj.1 (hpre.eq_of_length rfl))).1
  refine ⟨hf, W', R', ?_, ?_⟩
  · rw [← hkr]
    exact (alone_map Party.keys (fun _ _ _ h => .keys h) hrun).tail (.tau (.keysJoin hj))
  · rw [← hkr]
    exact hrest

theorem leads_offline (hi : i < e.parties) (hm : AgreedOk e i m.toAgreed) {P}
    (ht : Threads e.parties i (agreeStage e i) (keysSent e i) (keysRead i m.keys_recv) P W R)
    (hR : ReadsOn e.parties i (agreeRead i m.toAgreed) R) :
    Leads e i ⟨.agree m.keys_recv P, W, R⟩ (.offline m.toAgreed (offlineStage e i m.keys_recv).start) (agreeSent e i)
      (agreeRead i m.toAgreed) := by
  obtain ⟨v, K⟩ := agree_script (m := m) hi
  obtain ⟨hf, P', W', R', hrun, ht', hj, hread⟩ := finish_phase (agreeStage_ported hi) K (fun a ha => (keys_active a ha).2)
    (fun _ => List.prefix_append _ _) ht hR
  obtain ⟨hg, hrest⟩ := agree_rest hi hm.keys_recv ht' hj
  have hg' : agreedOf e i m.keys_recv P'.mem v = m.toAgreed := by
    refine agreed_unique hi hg hm fun q hq hne => ?_
    have hd := (setUp_valid hi hq hne).2
    have hpre := hread _ hd rfl
    rw [((rest_iff hi).1 hrest).2 _ hd rfl, ← List.append_nil (agreeRead i (agreedOf e i m.keys_recv P'.mem v) _),
      ← List.append_nil (agreeRead i m.toAgreed _)] at hpre
    exact (agree_split hpre).1
  rw [hg'] at hrest
  exact ⟨hf, W', R', hg' ▸ (alone_map (Party.agree m.keys_recv) (fun _ _ _ h => .agree h) hrun).tail (.tau (.agreeJoin hj)), hrest⟩

theorem leads_bloom (hi : i < e.parties) (hm : OpenedOk e i m.toOpened) {P}
    (ht : Threads e.parties i (offlineStage e i m.keys_recv) (agreeSent e i) (agreeRead i m.toAgreed) P W R)
    (hR : ReadsOn e.parties i (offlineRead e i m.toOpened) R) :
    Leads e i ⟨.offline m.toAgreed P, W, R⟩ (.bloom m.toOpened (bloomStage Sock e.aes m.seed e.Nbf e.seeds_num (e.items i)).start)
      (offlineSent e i m.toOpened) (offlineRead e i m.toOpened) := by
  obtain ⟨v, K⟩ := offline_script hi hm m.keys_recv
  obtain ⟨hf, P', W', R', hrun, ht', hj, hread⟩ := finish_phase (ported_of_uses hi offline_out offline_inp) K
    (fun a ha => offline_active a ha) (fun _ => List.prefix_append _ _) ht hR
  obtain ⟨ho, hrest⟩ := offline_rest hi hm.toAgreedOk ht' hj
  have ho' : openedOf m.toAgreed P'.mem v = m.toOpened := by
    refine opened_unique hi ho hm fun d hd hdst => ⟨[], ?_⟩
    rw [List.append_nil, ← ((rest_iff hi).1 hrest).2 d hd hdst]
    exact hread d hd hdst
  rw [ho'] at hrest
  exact ⟨hf, W', R', ho' ▸ (alone_map (Party.offline m.toAgreed) (fun _ _ _ h => .offline h) hrun).tail (.tau (.offlineJoin hj)), hrest⟩

theorem leads_online (hm : FilteredOk e i m.toFiltered) {P}
    (ht : Threads e.parties i (bloomStage Sock e.aes m.seed e.Nbf e.seeds_num (e.items i)) (offlineSent e i m.toOpened)
      (offlineRead e i m.toOpened) P W R)
    (hR : ReadsOn e.parties i (offlineRead e i m.toOpened) R) :
    Leads e i ⟨.bloom m.toOpened P, W, R⟩ (.online m.toFiltered (onlineStage e i m.BF m.receiver).start (Pipe.start m.GBF))
      (offlineSent e i m.toOpened) (offlineRead e i m.toOpened) := by
  obtain ⟨sc, K⟩ := exists_bloom_script hm.Nbf
  obtain ⟨hf, P', W', R', hrun, ht', hj, _⟩ := finish_phase bloomStage_ported K (A := Finset.univ)
    (fun a ha => absurd (Finset.mem_univ a) ha) (fun _ => List.prefix_rfl) ht hR
  obtain ⟨hb, hrest⟩ := bloom_rest hm.toOpenedOk ht' hj
  have hb' : filteredOf e m.toOpened P'.mem = m.toFiltered := filtered_unique hb hm rfl
  exact ⟨hf, W', R', hb' ▸ (alone_map (Party.bloom m.toOpened) (fun _ _ _ h => .bloom h) hrun).tail (.tau (.bloomJoin hj)), hrest⟩

/-- Producers that have their functions and consumers that find their strings come to the end of the queues. -/
theorem exists_pipe_done {b : Filtered κ e.Not} {P : Pool (Wire κ) Empty Unit Fault (fun _ : Source => List ℤ)} {pipe : Pipe Source}
    (hp : Piping e i b P pipe) (hret : ∀ src, ∃ f, P.ts src = .ret f) (hok : ∀ src ∈ producers (slots e.parties i), ∀ j, j < e.Nbf →
      ∃ x, contribution none (onlineData e i b.BF P) src j = .ok x) (W R : Sock → List (Atom κ)) :
    ∃ pipe', ReflTransGen (AloneStep (PStep e i)) ⟨.online b P pipe, W, R⟩ ⟨.online b P pipe', W, R⟩ ∧ Piping e i b P pipe' ∧
      (∀ src ∈ producers (slots e.parties i), pipe'.pc src = 9) ∧ pipe'.Done (slots e.parties i * 2) := by
  let A := producers (slots e.parties i)
  let T : Pipe Source → Pipe Source → Prop := fun s t => (∃ src ∈ A, s.pc src = 0 ∧ t = s.begin src) ∨
    PipeStep e.Nbf (slots e.parties i * 2) (contribution none (onlineData e i b.BF P)) s t
  have hinv : ∀ s t, Piping e i b P s → T s t → Piping e i b P t := by
    rintro s t hs (⟨src, hsrc, hpc, rfl⟩ | hst)
    · obtain ⟨f, hf⟩ := hret src
      exact hs.begin hsrc hf hpc
    · exact hs.pipe hst
  obtain ⟨pipe', hrun, hpipe, hstop⟩ := Reach.exists_stopped (I := Piping e i b P) hinv (fun s => s.left A e.Nbf A.card)
    (fun s t hs hst => by
      rcases hst with ⟨src, hsrc, hpc, rfl⟩ | hst
      · exact begin_left _ _ hsrc hpc
      · rw [← card_producers] at hst
        exact pipeStep_left hs.inv hst) pipe hp
  have hpc : ∀ src ∈ A, pipe'.pc src = 9 := fun src hsrc =>
    pc_of_stopped hpipe.inv (fun t ht => hstop t (Or.inr ht))
      (Nat.pos_of_ne_zero fun h0 => hstop _ (Or.inl ⟨src, hsrc, h0, rfl⟩))
  refine ⟨pipe', ?_, hpipe, hpc, ?_⟩
  · refine hrun.lift (fun s : Pipe Source => (⟨.online b P s, W, R⟩ : Alone Sock (Atom κ) (Party κ e.Not))) fun s t hst => ?_
    rcases hst with ⟨src, hsrc, hpc, rfl⟩ | hst
    · obtain ⟨f, hf⟩ := hret src
      exact .tau (.begin hsrc hf hpc)
    · exact .tau (.pipe hst)
  · rw [← card_producers]
    exact done_of_stopped hpipe.inv hpc hok fun t ht => hstop t (Or.inr (by rwa [← card_producers]))

omit [DecidableEq κ] in
theorem Piping.along {b : Filtered κ e.Not} {pipe : Pipe Source}
    {s t : Alone Sock (Atom κ) (Pool (Wire κ) Empty Unit Fault (fun _ : Source => List ℤ))} (h : Piping e i b s.proc pipe)
    (hrun : ReflTransGen (AloneStep (onlineStage e i b.BF b.receiver).Step) s t) : Piping e i b t.proc pipe := by
  induction hrun with
  | refl => exact h
  | tail _ hst ih =>
    cases hst with
    | tau hst | send hst | recv hst => exact ih.threads hst

/-- The end of the online phase. -/
theorem leads_merged (hi : i < e.parties) (hm : MergedOk e i m) (hs : StringsNamed e i m) {P pipe} (hp : Piping e i m.toFiltered P pipe)
    (ht : Threads e.parties i (onlineStage e i m.BF m.receiver) (offlineSent e i m.toOpened) (offlineRead e i m.toOpened) P W R)
    (hR : ReadsOn e.parties i (onlineRead e i m) R) :
    (i = 0 → Leads e i ⟨.online m.toFiltered P pipe, W, R⟩ (.collect m (collectStage e m.shared).start) (onlineSent e i m)
      (onlineRead e i m)) ∧
    (i ≠ 0 → Leads e i ⟨.online m.toFiltered P pipe, W, R⟩ (.sending m (m.sent e i)) (onlineSent e i m) (onlineRead e i m)) := by
  have K := online_script hi hm
  have hported : (onlineStage e i m.BF m.receiver).Ported (fun c => writer e.parties c = i) fun c => reader e.parties c = i :=
    ported_of_uses hi online_out online_inp
  obtain ⟨hf, P', W', R', hrun, ht', hj, hread⟩ := finish_phase hported K (fun a ha => online_active a ha)
    (fun _ => List.prefix_append _ _) ht hR
  have hfault : ∀ f, ¬ (Party.online m.toFiltered P pipe).Faults e i f := by
    rintro f (hx | ⟨k, g, j, hph, hlt, hx⟩)
    · exact hf f hx
    · -- the consumers have the functions of the threads that have returned
      obtain ⟨hpos, hle⟩ := hp.inv.xoring hph
      obtain ⟨func, hfunc⟩ := hp.begun _ hpos
      obtain ⟨b, hb⟩ := hs _ (hp.inv.active _ hpos) j (hlt.trans_le hle)
      rw [contribution_returned hm hi ht (K.on_script ht hported hR) hfunc, hb] at hx
      cases hx
  have hdata : onlineData e i m.BF P' = m.data e i := by
    unfold onlineData Merged.data
    congr 1
    · funext a
      rw [hj (a, .receiver)]
      rfl
    · funext a
      rw [hj (a, .sender)]
      rfl
  obtain ⟨pipe', hpipe, hp', hpc, hd⟩ := exists_pipe_done (b := m.toFiltered) (hp.along hrun) (fun src => ⟨_, hj src⟩)
    (fun src hsrc j hjn => by rw [hdata]; exact hs src hsrc j hjn) W' R'
  obtain ⟨hok, hrest⟩ := online_rest hi hm.toFilteredOk ht' hp' hpc hd
  have hm' : mergedOf m.toFiltered P' pipe'.gbf = m := by
    refine merged_unique hi hok hm rfl fun d hd hdst => ⟨[], ?_⟩
    rw [List.append_nil, ← ((rest_iff hi).1 hrest).2 d hd hdst]
    exact hread d hd hdst
  have hgbf : pipe'.gbf = m.shared := congrArg Merged.shared hm'
  rw [hm'] at hrest
  have hrun' := (alone_map (fun P => Party.online m.toFiltered P pipe) (fun _ _ _ h => .online h) hrun).trans hpipe
  constructor
  · intro h0
    have hst := PStep.onlineJoin₀ (e := e) (b := m.toFiltered) (P := P') h0 hpc hd
    rw [hm', hgbf] at hst
    exact ⟨hfault, W', R', hrun'.tail (.tau hst), hrest⟩
  · intro h0
    have hst := PStep.onlineJoin (e := e) (b := m.toFiltered) (P := P') h0 hpc hd
    rw [hm', hgbf] at hst
    exact ⟨hfault, W', R', hrun'.tail (.tau hst), hrest⟩

/-- P0 comes to its end, whatever arrays it gets. -/
theorem leads_output (h0 : 0 < e.parties) {l : ℕ → List Block} (hl : ∀ a, a < e.parties - 1 → (l a).length = e.Nbf) {P}
    (ht : Threads e.parties 0 (collectStage e m.shared) (onlineSent e 0 m) (onlineRead e 0 m) P W R)
    (hR : ReadsOn e.parties 0 (endRead e 0 m l) R) :
    Leads e 0 ⟨.collect m P, W, R⟩ (.done m (m.total e l) (getIntersection (e.items 0) m.h_kokhav (m.total e l))) (onlineSent e 0 m)
      (endRead e 0 m l) := by
  obtain ⟨sc, K, hsc⟩ := collect_script (m := m) h0 hl
  obtain ⟨hf, P', W', R', hrun, ht', hj, hread⟩ := finish_phase (collectStage_ported h0) K hsc (fun _ => List.prefix_append _ _) ht hR
  obtain ⟨l', hlen, hG, hrest⟩ := collect_rest h0 ht' hj
  -- the arrays read are those of the script
  have harr : ∀ a, a < e.parties - 1 → l' a = l a := by
    intro a ha
    have hslot : a < slots e.parties 0 := by rwa [slots, if_pos rfl]
    have hd := receiverBack_valid h0 hslot
    have hpre := hread _ hd rfl
    rw [((rest_iff h0).1 hrest).2 _ hd rfl, endRead, endRead, List.prefix_append_right_inj, apport_receiverBack hslot,
      apport_receiverBack hslot] at hpre
    exact blks_inj.1 (hpre.eq_of_length (by simp [hlen a ha, hl a ha]))
  have hst : PStep e 0 (.collect m P') .tau _ := .output hj
  rw [hG, total_congr harr] at hst
  refine ⟨hf, W', R', (alone_map (Party.collect m) (fun _ _ _ h => .collect h) hrun).tail (.tau hst),
    (rest_iff h0).2 ⟨((rest_iff h0).1 hrest).1, fun d hd hdst => ?_⟩⟩
  rw [((rest_iff h0).1 hrest).2 d hd hdst, endRead, endRead]
  rw [apport_congr (hd.src) (by rw [← hdst]; exact hd.ne.symm) (fun _ _ => rfl) fun a ha => by
    rw [harr a (by rwa [slots, if_pos rfl] at ha)]]

/-- And a Pi. -/
theorem leads_sent (hi : i < e.parties) (hi0 : i ≠ 0) (hr : Rest e.parties i (onlineSent e i m) (onlineRead e i m) W R) :
    Leads e i ⟨.sending m (m.sent e i), W, R⟩ (.done m (m.sent e i) []) (endSent e i m (m.sent e i)) (onlineRead e i m) :=
  ⟨fun _ hf => hf, _, R, .single (.send .comulativeGbfPi), (rest_of_sent hi hi0 hr).2⟩

end Phases

/-! ## To the end -/

section Final

variable {D : Outcome e} {W R : Sock → List (Atom κ)}

omit [DecidableEq κ] in
/-- The party has read what begins a phase. -/
theorem reads_of_rest (hi : i < e.parties) {w r : Chan → List (Atom κ)} (h : Rest e.parties i w r W R)
    (hr : ∀ d : Chan, d.dst = i → r d <+: D.read d) : Reads D i R := by
  intro d hd hs
  rw [((rest_iff hi).1 h).2 d hd hs]
  exact hr d hs

theorem Leads.congr {s : Alone Sock (Atom κ) (Party κ e.Not)} {p : Party κ e.Not} {w r w' r' : Chan → List (Atom κ)} (hi : i < e.parties)
    (h : Leads e i s p w r) (hw : ∀ d : Chan, d.src = i → w d = w' d) (hr : ∀ d : Chan, d.dst = i → r d = r' d) : Leads e i s p w' r' := by
  obtain ⟨hf, W, R, hrun, hrest⟩ := h
  obtain ⟨hW, hR⟩ := (rest_iff hi).1 hrest
  exact ⟨hf, W, R, hrun, (rest_iff hi).2 ⟨fun d hd hs => (hW d hd hs).trans (hw d hs), fun d hd hs => (hR d hd hs).trans (hr d hs)⟩⟩

/-- The values of the outcome belong together for party `i`, and its functions name strings. -/
structure Outcome.Own (D : Outcome e) (i : ℕ) : Prop where
  lt : i < e.parties
  merged : MergedOk e i (D.merged i)
  named : StringsNamed e i (D.merged i)
  lists : i = 0 → ∀ a, a < e.parties - 1 → (D.lists a).length = e.Nbf

theorem final_of_sending (h : D.Own i) (hi0 : i ≠ 0) (hr : Rest e.parties i (onlineSent e i (D.merged i)) (onlineRead e i (D.merged i)) W R) :
    Leads e i ⟨.sending (D.merged i) ((D.merged i).sent e i), W, R⟩ (D.final i) D.sent D.read := by
  have hfinal : D.final i = .done (D.merged i) ((D.merged i).sent e i) [] := by
    rw [Outcome.final, if_pos h.lt, if_neg hi0]
  rw [hfinal]
  refine (leads_sent h.lt hi0 hr).congr h.lt (fun d hs => ?_) fun d hs => ?_
  · rw [Outcome.sent, if_neg (hs ▸ hi0), hs]
  · rw [Outcome.read, if_neg (hs ▸ hi0), hs]

theorem final_of_collect (h : D.Own 0) {P}
    (ht : Threads e.parties 0 (collectStage e (D.merged 0).shared) (onlineSent e 0 (D.merged 0)) (onlineRead e 0 (D.merged 0)) P W R)
    (hR : Reads D 0 R) : Leads e 0 ⟨.collect (D.merged 0) P, W, R⟩ (D.final 0) D.sent D.read := by
  have hfinal : D.final 0 = .done (D.merged 0) D.total D.out := by
    rw [Outcome.final, if_pos h.lt, if_pos rfl]
  rw [hfinal]
  refine (leads_output h.lt (h.lists rfl) ht (hR.onChan h.lt fun d hs => ?_)).congr h.lt (fun d hs => ?_) fun d hs => ?_
  · rw [Outcome.read, if_pos hs]
  · rw [Outcome.sent, if_pos hs]
  · rw [Outcome.read, if_pos hs]

theorem final_of_online (h : D.Own i) {P pipe} (hp : Piping e i (D.merged i).toFiltered P pipe)
    (ht : Threads e.parties i (onlineStage e i (D.merged i).BF (D.merged i).receiver) (offlineSent e i (D.merged i).toOpened)
      (offlineRead e i (D.merged i).toOpened) P W R)
    (hR : Reads D i R) : Leads e i ⟨.online (D.merged i).toFiltered P pipe, W, R⟩ (D.final i) D.sent D.read := by
  have hon : ∀ d : Chan, d.dst = i → onlineRead e i (D.merged i) d <+: D.read d := fun d hs => hs ▸ onlineRead_initial D d
  obtain ⟨h0, hpi⟩ := leads_merged h.lt h.merged h.named hp ht (hR.onChan h.lt hon)
  by_cases hi0 : i = 0
  · subst hi0
    exact (h0 rfl).trans fun W R hr => final_of_collect h (hr.start (collectStage_ported h.lt)) (reads_of_rest h.lt hr hon)
  · exact (hpi hi0).trans fun _ _ hr => final_of_sending h hi0 hr

theorem final_of_bloom (h : D.Own i) {P}
    (ht : Threads e.parties i (bloomStage Sock e.aes (D.merged i).seed e.Nbf e.seeds_num (e.items i))
      (offlineSent e i (D.merged i).toOpened) (offlineRead e i (D.merged i).toOpened) P W R)
    (hR : Reads D i R) : Leads e i ⟨.bloom (D.merged i).toOpened P, W, R⟩ (D.final i) D.sent D.read := by
  have hoff : ∀ d : Chan, d.dst = i → offlineRead e i (D.merged i).toOpened d <+: D.read d := fun d hs => hs ▸ offlineRead_initial D d
  exact (leads_online h.merged.toFilteredOk ht (hR.onChan h.lt hoff)).trans fun W R hr =>
    final_of_online h piping_start (hr.start (ported_of_uses h.lt online_out online_inp)) (reads_of_rest h.lt hr hoff)

theorem final_of_offline (h : D.Own i) {P}
    (ht : Threads e.parties i (offlineStage e i (D.merged i).keys_recv) (agreeSent e i) (agreeRead i (D.merged i).toAgreed) P W R)
    (hR : Reads D i R) : Leads e i ⟨.offline (D.merged i).toAgreed P, W, R⟩ (D.final i) D.sent D.read := by
  have hoff : ∀ d : Chan, d.dst = i → offlineRead e i (D.merged i).toOpened d <+: D.read d := fun d hs => hs ▸ offlineRead_initial D d
  exact (leads_bloom h.lt h.merged.toOpenedOk ht (hR.onChan h.lt hoff)).trans fun _ _ hr =>
    final_of_bloom h (hr.start bloomStage_ported) (reads_of_rest h.lt hr hoff)

theorem final_of_agree (h : D.Own i) {P}
    (ht : Threads e.parties i (agreeStage e i) (keysSent e i) (keysRead i (D.merged i).keys_recv) P W R)
    (hR : Reads D i R) : Leads e i ⟨.agree (D.merged i).keys_recv P, W, R⟩ (D.final i) D.sent D.read := by
  have hag : ∀ d : Chan, d.dst = i → agreeRead i (D.merged i).toAgreed d <+: D.read d := fun d hs => hs ▸ agreeRead_initial D d
  exact (leads_offline h.lt h.merged.toAgreedOk ht (hR.onChan h.lt hag)).trans fun _ _ hr =>
    final_of_offline h (hr.start (ported_of_uses h.lt offline_out offline_inp)) (reads_of_rest h.lt hr hag)

theorem final_of_keys (h : D.Own i) {P} (ht : Threads e.parties i (keysStage e i) (fun _ => []) (fun _ => []) P W R)
    (hR : Reads D i R) : Leads e i ⟨.keys P, W, R⟩ (D.final i) D.sent D.read :=
  (leads_agree h.lt h.merged.toAgreedOk ht (hR.onChan h.lt fun _ => keysRead_initial D)).trans fun _ _ hr =>
    final_of_agree h (hr.start (agreeStage_ported h.lt)) (reads_of_rest h.lt hr fun _ => keysRead_initial D)

/-- A party that has read what the outcome has for it, so far, does not halt and can come to the outcome's end. -/
theorem leads_final (h : D.Own i) {p : Party κ e.Not} (hinv : PartyInv e i p W R) (hR : Reads D i R) (hl : ∀ f, p ≠ .halted f) :
    Leads e i ⟨p, W, R⟩ (D.final i) D.sent D.read := by
  have ht := tracks_of_inv (fun _ => ⟨h.merged, h.lists⟩) hinv hR hl
  cases p with
  | keys P => exact final_of_keys h hinv.2 hR
  | agree kr P =>
    obtain rfl : kr = _ := ht
    exact final_of_agree h hinv.2.2 hR
  | offline g P =>
    obtain rfl : g = _ := ht
    exact final_of_offline h hinv.2.2 hR
  | bloom o P =>
    obtain rfl : o = _ := ht
    exact final_of_bloom h hinv.2.2 hR
  | online b P pipe =>
    obtain rfl : b = _ := ht
    exact final_of_online h hinv.2.2.2 hinv.2.2.1 hR
  | collect m P =>
    obtain rfl : m = _ := ht
    obtain ⟨_, rfl, _, ht⟩ := hinv
    exact final_of_collect h ht hR
  | sending m G =>
    obtain rfl : m = _ := ht
    obtain ⟨_, hi0, _, rfl, hr⟩ := hinv
    exact final_of_sending h hi0 hr
  | done m G out =>
    have hfinal : Party.done m G out = D.final i := ht
    refine ⟨fun _ hf => hf, W, R, ?_, (rest_iff h.lt).2 ⟨fun d hd hs => done_sent hinv ht hd hs, fun d hd hs => ?_⟩⟩
    · rw [hfinal]
    · exact done_read (fun _ => ⟨h.merged, h.lists⟩) hinv ht hR hd hs
  | halted f => exact absurd rfl (hl f)
  | idle => exact absurd h.lt (not_lt.2 hinv)

/-- In every run: a party that reads what the outcome has for it never halts, and can always come to the outcome's end. -/
theorem leads_of_reaches (h : D.Own i) {s : Alone Sock (Atom κ) (Party κ e.Not)} (hs : PartyReaches e i s) (hR : Reads D i s.read) :
    (∀ f, s.proc ≠ .halted f) ∧ Leads e i s (D.final i) D.sent D.read := by
  induction hs with
  | refl =>
    have hl : ∀ f, Party.start e i ≠ .halted f := by
      unfold Party.start
      split <;> exact nofun
    exact ⟨hl, leads_final h partyInv_start hR hl⟩
  | tail hs hst ih =>
    have hlead := (ih fun d hd hdst => (hst.read_initial _).trans (hR d hd hdst)).2
    obtain ⟨l, hp⟩ := hst.proc
    have hl := (hp.live hlead.no_fault).1
    exact ⟨hl, leads_final h (partyInv_of_party (hs.tail hst)) hR hl⟩

end Final

/-! ## Every string is found -/

section Named

variable {ι : Type} [DecidableEq ι] {A : Finset ι} {Nbf num : ℕ} {contrib : ι → ℕ → Except Fault Block}
  {init : ℕ → Block} {s t : Pipe ι}

/-- The invariant of the queues holds for any blocks that agree with those found so far. -/
def Unbiased (A : Finset ι) (Nbf num : ℕ) (contrib : ι → ℕ → Except Fault Block) (init : ℕ → Block) (s : Pipe ι) : Prop :=
  ∀ val : ι → ℕ → Block, (∀ src, 0 < s.pc src → ∀ j b, contrib src j = .ok b → val src j = b) → PipeInv A Nbf num val init s

theorem pc_pos_of_pipeStep (hst : PipeStep Nbf num contrib s t) {src : ι} (h : 0 < s.pc src) : 0 < t.pc src := by
  cases hst with
  | @push u k hpc | @notify u k hpc =>
    by_cases hus : src = u
    · subst hus; simp
    · simpa [hus] using h
  | wait | block | wake | front | xor | xored | pop => exact h

theorem Unbiased.begin (h : Unbiased A Nbf num contrib init s) {src : ι} (hsrc : src ∈ A) (hpc : s.pc src = 0) :
    Unbiased A Nbf num contrib init (s.begin src) := by
  intro val hval
  refine pipeInv_begin (h val fun u hu => hval u ?_) hsrc hpc
  have hus : u ≠ src := by rintro rfl; omega
  simpa [Pipe.begin, hus] using hu

theorem Unbiased.pipe (h : Unbiased A Nbf num contrib init s) (hst : PipeStep Nbf num contrib s t) :
    Unbiased A Nbf num contrib init t := by
  intro val hval
  have hbegun : ∀ src, 0 < s.pc src → ∀ j b, contrib src j = .ok b → val src j = b := fun src hpc => hval src (pc_pos_of_pipeStep hst hpc)
  exact pipeInv_step (h val hbegun) (fun src hpc j _ b hb => (hbegun src hpc j b hb).symm) hst

/-- A block that is not found is never added: the cell could not hold two sums. -/
theorem Unbiased.found (h : Unbiased A Nbf A.card contrib init s) (hd : s.Done A.card) {src : ι} (hsrc : src ∈ A) {j : ℕ} (hj : j < Nbf) :
    ∃ b, contrib src j = .ok b := by
  by_contra hno
  have hsum : ∀ x : Block, s.gbf j = init j + ∑ u ∈ A, if u = src then x else (contrib u j).toOption.getD 0 := by
    intro x
    have hinv := h (fun u k => if u = src ∧ k = j then x else (contrib u k).toOption.getD 0) fun u _ k b hb => by
      have hne : ¬ (u = src ∧ k = j) := by
        rintro ⟨rfl, rfl⟩
        exact hno ⟨b, hb⟩
      rw [if_neg hne, hb]
      rfl
    simpa only [and_true] using hinv.gbf_done hd hj
  have hone := (hsum 0).symm.trans (hsum (toBlock 0 1))
  rw [← Finset.add_sum_erase _ _ hsrc, ← Finset.add_sum_erase _ _ hsrc] at hone
  simp only [if_true] at hone
  rw [Finset.sum_congr rfl fun u hu => if_neg (Finset.ne_of_mem_erase hu),
    Finset.sum_congr (g := fun u => (contrib u j).toOption.getD 0) rfl fun u hu => if_neg (Finset.ne_of_mem_erase hu)] at hone
  exact absurd (add_right_cancel (add_left_cancel hone)) (by decide)

end Named

omit [DecidableEq κ] in
theorem contribution_congr {BF : List Bool} {P P' : Pool (Wire κ) Empty Unit Fault (fun _ : Source => List ℤ)} {src : Source}
    (h : P'.ts src = P.ts src) (j : ℕ) :
    contribution none (onlineData e i BF P') src j = contribution none (onlineData e i BF P) src j := by
  rcases src with ⟨a, _ | _⟩ <;> simp only [contribution, onlineData, h]

/-- What the strings of a party have been so far. -/
def Found (e : Env κ) (i : ℕ) : Party κ e.Not → Prop
  | .online b P pipe => Unbiased (producers (slots e.parties i)) e.Nbf (producers (slots e.parties i)).card
      (contribution none (onlineData e i b.BF P)) b.GBF pipe
  | .collect m _ => StringsNamed e i m
  | .sending m _ => StringsNamed e i m
  | .done m _ _ => StringsNamed e i m
  | _ => True

omit [DecidableEq κ] in
theorem found_join {b : Filtered κ e.Not} {P : Pool (Wire κ) Empty Unit Fault (fun _ : Source => List ℤ)} {pipe : Pipe Source}
    (h : Found e i (.online b P pipe)) (hd : pipe.Done (slots e.parties i * 2)) : StringsNamed e i (mergedOf b P pipe.gbf) := by
  rw [← card_producers] at hd
  exact fun src hsrc j hj => h.found hd hsrc hj

theorem found_step {p p' : Party κ e.Not} {l : Label Sock (Atom κ)} {W R : Sock → List (Atom κ)} (hinv : PartyInv e i p W R)
    (h : Found e i p) (hst : PStep e i p l p') : Found e i p' := by
  cases hst with
  | bloomJoin => exact fun val _ => pipeInv_start
  | online hs =>
    intro val hval
    refine h val fun src hpc j x hx => hval src hpc j x ?_
    obtain ⟨f, hf⟩ := hinv.2.2.2.begun src hpc
    rwa [contribution_congr (by rw [hf, step_ret hs hf])]
  | begin hsrc hf hpc => exact Unbiased.begin h hsrc hpc
  | pipe hs =>
    rw [← card_producers] at hs
    exact Unbiased.pipe h hs
  | onlineJoin₀ _ _ hd => exact found_join h hd
  | onlineJoin _ _ hd => exact found_join h hd
  | collect => exact h
  | output => exact h
  | comulativeGbfPi => exact h
  | keys | keysJoin | agree | agreeJoin | offline | offlineJoin | bloom | fault => exact trivial

/-- A party that has come to its end has found all its strings. -/
theorem strings_named {s : Alone Sock (Atom κ) (Party κ e.Not)} (h : PartyReaches e i s) : Found e i s.proc := by
  induction h with
  | refl =>
    change Found e i (Party.start e i)
    unfold Party.start
    split <;> exact trivial
  | tail hs hst ih =>
    have hinv := partyInv_of_party hs
    cases hst with
    | tau hst | send hst | recv hst => exact found_step hinv ih hst

end Mpsi
