/-
The plan of a party in a run with an honest outcome: for each phase the events of its threads, up to
their return, with what the phase leaves on the streams.
-/
import Mpsi.Run.Outcome

namespace Mpsi

open Thread Stream

variable {κ : Type} {e : Env κ} {i : ℕ}

/-! ## Scripts over the ports -/

section Ports

variable {δ σ ι : Type} {n : ℕ} {w r w' r' : Chan → List (Atom κ)}

/-- The script of a phase of the set-up. -/
theorem script_of_setUp {α : SetUp → Type} {S : Stage (Wire κ) δ σ Fault Sock α} (hS : S.port = setUpPort n i) (hi : i < n)
    {sc : SetUp → List (Event (Wire κ) δ σ)} {v : ∀ a, α a} (ends : ∀ a, Ends (S.prog a) (sc a) (v a))
    (load : ∀ a m, .load m ∈ sc a → ∀ o m', S.Ran o m' → m' = m) (exec : ∀ d m, ∃ m', S.exec d m = .ok m')
    (hno : ∀ l, l ∉ links n i → sc (.read l) = [] ∧ sc (.write l) = [])
    (hread : ∀ l x, .out x ∉ sc (.read l)) (hwrite : ∀ l x, .inp x ∉ sc (.write l)) (out inp : ℕ → List (Atom κ))
    (hw' : ∀ d, w' d = w d ++ if d.main then out d.dst else []) (hr' : ∀ d, r' d = r d ++ if d.main then inp d.src else [])
    (hout : ∀ q, q < n → q ≠ i → outs (sc (.write ⟨place i q, (Chan.mk i q true).sock n⟩)) = out q)
    (hinp : ∀ q, q < n → q ≠ i → ins (sc (.read ⟨place i q, (Chan.mk i q true).sock n⟩)) = inp q) :
    S.Script (onChan n w) (onChan n r) (onChan n w') (onChan n r') sc v := by
  refine ⟨ends, load, exec, fun {a c} hc => ?_, fun {a c} hc => ?_, fun a hc x => ?_, fun a hc x => ?_,
    onChan_initial fun d => by rw [hw']; exact List.prefix_append _ _⟩
  · rw [hS] at hc
    obtain ⟨q, hq, hne, rfl, rfl⟩ := (setUp_out hi).1 hc
    have hd := (setUp_valid hi hq hne).1
    rw [onChan_sock hd, onChan_sock hd, hw', hout q hq hne]
    rfl
  · rw [hS] at hc
    obtain ⟨q, hq, hne, rfl, rfl⟩ := (setUp_inp hi).1 hc
    have hd := (setUp_valid hi hq hne).2
    rw [onChan_sock hd, onChan_sock hd, hr', hinp q hq hne]
    rfl
  · rw [hS] at hc
    cases a with
    | read l => exact hread l x
    | write l =>
      have hl : l ∉ links n i := fun hl => by simp [setUpPort, hl] at hc
      rw [(hno l hl).2]
      exact List.not_mem_nil
  · rw [hS] at hc
    cases a with
    | write l => exact hwrite l x
    | read l =>
      have hl : l ∉ links n i := fun hl => by simp [setUpPort, hl] at hc
      rw [(hno l hl).1]
      exact List.not_mem_nil

/-- The script of a phase of the instances. -/
theorem script_of_inst {α : ι → Type} [DecidableEq ι] {S : Stage (Wire κ) δ σ Fault Sock α} (hi : i < n)
    {sc : ι → List (Event (Wire κ) δ σ)} {v : ∀ a, α a} (ends : ∀ a, Ends (S.prog a) (sc a) (v a))
    (load : ∀ a m, .load m ∈ sc a → ∀ o m', S.Ran o m' → m' = m) (exec : ∀ d m, ∃ m', S.exec d m = .ok m')
    (noOut : ∀ a, (S.port a).out = none → ∀ l, .out l ∉ sc a) (noInp : ∀ a, (S.port a).inp = none → ∀ l, .inp l ∉ sc a)
    {snd rcv snd' rcv' : ℕ → Option ι}
    (u : Uses n i (fun t => (S.port t).out) (senderSock n i) (receiverSock n i) snd rcv)
    (u' : Uses n i (fun t => (S.port t).inp) (fun a => (senderSock n i a).peer) (fun a => (receiverSock n i a).peer) snd' rcv')
    (out₁ out₂ inp₁ inp₂ : ℕ → List (Atom κ))
    (hw' : ∀ d, w' d = w d ++ apport i d.dst d.main out₁ out₂) (hr' : ∀ d, r' d = r d ++ apport i d.src d.main inp₁ inp₂)
    (hout : ∀ a t, a < slots n i → (snd a = some t → outs (sc t) = out₁ a) ∧ (rcv a = some t → outs (sc t) = out₂ a))
    (hinp : ∀ a t, a < slots n i → (snd' a = some t → ins (sc t) = inp₁ a) ∧ (rcv' a = some t → ins (sc t) = inp₂ a)) :
    S.Script (onChan n w) (onChan n r) (onChan n w') (onChan n r') sc v := by
  refine ⟨ends, load, exec, fun {t c} hc => ?_, fun {t c} hc => ?_, noOut, noInp,
    onChan_initial fun d => by rw [hw']; exact List.prefix_append _ _⟩
  · rcases u.owner hc with ⟨a, ha, ⟨ht, rfl⟩ | ⟨ht, rfl⟩⟩
    · have hd := senderChan_valid hi ha
      rw [senderSock_eq, onChan_sock hd, onChan_sock hd, hw', (hout a t ha).1 ht]
      exact congrArg _ (apport_sender ha)
    · have hd := receiverChan_valid hi ha
      rw [receiverSock_eq, onChan_sock hd, onChan_sock hd, hw', (hout a t ha).2 ht]
      exact congrArg _ (apport_receiver ha)
  · rcases u'.owner hc with ⟨a, ha, ⟨ht, rfl⟩ | ⟨ht, rfl⟩⟩
    · have hd := (senderChan_valid hi ha).back
      rw [senderSock_peer hi ha, senderBack, onChan_sock hd, onChan_sock hd, hr', (hinp a t ha).1 ht]
      exact congrArg _ (apport_senderBack ha)
    · have hd := (receiverChan_valid hi ha).back
      rw [receiverSock_peer hi ha, receiverBack, onChan_sock hd, onChan_sock hd, hr', (hinp a t ha).2 ht]
      exact congrArg _ (apport_receiverBack ha)

end Ports

/-! ## The set-up -/

section Plan

variable (e : Env κ) (i : ℕ) (m : Merged κ e.Not)

def keysScript : SetUp → List (Event (Wire κ) Empty Unit)
  | .read l => if l ∈ links e.parties i then [.inp (blks [m.keys_recv l.slot])] else []
  | .write l => if l ∈ links e.parties i then [.out (blks [e.keys i l.slot])] else []

def agreeScript : SetUp → List (Event (Wire κ) Empty Block)
  | .read l => if l ∈ links e.parties i then [.inp (coms [(m.recv l.slot).1]), .inp (blks [(m.recv l.slot).2])] else []
  | .write l => if l ∈ links e.parties i then [.out (coms [e.commit (e.seed i)]), .load (e.seed i), .out (blks [e.seed i])] else []

def offlineScript : Offline → List (Event (Wire κ) Unit (ℕ → Block))
  | .receiver a => if a < slots e.parties i then
      [.inp (ints [(m.receiver a).Nc_recv]), .inp (blks [(m.receiver a).seed_recv]), .out (ints [((m.receiver a).cut.R.length : ℤ)]),
        .out (ints (m.receiver a).cut.R), .out (blks [(m.receiver a).cut.r])] else []
  | .sender a => if a < slots e.parties i then
      [.out (ints [(e.Nc : ℤ)]), .out (blks [e.seed_sub_group i a]), .inp (ints [(m.sender a).msg.Nr]),
        .inp (ints (m.sender a).msg.R), .inp (blks [(m.sender a).msg.r])] else []
  | .shares => if 2 < e.parties then [.op ()] else []

def onlineScript : Source → List (Event (Wire κ) Empty Unit)
  | (a, .receiver) => if a < slots e.parties i then [.out (ints (m.func_recv a))] else []
  | (a, .sender) => if a < slots e.parties i then [.inp (ints (m.func_sender a))] else []

/-- The threads of the set-up. -/
def setUpThreads (n i : ℕ) : Finset SetUp := (links n i).toFinset.image .read ∪ (links n i).toFinset.image .write

def offlineThreads (n i : ℕ) : Finset Offline :=
  (Finset.range (slots n i)).image .receiver ∪ (Finset.range (slots n i)).image .sender ∪ {.shares}

variable {e i m}

theorem keys_script (hi : i < e.parties) : ∃ v, (keysStage e i).Script (onChan e.parties fun _ => []) (onChan e.parties fun _ => [])
    (onChan e.parties (keysSent e i)) (onChan e.parties (keysRead i m.keys_recv)) (keysScript e i m) v := by
  refine ⟨fun | .read l => if l ∈ links e.parties i then m.keys_recv l.slot else 0 | .write _ => (),
    script_of_setUp rfl hi (fun a => ?_) (fun _ _ _ _ _ _ => rfl) (fun d => d.elim) (fun l hl => ⟨if_neg hl, if_neg hl⟩)
      (fun l x => ?_) (fun l x => ?_) (fun q => blks [e.keys i (place i q)]) (fun q => blks [m.keys_recv (place i q)])
      (fun _ => rfl) (fun _ => rfl) (fun q hq hne => ?_) fun q hq hne => ?_⟩
  · cases a with
    | read l =>
      by_cases hl : l ∈ links e.parties i
      · rw [keysStage_read hl]
        exact ends_secretRead.2 (by simp [keysScript, hl])
      · rw [show (keysStage e i).prog (.read l) = _ from if_neg hl]
        exact ends_ret.2 ⟨if_neg hl, if_neg hl⟩
    | write l =>
      by_cases hl : l ∈ links e.parties i
      · rw [keysStage_write hl]
        exact ends_secretWrite.2 (if_pos hl)
      · rw [show (keysStage e i).prog (.write l) = _ from if_neg hl]
        exact ends_ret.2 ⟨if_neg hl, rfl⟩
  · simp only [keysScript]; split <;> simp
  · simp only [keysScript]; split <;> simp
  · rw [keysScript, if_pos ((mem_links hi).2 ⟨q, hq, hne, rfl⟩)]; simp
  · rw [keysScript, if_pos ((mem_links hi).2 ⟨q, hq, hne, rfl⟩)]; simp

theorem agree_script (hi : i < e.parties) : ∃ v, (agreeStage e i).Script (onChan e.parties (keysSent e i))
    (onChan e.parties (keysRead i m.keys_recv)) (onChan e.parties (agreeSent e i)) (onChan e.parties (agreeRead i m.toAgreed))
    (agreeScript e i m) v := by
  refine ⟨fun | .read l => if l ∈ links e.parties i then m.recv l.slot else (e.commit 0, 0) | .write _ => (),
    script_of_setUp rfl hi (fun a => ?_) (fun a x hx o x' ho => ?_) (fun d => d.elim) (fun l hl => ⟨if_neg hl, if_neg hl⟩)
      (fun l x => ?_) (fun l x => ?_) (fun _ => coms [e.commit (e.seed i)] ++ blks [e.seed i])
      (fun q => coms [(m.recv (place i q)).1] ++ blks [(m.recv (place i q)).2])
      (fun _ => rfl) (fun _ => rfl) (fun q hq hne => ?_) fun q hq hne => ?_⟩
  · cases a with
    | read l =>
      by_cases hl : l ∈ links e.parties i
      · rw [agreeStage_read hl]
        exact ends_seedsRead.2 (by simp [agreeScript, hl])
      · rw [show (agreeStage e i).prog (.read l) = _ from if_neg hl]
        exact ends_ret.2 ⟨if_neg hl, if_neg hl⟩
    | write l =>
      by_cases hl : l ∈ links e.parties i
      · rw [agreeStage_write hl]
        exact ends_seedsWrite.2 ⟨e.seed i, if_pos hl⟩
      · rw [show (agreeStage e i).prog (.write l) = _ from if_neg hl]
        exact ends_ret.2 ⟨if_neg hl, rfl⟩
  · rw [ran_init ho]
    cases a with
    | read l => simp only [agreeScript] at hx; split at hx <;> simp at hx
    | write l =>
      simp only [agreeScript] at hx
      split at hx
      · simp only [List.mem_cons, Event.load.injEq, reduceCtorEq, List.not_mem_nil, or_false, false_or] at hx
        exact hx.symm
      · simp at hx
  · simp only [agreeScript]; split <;> simp
  · simp only [agreeScript]; split <;> simp
  · rw [agreeScript, if_pos ((mem_links hi).2 ⟨q, hq, hne, rfl⟩)]; simp
  · rw [agreeScript, if_pos ((mem_links hi).2 ⟨q, hq, hne, rfl⟩)]; simp

/-! ## The later phases -/

/-- A thread that lacks one of the two streams has no slot, so that it uses neither. -/
theorem offline_silent {kr : ℕ → Block} {t : Offline}
    (ht : ((offlineStage e i kr).port t).out = none ∨ ((offlineStage e i kr).port t).inp = none) (x : List (Atom κ)) :
    .out x ∉ offlineScript e i m t ∧ .inp x ∉ offlineScript e i m t := by
  cases t with
  | receiver a | sender a =>
    have ha : ¬ a < slots e.parties i := by
      intro ha
      rcases ht with ht | ht <;> simp [offlineStage, ha] at ht
    rw [offlineScript, if_neg ha]
    exact ⟨List.not_mem_nil, List.not_mem_nil⟩
  | shares =>
    simp only [offlineScript]
    split <;> simp

theorem offline_script [DecidableEq κ] (hi : i < e.parties) (hm : OpenedOk e i m.toOpened) (kr : ℕ → Block) :
    ∃ v, (offlineStage e i kr).Script (onChan e.parties (agreeSent e i)) (onChan e.parties (agreeRead i m.toAgreed))
      (onChan e.parties (offlineSent e i m.toOpened)) (onChan e.parties (offlineRead e i m.toOpened)) (offlineScript e i m) v := by
  refine ⟨fun | .receiver a => m.receiver a | .sender a => m.sender a | .shares => (),
    script_of_inst hi (fun t => ?_) (fun t x hx => ?_) (fun _ _ => ⟨_, rfl⟩) (fun t ht x => ?_) (fun t ht x => ?_)
      offline_out offline_inp _ _ _ _ (fun _ => rfl) (fun _ => rfl) (fun a t ha => ?_) fun a t ha => ?_⟩
  · cases t with
    | receiver a =>
      by_cases ha : a < slots e.parties i
      · rw [offlineStage_receiver ha]
        exact ends_offlineApportReceiver.2 ⟨hm.receiver a ha, if_pos ha⟩
      · rw [show (offlineStage e i kr).prog (.receiver a) = _ from if_neg ha]
        exact ends_ret.2 ⟨if_neg ha, hm.noReceiver a (not_lt.1 ha)⟩
    | sender a =>
      by_cases ha : a < slots e.parties i
      · rw [offlineStage_sender ha]
        exact ends_offlineApportSender.2 ⟨hm.sender a ha, if_pos ha⟩
      · rw [show (offlineStage e i kr).prog (.sender a) = _ from if_neg ha]
        exact ends_ret.2 ⟨if_neg ha, hm.noSender a (not_lt.1 ha)⟩
    | shares =>
      by_cases hn : 2 < e.parties
      · rw [show (offlineStage e i kr).prog .shares = _ from if_pos hn]
        exact ends_op.2 ⟨[], if_pos hn, ends_ret.2 ⟨rfl, rfl⟩⟩
      · rw [show (offlineStage e i kr).prog .shares = _ from if_neg hn]
        exact ends_ret.2 ⟨if_neg hn, rfl⟩
  · -- no thread of this phase reads the memory
    exfalso
    cases t <;> simp only [offlineScript] at hx <;> split at hx <;> simp at hx
  · exact (offline_silent (.inl ht) x).1
  · exact (offline_silent (.inr ht) x).2
  · refine ⟨fun h => ?_, fun h => ?_⟩ <;> cases h <;> rw [offlineScript, if_pos ha] <;> simp
  · refine ⟨fun h => ?_, fun h => ?_⟩ <;> cases h <;> rw [offlineScript, if_pos ha] <;> simp

theorem online_script [DecidableEq κ] (hi : i < e.parties) (hm : MergedOk e i m) :
    (onlineStage e i m.BF m.receiver).Script (onChan e.parties (offlineSent e i m.toOpened))
      (onChan e.parties (offlineRead e i m.toOpened)) (onChan e.parties (onlineSent e i m)) (onChan e.parties (onlineRead e i m))
      (onlineScript e i m) (fun | (a, .receiver) => m.func_recv a | (a, .sender) => m.func_sender a) := by
  refine script_of_inst hi (fun t => ?_) (fun _ _ _ _ _ _ => rfl) (fun d => d.elim) (fun t ht x => ?_) (fun t ht x => ?_)
    online_out online_inp _ _ _ _ (fun _ => rfl) (fun _ => rfl) (fun a t ha => ?_) fun a t ha => ?_
  · rcases t with ⟨a, _ | _⟩
    · by_cases ha : a < slots e.parties i
      · rw [onlineStage_receiver ha]
        exact ends_onlineApportReceiver.2 ⟨hm.func_recv a ha, if_pos ha⟩
      · rw [show (onlineStage e i m.BF m.receiver).prog (a, .receiver) = _ from if_neg ha]
        exact ends_ret.2 ⟨if_neg ha, hm.noFunc_recv a (not_lt.1 ha)⟩
    · by_cases ha : a < slots e.parties i
      · rw [onlineStage_sender ha]
        exact ends_onlineApportSender.2 ⟨hm.func_sender a ha, if_pos ha⟩
      · rw [show (onlineStage e i m.BF m.receiver).prog (a, .sender) = _ from if_neg ha]
        exact ends_ret.2 ⟨if_neg ha, hm.noFunc_sender a (not_lt.1 ha)⟩
  · rcases t with ⟨a, _ | _⟩
    · have ha : ¬ a < slots e.parties i := fun ha => by simp [onlineStage, ha] at ht
      rw [onlineScript, if_neg ha]
      exact List.not_mem_nil
    · simp only [onlineScript]; split <;> simp
  · rcases t with ⟨a, _ | _⟩
    · simp only [onlineScript]; split <;> simp
    · have ha : ¬ a < slots e.parties i := fun ha => by simp [onlineStage, ha] at ht
      rw [onlineScript, if_neg ha]
      exact List.not_mem_nil
  · constructor
    · intro h
      cases h
    · intro h
      cases h
      rw [onlineScript, if_pos ha]
      simp
  · constructor
    · intro h
      cases h
      rw [onlineScript, if_pos ha]
      simp
    · intro h
      cases h

theorem collect_script (hi : 0 < e.parties) {l : ℕ → List Block} (hl : ∀ a, a < e.parties - 1 → (l a).length = e.Nbf) :
    ∃ sc, (collectStage e m.shared).Script (onChan e.parties (onlineSent e 0 m)) (onChan e.parties (onlineRead e 0 m))
      (onChan e.parties (onlineSent e 0 m)) (onChan e.parties (endRead e 0 m l)) sc (fun _ => ()) ∧
      ∀ a, a ∉ Finset.range (e.parties - 1) → sc a = [] := by
  have h : ∀ a, ∃ es, Ends ((collectStage e m.shared).prog a) es () ∧ (a < e.parties - 1 → ins es = blks (l a)) ∧
      (∀ x, .load x ∉ es) ∧ (∀ x, .out x ∉ es) ∧ (e.parties - 1 ≤ a → es = []) := by
    intro a
    by_cases ha : a < e.parties - 1
    · obtain ⟨es, hes, hins, hload, hout⟩ := exists_getGbf (κ := κ) chunkSize (hl a ha)
      refine ⟨es, ?_, fun _ => hins, hload, hout, fun h => absurd ha (not_lt.2 h)⟩
      rw [collectStage_prog ha]
      exact hes
    · refine ⟨[], ?_, fun h => absurd h ha, by simp, by simp, fun _ => rfl⟩
      rw [show (collectStage e m.shared).prog a = _ from if_neg ha]
      exact ends_ret.2 ⟨rfl, rfl⟩
  choose sc hends hins hload hout hnil using h
  refine ⟨sc, script_of_inst hi hends (fun a x hx => absurd hx (hload a x)) (fun d x => ⟨_, rfl⟩) (fun a _ => hout a) (fun a ha x hx => ?_)
    collect_out collect_inp (fun _ => []) (fun _ => []) (fun _ => []) (fun a => blks (l a))
    (fun d => by rw [apport_nil, List.append_nil]) (fun _ => rfl) (fun a t _ => ⟨nofun, nofun⟩) (fun a t ha => ⟨nofun, fun h => ?_⟩),
    fun a ha => hnil a (by simpa using ha)⟩
  · have hlt : ¬ a < e.parties - 1 := fun hlt => by simp [collectStage, hlt] at ha
    rw [hnil a (not_lt.1 hlt)] at hx
    exact List.not_mem_nil hx
  · cases h
    exact hins a ha

/-! ## Threads with something to do -/

theorem keys_active (a : SetUp) (ha : a ∉ setUpThreads e.parties i) : keysScript e i m a = [] ∧ agreeScript e i m a = [] := by
  cases a with
  | read l | write l =>
    have hl : l ∉ links e.parties i := fun hl => ha (by simp [setUpThreads, hl])
    exact ⟨if_neg hl, if_neg hl⟩

theorem offline_active (a : Offline) (ha : a ∉ offlineThreads e.parties i) : offlineScript e i m a = [] := by
  cases a with
  | receiver a | sender a =>
    have hl : ¬ a < slots e.parties i := fun hl => ha (by simp [offlineThreads, hl])
    exact if_neg hl
  | shares => exact absurd (by simp [offlineThreads]) ha

theorem online_active (a : Source) (ha : a ∉ producers (slots e.parties i)) : onlineScript e i m a = [] := by
  rcases a with ⟨a, _ | _⟩
  · have hl : ¬ a < slots e.parties i := fun hl => ha (by simp [producers, hl])
    exact if_neg hl
  · have hl : ¬ a < slots e.parties i := fun hl => ha (by simp [producers, hl])
    exact if_neg hl

end Plan

end Mpsi
