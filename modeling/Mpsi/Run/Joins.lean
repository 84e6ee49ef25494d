/-
What a party has written and read when the threads of a phase have all returned: `keysSent`,
`agreeSent` and so on give it for each stream from what the phases have left, and the theorems about
joins show that a phase takes one to the next.
-/
import Mpsi.Run.Streams

namespace Mpsi

open Thread Stream

variable {κ : Type} {e : Env κ} {i : ℕ}

/-! ## What is on the streams after a phase -/

section Sent

variable (e : Env κ) (i : ℕ)

def keysSent (d : Chan) : List (Atom κ) := if d.main then blks [e.keys i (place i d.dst)] else []

def keysRead (keys_recv : ℕ → Block) (d : Chan) : List (Atom κ) := if d.main then blks [keys_recv (place i d.src)] else []

def agreeSent (d : Chan) : List (Atom κ) :=
  keysSent e i d ++ if d.main then coms [e.commit (e.seed i)] ++ blks [e.seed i] else []

def agreeRead (g : Agreed κ) (d : Chan) : List (Atom κ) :=
  keysRead i g.keys_recv d ++ if d.main then coms [(g.recv (place i d.src)).1] ++ blks [(g.recv (place i d.src)).2] else []

def offlineSent (o : Opened κ e.Not) (d : Chan) : List (Atom κ) :=
  agreeSent e i d ++ apport i d.dst d.main
    (fun a => ints [(e.Nc : ℤ)] ++ blks [e.seed_sub_group i a])
    (fun a => ints [((o.receiver a).cut.R.length : ℤ)] ++ ints (o.receiver a).cut.R ++ blks [(o.receiver a).cut.r])

def offlineRead (o : Opened κ e.Not) (d : Chan) : List (Atom κ) :=
  agreeRead i o.toAgreed d ++ apport i d.src d.main
    (fun a => ints [(o.sender a).msg.Nr] ++ ints (o.sender a).msg.R ++ blks [(o.sender a).msg.r])
    (fun a => ints [(o.receiver a).Nc_recv] ++ blks [(o.receiver a).seed_recv])

def onlineSent (m : Merged κ e.Not) (d : Chan) : List (Atom κ) :=
  offlineSent e i m.toOpened d ++ apport i d.dst d.main (fun _ => []) (fun a => ints (m.func_recv a))

def onlineRead (m : Merged κ e.Not) (d : Chan) : List (Atom κ) :=
  offlineRead e i m.toOpened d ++ apport i d.src d.main (fun a => ints (m.func_sender a)) (fun _ => [])

/-- A Pi in the end, when it has sent `GBF1`. -/
def endSent (m : Merged κ e.Not) (GBF1 : ℕ → Block) (d : Chan) : List (Atom κ) :=
  onlineSent e i m d ++ apport i d.dst d.main (fun _ => blks ((List.range e.Nbf).map GBF1)) (fun _ => [])

/-- P0 in the end, when it has received the arrays `l`. -/
def endRead (m : Merged κ e.Not) (l : ℕ → List Block) (d : Chan) : List (Atom κ) :=
  onlineRead e i m d ++ apport i d.src d.main (fun _ => []) (fun a => blks (l a))

end Sent

/-! ## The ports of the phases -/

theorem keysStage_ported (hi : i < e.parties) :
    (keysStage e i).Ported (fun c => writer e.parties c = i) (fun c => reader e.parties c = i) :=
  ⟨(setUp_ported hi).1, (setUp_ported hi).2.1, (setUp_ported hi).2.2.1, (setUp_ported hi).2.2.2⟩

theorem agreeStage_ported (hi : i < e.parties) :
    (agreeStage e i).Ported (fun c => writer e.parties c = i) (fun c => reader e.parties c = i) :=
  ⟨(setUp_ported hi).1, (setUp_ported hi).2.1, (setUp_ported hi).2.2.1, (setUp_ported hi).2.2.2⟩

/-- The threads of a phase use the streams of the instances as `Uses` says. -/
theorem ported_of_uses {T : Kind → Type} {δ σ ε ι : Type} {α : ι → Type} {S : Stage T δ σ ε Sock α} {n : ℕ} (hi : i < n)
    {snd rcv snd' rcv' : ℕ → Option ι}
    (u : Uses n i (fun t => (S.port t).out) (senderSock n i) (receiverSock n i) snd rcv)
    (u' : Uses n i (fun t => (S.port t).inp) (fun a => (senderSock n i a).peer) (fun a => (receiverSock n i a).peer) snd' rcv') :
    S.Ported (fun c => writer n c = i) (fun c => reader n c = i) := by
  refine ⟨fun {t c} h => ?_, fun {t c} h => ?_, fun {t t' c} h h' => ?_, fun {t t' c} h h' => ?_⟩
  · rcases u.owner h with ⟨a, ha, ⟨_, rfl⟩ | ⟨_, rfl⟩⟩
    · exact (inst_writer hi ha).1
    · exact (inst_writer hi ha).2.1
  · rcases u'.owner h with ⟨a, ha, ⟨_, rfl⟩ | ⟨_, rfl⟩⟩
    · exact (inst_writer hi ha).2.2.1
    · exact (inst_writer hi ha).2.2.2
  · rcases u.owner h with ⟨a, ha, ⟨h1, rfl⟩ | ⟨h1, rfl⟩⟩ <;> obtain ⟨b, hb, ⟨h2, hc⟩ | ⟨h2, hc⟩⟩ := u.owner h'
    · rw [(inst_out_inj hi ha hb).1 hc, h2] at h1; exact (Option.some.inj h1).symm
    · exact absurd hc (inst_out_inj hi ha hb).2.2
    · exact absurd hc.symm (inst_out_inj hi hb ha).2.2
    · rw [(inst_out_inj hi ha hb).2.1 hc, h2] at h1; exact (Option.some.inj h1).symm
  · rcases u'.owner h with ⟨a, ha, ⟨h1, rfl⟩ | ⟨h1, rfl⟩⟩ <;> obtain ⟨b, hb, ⟨h2, hc⟩ | ⟨h2, hc⟩⟩ := u'.owner h'
    · rw [(inst_out_inj hi ha hb).1 (peer_inj hc), h2] at h1; exact (Option.some.inj h1).symm
    · exact absurd (peer_inj hc) (inst_out_inj hi ha hb).2.2
    · exact absurd (peer_inj hc).symm (inst_out_inj hi hb ha).2.2
    · rw [(inst_out_inj hi ha hb).2.1 (peer_inj hc), h2] at h1; exact (Option.some.inj h1).symm

section Uses

variable {keys_recv : ℕ → Block} {BF : List Bool} {receiver : ℕ → Receiver e.Not} {GBF : ℕ → Block}

/-- Threads that use the stream of their slot, if there is such a slot, and others that use none. -/
theorem uses_of_slots {ι : Type} {n i : ℕ} {own : ι → Option Sock} {sock₁ sock₂ : ℕ → Sock} {snd rcv : ℕ → Option ι}
    (hsnd : ∀ a t, snd a = some t → own t = if a < slots n i then some (sock₁ a) else none)
    (hrcv : ∀ a t, rcv a = some t → own t = if a < slots n i then some (sock₂ a) else none)
    (hrest : ∀ t, (∀ a, snd a ≠ some t) → (∀ a, rcv a ≠ some t) → own t = none) : Uses n i own sock₁ sock₂ snd rcv := by
  refine ⟨fun {a t} ha h => ?_, fun {a t} ha h => ?_, fun {t c} h => ?_⟩
  · rw [hsnd a t h, if_pos ha]
  · rw [hrcv a t h, if_pos ha]
  · by_cases h1 : ∃ a, snd a = some t
    · obtain ⟨a, ht⟩ := h1
      rw [hsnd a t ht] at h
      split at h
      · rename_i ha
        exact ⟨a, ha, Or.inl ⟨ht, (Option.some.inj h).symm⟩⟩
      · cases h
    · by_cases h2 : ∃ a, rcv a = some t
      · obtain ⟨a, ht⟩ := h2
        rw [hrcv a t ht] at h
        split at h
        · rename_i ha
          exact ⟨a, ha, Or.inr ⟨ht, (Option.some.inj h).symm⟩⟩
        · cases h
      · rw [hrest t (not_exists.1 h1) (not_exists.1 h2)] at h
        cases h

theorem offline_uses {n i : ℕ} {own : Offline → Option Sock} {sock₁ sock₂ : ℕ → Sock}
    (hsnd : ∀ a, own (.sender a) = if a < slots n i then some (sock₁ a) else none)
    (hrcv : ∀ a, own (.receiver a) = if a < slots n i then some (sock₂ a) else none) (hshares : own .shares = none) :
    Uses n i own sock₁ sock₂ (fun a => some (.sender a)) fun a => some (.receiver a) := by
  apply uses_of_slots
  · rintro a _ ⟨⟩
    exact hsnd a
  · rintro a _ ⟨⟩
    exact hrcv a
  · intro t hs hr
    cases t with
    | receiver a => exact absurd rfl (hr a)
    | sender a => exact absurd rfl (hs a)
    | shares => exact hshares

theorem offline_out : Uses e.parties i (fun t => ((offlineStage e i keys_recv).port t).out) (senderSock e.parties i)
    (receiverSock e.parties i) (fun a => some (.sender a)) (fun a => some (.receiver a)) := by
  apply offline_uses
  · intro a
    simp only [offlineStage]
    split <;> rfl
  · intro a
    simp only [offlineStage]
    split <;> rfl
  · rfl

theorem offline_inp : Uses e.parties i (fun t => ((offlineStage e i keys_recv).port t).inp)
    (fun a => (senderSock e.parties i a).peer) (fun a => (receiverSock e.parties i a).peer) (fun a => some (.sender a))
    (fun a => some (.receiver a)) := by
  apply offline_uses
  · intro a
    simp only [offlineStage]
    split <;> rfl
  · intro a
    simp only [offlineStage]
    split <;> rfl
  · rfl

theorem online_out : Uses e.parties i (fun t => ((onlineStage e i BF receiver).port t).out) (senderSock e.parties i)
    (receiverSock e.parties i) (fun _ => none) (fun a => some (a, .receiver)) := by
  apply uses_of_slots
  · exact nofun
  · rintro a _ ⟨⟩
    rfl
  · rintro ⟨a, _ | _⟩ _ hr
    · exact absurd rfl (hr a)
    · rfl

theorem online_inp : Uses e.parties i (fun t => ((onlineStage e i BF receiver).port t).inp)
    (fun a => (senderSock e.parties i a).peer) (fun a => (receiverSock e.parties i a).peer) (fun a => some (a, .sender))
    (fun _ => none) := by
  apply uses_of_slots
  · rintro a _ ⟨⟩
    rfl
  · exact nofun
  · rintro ⟨a, _ | _⟩ hs _
    · rfl
    · exact absurd rfl (hs a)

theorem collect_out : Uses e.parties 0 (fun t => ((collectStage e GBF).port t).out) (senderSock e.parties 0)
    (receiverSock e.parties 0) (fun _ => none) (fun _ => none) :=
  ⟨nofun, nofun, nofun⟩

theorem collect_inp : Uses e.parties 0 (fun t => ((collectStage e GBF).port t).inp)
    (fun a => (senderSock e.parties 0 a).peer) (fun a => (receiverSock e.parties 0 a).peer) (fun _ => none) some := by
  have hs : slots e.parties 0 = e.parties - 1 := rfl
  apply uses_of_slots
  · exact nofun
  · rintro a _ ⟨⟩
    rw [hs]
    simp only [collectStage]
    split <;> simp [receiverSock]
  · intro t _ hr
    exact absurd rfl (hr t)

end Uses

/-! ## From phase to phase -/

/-- The threads of a phase of player `i`, which began when the streams carried `w` and `r`. -/
abbrev Threads {δ σ ι : Type} {α : ι → Type} [DecidableEq ι] (n i : ℕ) (S : Stage (Wire κ) δ σ Fault Sock α)
    (w r : Chan → List (Atom κ)) : Pool (Wire κ) δ σ Fault α → (Sock → List (Atom κ)) → (Sock → List (Atom κ)) → Prop :=
  S.Inv (fun c => writer n c = i) (fun c => reader n c = i) (onChan n w) (onChan n r)

/-- Between two phases: player `i` has written `w` and read `r`. -/
structure Rest (n i : ℕ) (w r : Chan → List (Atom κ)) (W R : Sock → List (Atom κ)) : Prop where
  wrote : ∀ c, writer n c = i → W c = onChan n w c
  read : ∀ c, reader n c = i → R c = onChan n r c

section Rest

variable {n : ℕ} {w r : Chan → List (Atom κ)} {W R W' R' : Sock → List (Atom κ)}

theorem rest_iff (hi : i < n) : Rest n i w r W R ↔
    (∀ d, d.Valid n → d.src = i → W (d.sock n) = w d) ∧ ∀ d, d.Valid n → d.dst = i → R (d.sock n) = r d := by
  constructor
  · intro h
    constructor
    · intro d hd hs
      rw [h.wrote _ (by rw [writer_sock hd, hs]), onChan_sock hd]
    · intro d hd hs
      rw [h.read _ (by rw [reader_sock hd, hs]), onChan_sock hd]
  · rintro ⟨hw, hr⟩
    constructor
    · intro c hc
      obtain ⟨d, hd, hs, rfl⟩ := exists_writer hi hc
      rw [hw d hd hs, onChan_sock hd]
    · intro c hc
      obtain ⟨d, hd, hs, rfl⟩ := exists_reader hi hc
      rw [hr d hd hs, onChan_sock hd]

theorem Rest.frame (h : Rest n i w r W R) (hW : ∀ c, writer n c = i → W' c = W c) (hR : ∀ c, reader n c = i → R' c = R c) :
    Rest n i w r W' R' :=
  ⟨fun c hc => (hW c hc).trans (h.wrote c hc), fun c hc => (hR c hc).trans (h.read c hc)⟩

theorem Rest.start {δ σ ι : Type} {α : ι → Type} [DecidableEq ι] {S : Stage (Wire κ) δ σ Fault Sock α} (h : Rest n i w r W R)
    (hp : S.Ported (fun c => writer n c = i) (fun c => reader n c = i)) : Threads n i S w r S.start W R :=
  inv_start hp h.wrote h.read

theorem apport_congr {α : Type} {snd rcv snd' rcv' : ℕ → List α} {q : ℕ} {m : Bool} (hq : q < n) (hne : i ≠ q)
    (hs : ∀ a, a < slots n i → snd a = snd' a) (hr : ∀ a, a < slots n i → rcv a = rcv' a) :
    apport i q m snd rcv = apport i q m snd' rcv' := by
  have ha : (if i = 0 then q - 1 else 0) < slots n i := by
    unfold slots; split <;> omega
  unfold apport
  rw [hs _ ha, hr _ ha]

/-- A phase of the set-up has come to its end. -/
theorem rest_of_setUp {δ σ : Type} {α : SetUp → Type} {S : Stage (Wire κ) δ σ Fault Sock α} (hS : S.port = setUpPort n i) (hi : i < n)
    {P : Pool (Wire κ) δ σ Fault α} (h : Threads n i S w r P W R) (out inp : ℕ → List (Atom κ)) {w' r' : Chan → List (Atom κ)}
    (hw' : ∀ d, w' d = w d ++ if d.main then out d.dst else []) (hr' : ∀ d, r' d = r d ++ if d.main then inp d.src else [])
    (hout : ∀ q, q < n → q ≠ i → outs (P.hist (.write ⟨place i q, (Chan.mk i q true).sock n⟩)) = out q)
    (hinp : ∀ q, q < n → q ≠ i → ins (P.hist (.read ⟨place i q, (Chan.mk i q true).sock n⟩)) = inp q) :
    Rest n i w' r' W R := by
  have hw := h.wrote
  have hr := h.read
  rw [hS] at hw hr
  refine (rest_iff hi).2 ⟨fun d hd hs => ?_, fun d hd hs => ?_⟩
  · rw [setUp_grown_out hi hw hd hs, onChan_sock hd, hw']
    rcases d with ⟨s, t, _ | _⟩
    · rfl
    · cases hs; rw [if_pos rfl, if_pos rfl, hout t hd.dst hd.ne.symm]
  · rw [setUp_grown_inp hi hr hd hs, onChan_sock hd, hr']
    rcases d with ⟨s, t, _ | _⟩
    · rfl
    · cases hs; rw [if_pos rfl, if_pos rfl]; exact congrArg _ (hinp s hd.src hd.ne)

/-- A phase of the instances has. -/
theorem rest_of_inst {δ σ ι : Type} {α : ι → Type} [DecidableEq ι] {S : Stage (Wire κ) δ σ Fault Sock α} (hi : i < n)
    {snd rcv snd' rcv' : ℕ → Option ι} {P : Pool (Wire κ) δ σ Fault α} (h : Threads n i S w r P W R)
    (u : Uses n i (fun t => (S.port t).out) (senderSock n i) (receiverSock n i) snd rcv)
    (u' : Uses n i (fun t => (S.port t).inp) (fun a => (senderSock n i a).peer) (fun a => (receiverSock n i a).peer) snd' rcv')
    (out₁ out₂ inp₁ inp₂ : ℕ → List (Atom κ)) {w' r' : Chan → List (Atom κ)}
    (hw' : ∀ d, w' d = w d ++ apport i d.dst d.main out₁ out₂) (hr' : ∀ d, r' d = r d ++ apport i d.src d.main inp₁ inp₂)
    (hout : ∀ a, a < slots n i → ((snd a).elim [] fun t => outs (P.hist t)) = out₁ a ∧
      ((rcv a).elim [] fun t => outs (P.hist t)) = out₂ a)
    (hinp : ∀ a, a < slots n i → ((snd' a).elim [] fun t => ins (P.hist t)) = inp₁ a ∧
      ((rcv' a).elim [] fun t => ins (P.hist t)) = inp₂ a) :
    Rest n i w' r' W R := by
  refine (rest_iff hi).2 ⟨fun d hd hs => ?_, fun d hd hs => ?_⟩
  · rw [inst_grown_out hi h.wrote u hd hs, onChan_sock hd, hw']
    exact congrArg _ (apport_congr hd.dst (hs ▸ hd.ne) (fun a ha => (hout a ha).1) fun a ha => (hout a ha).2)
  · rw [inst_grown_inp hi h.read u' hd hs, onChan_sock hd, hr']
    exact congrArg _ (apport_congr hd.src (hs ▸ hd.ne.symm) (fun a ha => (hinp a ha).1) fun a ha => (hinp a ha).2)

end Rest

end Mpsi
