/-
Networks of processes that exchange lists over FIFO streams, one writer and one reader for each
stream. The state keeps of each stream what was written so far and how much of it was read, so
what is in flight is the rest.

The main result is an invariant rule: an invariant that ties the state of one process to what it
has written and read, and that its own steps keep, holds of every process in every reachable state,
whatever the order of the steps (`onTrack_of_reaches`), and of a process whose streams are left open
to arbitrary writers (`inv_of_alone`). From there, what all streams will carry can be foretold
(`expected_of_reaches`).
-/
import Mpsi.Lib.Reach

namespace Stream

open Relation

variable {ι χ μ σ : Type}

/-- What one step of a process does on its streams. -/
inductive Label (χ μ : Type) where
  | tau
  | send (c : χ) (l : List μ)
  | recv (c : χ) (l : List μ)

/-- The processes and the streams: what was written on each so far, and how much was read. -/
structure Net (ι χ μ σ : Type) where
  proc : ι → σ
  sent : χ → List μ
  rcvd : χ → ℕ

/-- Nothing written, nothing read. -/
def Net.start (init : ι → σ) : Net ι χ μ σ := ⟨init, fun _ => [], fun _ => 0⟩

/-- What was read from a stream. -/
def Net.taken (s : Net ι χ μ σ) (c : χ) : List μ := (s.sent c).take (s.rcvd c)

/-- What was read from a stream was written on it. -/
theorem Net.taken_initial (s : Net ι χ μ σ) (c : χ) : s.taken c <+: s.sent c := List.take_prefix _ _

/-- A process with what it has written and what it has read. -/
structure Alone (χ μ σ : Type) where
  proc : σ
  wrote : χ → List μ
  read : χ → List μ

section Steps

variable [DecidableEq ι] [DecidableEq χ]

/-- One process of the network takes a step; a read takes the oldest unread elements. -/
inductive Step (step : ι → σ → Label χ μ → σ → Prop) : Net ι χ μ σ → Net ι χ μ σ → Prop
  | tau {s : Net ι χ μ σ} {i p} : step i (s.proc i) .tau p →
      Step step s { s with proc := Function.update s.proc i p }
  | send {s : Net ι χ μ σ} {i c l p} : step i (s.proc i) (.send c l) p →
      Step step s { s with proc := Function.update s.proc i p, sent := Function.update s.sent c (s.sent c ++ l) }
  | recv {s : Net ι χ μ σ} {i c l p} : step i (s.proc i) (.recv c l) p → l <+: (s.sent c).drop (s.rcvd c) →
      Step step s { s with proc := Function.update s.proc i p, rcvd := Function.update s.rcvd c (s.rcvd c + l.length) }

/-- States the network can reach from `init`. -/
def Reaches (step : ι → σ → Label χ μ → σ → Prop) (init : ι → σ) : Net ι χ μ σ → Prop :=
  ReflTransGen (Step step) (Net.start init)

/-- One step of a process whose peers may write anything. -/
inductive AloneStep (step : σ → Label χ μ → σ → Prop) : Alone χ μ σ → Alone χ μ σ → Prop
  | tau {s : Alone χ μ σ} {p} : step s.proc .tau p → AloneStep step s { s with proc := p }
  | send {s : Alone χ μ σ} {c l p} : step s.proc (.send c l) p →
      AloneStep step s { s with proc := p, wrote := Function.update s.wrote c (s.wrote c ++ l) }
  | recv {s : Alone χ μ σ} {c l p} : step s.proc (.recv c l) p →
      AloneStep step s { s with proc := p, read := Function.update s.read c (s.read c ++ l) }

theorem AloneStep.proc {step : σ → Label χ μ → σ → Prop} {s t : Alone χ μ σ} (h : AloneStep step s t) : ∃ l, step s.proc l t.proc := by
  cases h with
  | tau hst | send hst | recv hst => exact ⟨_, hst⟩

/-- What was read stays read. -/
theorem AloneStep.read_initial {step : σ → Label χ μ → σ → Prop} {s t : Alone χ μ σ} (h : AloneStep step s t) (c : χ) :
    s.read c <+: t.read c := by
  cases h with
  | tau | send => exact List.prefix_rfl
  | @recv c' l p hst =>
    by_cases hc : c = c'
    · subst hc
      simp
    · simp [hc]

/-- And what was written stays written. -/
theorem AloneStep.wrote_initial {step : σ → Label χ μ → σ → Prop} {s t : Alone χ μ σ} (h : AloneStep step s t) (c : χ) :
    s.wrote c <+: t.wrote c := by
  cases h with
  | tau | recv => exact List.prefix_rfl
  | @send c' l p hst =>
    by_cases hc : c = c'
    · subst hc
      simp
    · simp [hc]

/-- The states such a process can reach. -/
def AloneReaches (step : σ → Label χ μ → σ → Prop) (init : σ) : Alone χ μ σ → Prop :=
  ReflTransGen (AloneStep step) ⟨init, fun _ => [], fun _ => []⟩

/-- The steps of the processes keep `Inv i p w r`, which ties the state `p` of process `i` to what it
has written (`w`) and read (`r`). -/
structure Follows (step : ι → σ → Label χ μ → σ → Prop) (writer reader : χ → ι)
    (Inv : ι → σ → (χ → List μ) → (χ → List μ) → Prop) : Prop where
  tau : ∀ {i p p' w r}, Inv i p w r → step i p .tau p' → Inv i p' w r
  send : ∀ {i p p' w r c l}, Inv i p w r → step i p (.send c l) p' →
    writer c = i ∧ Inv i p' (Function.update w c (w c ++ l)) r
  recv : ∀ {i p p' w r c l}, Inv i p w r → step i p (.recv c l) p' →
    reader c = i ∧ Inv i p' w (Function.update r c (r c ++ l))
  frame : ∀ {i p w w' r r'}, Inv i p w r → (∀ c, writer c = i → w' c = w c) →
    (∀ c, reader c = i → r' c = r c) → Inv i p w' r'

variable {step : ι → σ → Label χ μ → σ → Prop} {writer reader : χ → ι}
  {Inv : ι → σ → (χ → List μ) → (χ → List μ) → Prop} {s t : Net ι χ μ σ}

/-- Each process satisfies its invariant, and nothing was read that was not written. -/
structure OnTrack (Inv : ι → σ → (χ → List μ) → (χ → List μ) → Prop) (s : Net ι χ μ σ) : Prop where
  inv : ∀ i, Inv i (s.proc i) s.sent s.taken
  le : ∀ c, s.rcvd c ≤ (s.sent c).length

/-- What a write changes: nothing of what was read. -/
theorem taken_send {i : ι} {p : σ} {c : χ} {l : List μ} (h : ∀ c, s.rcvd c ≤ (s.sent c).length) :
    (Net.taken ⟨Function.update s.proc i p, Function.update s.sent c (s.sent c ++ l), s.rcvd⟩) = s.taken := by
  funext c'
  by_cases hc : c' = c
  · subst hc; simp [Net.taken, List.take_append_of_le_length (h c')]
  · simp [Net.taken, hc]

/-- What a read takes. -/
theorem taken_recv {i : ι} {p : σ} {c : χ} {l : List μ} (hl : l <+: (s.sent c).drop (s.rcvd c)) :
    Net.taken ⟨Function.update s.proc i p, s.sent, Function.update s.rcvd c (s.rcvd c + l.length)⟩ =
      Function.update s.taken c (s.taken c ++ l) := by
  funext c'
  by_cases hc : c' = c
  · subst hc
    simp only [Net.taken, Function.update_self]
    rw [List.take_add, ← List.prefix_iff_eq_take.1 hl]
  · simp [Net.taken, hc]

/-- What was written stays written. -/
theorem Step.sent_initial (h : Step step s t) (c : χ) : s.sent c <+: t.sent c := by
  cases h with
  | tau | recv => exact List.prefix_rfl
  | @send i c' l p =>
    by_cases hc : c = c'
    · subst hc
      simp
    · simp [hc]

theorem onTrack_step (F : Follows step writer reader Inv) (h : OnTrack Inv s) (hst : Step step s t) : OnTrack Inv t := by
  cases hst with
  | @tau i p hp =>
    refine ⟨fun j => ?_, h.le⟩
    change Inv j (Function.update s.proc i p j) s.sent s.taken
    by_cases hj : j = i
    · subst hj; simpa using F.tau (h.inv j) hp
    · simpa [hj] using h.inv j
  | @send i c l p hp =>
    obtain ⟨hw, hi⟩ := F.send (h.inv i) hp
    constructor
    · intro j
      rw [taken_send h.le]
      by_cases hj : j = i
      · subst hj; simpa using hi
      · simp only [Function.update_of_ne hj]
        refine F.frame (h.inv j) (fun c' hc' => ?_) (fun _ _ => rfl)
        exact Function.update_of_ne (by rintro rfl; exact hj (hc'.symm.trans hw)) _ _
    · intro c'
      by_cases hc : c' = c
      · subst hc; simpa using (h.le c').trans (Nat.le_add_right _ _)
      · simpa [hc] using h.le c'
  | @recv i c l p hp hl =>
    -- what is read was in flight
    have hlen : s.rcvd c + l.length ≤ (s.sent c).length := by
      have h1 := hl.length_le
      have h2 := h.le c
      rw [List.length_drop] at h1
      omega
    obtain ⟨hr, hi⟩ := F.recv (h.inv i) hp
    constructor
    · intro j
      rw [taken_recv hl]
      by_cases hj : j = i
      · subst hj; simpa using hi
      · simp only [Function.update_of_ne hj]
        refine F.frame (h.inv j) (fun _ _ => rfl) (fun c' hc' => ?_)
        exact Function.update_of_ne (by rintro rfl; exact hj (hc'.symm.trans hr)) _ _
    · intro c'
      by_cases hc : c' = c
      · subst hc; simpa using hlen
      · simpa [hc] using h.le c'

/-- The rule for a network. -/
theorem onTrack_of_reaches (F : Follows step writer reader Inv) {init : ι → σ}
    (h₀ : ∀ i, Inv i (init i) (fun _ => []) (fun _ => [])) (h : Reaches step init s) : OnTrack Inv s :=
  Reach.inv_of_step (I := OnTrack Inv) ⟨h₀, fun _ => le_rfl⟩ (fun _ _ => onTrack_step F) h

/-- A process that writes nothing on its way out of `L` and outside of it: at some moment of the run it was still in `L`
and had written all that it has written now. -/
theorem exists_within (F : Follows step writer reader Inv) {init : ι → σ} (h₀ : ∀ i, Inv i (init i) (fun _ => []) (fun _ => []))
    {j : ι} {L : σ → Prop} (hinit : L (init j)) (hout : ∀ {p l q}, step j p l q → ¬ L q → l = .tau)
    {run : ℕ → Net ι χ μ σ} {n : ℕ} (h : Reach.Run (Step step) (Net.start init) run n) :
    ∃ m, m ≤ n ∧ L ((run m).proc j) ∧ ∀ c, writer c = j → (run n).sent c = (run m).sent c := by
  induction n with
  | zero => exact ⟨0, le_rfl, by rw [h.start]; exact hinit, fun _ _ => rfl⟩
  | succ n ih =>
    by_cases hL : L ((run (n + 1)).proc j)
    · exact ⟨n + 1, le_rfl, hL, fun _ _ => rfl⟩
    have hn := h.initial n.le_succ
    obtain ⟨m, hm, hLm, hsent⟩ := ih hn
    refine ⟨m, hm.trans n.le_succ, hLm, fun c hc => Eq.trans ?_ (hsent c hc)⟩
    have hst := h.next n n.lt_succ_self
    have hT := onTrack_of_reaches F h₀ hn.reaches
    generalize run (n + 1) = t at hst hL ⊢
    -- only a write of `j` itself could change the stream
    cases hst with
    | tau | recv => rfl
    | @send i c' l p hp =>
      refine Function.update_of_ne (fun hcc => ?_) _ _
      subst hcc
      obtain rfl : j = i := hc.symm.trans (F.send (hT.inv i) hp).1
      cases hout hp (by simpa using hL)

omit [DecidableEq ι] in
/-- The rule for one process with open streams. -/
theorem inv_of_alone (F : Follows step writer reader Inv) {i : ι} {p₀ : σ}
    (h₀ : Inv i p₀ (fun _ => []) (fun _ => [])) {s : Alone χ μ σ} (h : AloneReaches (step i) p₀ s) :
    Inv i s.proc s.wrote s.read := by
  refine Reach.inv_of_step (I := fun s : Alone χ μ σ => Inv i s.proc s.wrote s.read) h₀ (fun s t hs hst => ?_) h
  cases hst with
  | tau hp => exact F.tau hs hp
  | send hp => exact (F.send hs hp).2
  | recv hp => exact (F.recv hs hp).2

/-! ## Traces -/

/-- A process can write and read `ls`, in this order. -/
inductive Traced {χ μ σ : Type} (step : σ → Label χ μ → σ → Prop) (p₀ : σ) : List (Label χ μ) → σ → Prop
  | start : Traced step p₀ [] p₀
  | tau {ls p p'} : Traced step p₀ ls p → step p .tau p' → Traced step p₀ ls p'
  | send {ls p c l p'} : Traced step p₀ ls p → step p (.send c l) p' → Traced step p₀ (ls ++ [.send c l]) p'
  | recv {ls p c l p'} : Traced step p₀ ls p → step p (.recv c l) p' → Traced step p₀ (ls ++ [.recv c l]) p'

/-- A process that can follow another, but for steps of its own, has all of its traces. -/
theorem traced_sim {χ μ σ τ : Type} {step : σ → Label χ μ → σ → Prop} {step' : τ → Label χ μ → τ → Prop} {p₀ p : σ} {q₀ : τ}
    {K : σ → τ → Prop} (h₀ : K p₀ q₀)
    (hs : ∀ {p q l p'}, K p q → step p l p' → (∃ q', step' q l q' ∧ K p' q') ∨ (l = .tau ∧ K p' q))
    {ls : List (Label χ μ)} (h : Traced step p₀ ls p) : ∃ q, Traced step' q₀ ls q ∧ K p q := by
  induction h with
  | start => exact ⟨q₀, .start, h₀⟩
  | tau _ hst ih =>
    obtain ⟨q, hq, hK⟩ := ih
    rcases hs hK hst with ⟨q', hst', hK'⟩ | ⟨_, hK'⟩
    · exact ⟨q', .tau hq hst', hK'⟩
    · exact ⟨q, hq, hK'⟩
  | send _ hst ih =>
    obtain ⟨q, hq, hK⟩ := ih
    rcases hs hK hst with ⟨q', hst', hK'⟩ | ⟨hl, _⟩
    · exact ⟨q', .send hq hst', hK'⟩
    · cases hl
  | recv _ hst ih =>
    obtain ⟨q, hq, hK⟩ := ih
    rcases hs hK hst with ⟨q', hst', hK'⟩ | ⟨hl, _⟩
    · exact ⟨q', .recv hq hst', hK'⟩
    · cases hl

/-! ## One process of a network -/

/-- A process of the network with its own streams. -/
def Net.alone (writer reader : χ → ι) (s : Net ι χ μ σ) (i : ι) : Alone χ μ σ :=
  ⟨s.proc i, fun c => if writer c = i then s.sent c else [], fun c => if reader c = i then s.taken c else []⟩

omit [DecidableEq χ] in
theorem Net.alone_wrote {i : ι} {c : χ} (h : writer c = i) : (s.alone writer reader i).wrote c = s.sent c := if_pos h

omit [DecidableEq χ] in
theorem Net.alone_read {i : ι} {c : χ} (h : reader c = i) : (s.alone writer reader i).read c = s.taken c := if_pos h

omit [DecidableEq χ] in
theorem alone_congr {t : Net ι χ μ σ} {i : ι} (hp : t.proc i = s.proc i) (hs : ∀ c, writer c = i → t.sent c = s.sent c)
    (hr : ∀ c, reader c = i → t.taken c = s.taken c) : t.alone writer reader i = s.alone writer reader i := by
  have h1 : (fun c => if writer c = i then t.sent c else []) = fun c => if writer c = i then s.sent c else [] := by
    funext c
    split
    · rename_i hc; exact hs c hc
    · rfl
  have h2 : (fun c => if reader c = i then t.taken c else []) = fun c => if reader c = i then s.taken c else [] := by
    funext c
    split
    · rename_i hc; exact hr c hc
    · rfl
  rw [Net.alone, hp, h1, h2, Net.alone]

/-- The streams of process `i`, after one of them is appended to. -/
theorem own_append {end' : χ → ι} {f : χ → List μ} {i : ι} {c : χ} (hc : end' c = i) (l : List μ) :
    (fun c' => if end' c' = i then Function.update f c (f c ++ l) c' else []) =
      Function.update (fun c' => if end' c' = i then f c' else []) c ((if end' c = i then f c else []) ++ l) := by
  funext c'
  by_cases hc' : c' = c
  · subst hc'; simp [hc]
  · simp [hc']

/-- A step of the network is a step of the process it belongs to; the other processes see none of it. -/
theorem alone_step (F : Follows step writer reader Inv) (h : OnTrack Inv s) (hst : Step step s t) (i : ι) :
    t.alone writer reader i = s.alone writer reader i ∨
      AloneStep (step i) (s.alone writer reader i) (t.alone writer reader i) := by
  cases hst with
  | @tau j p hp =>
    by_cases hj : i = j
    · subst hj
      right
      convert AloneStep.tau (s := s.alone writer reader i) hp using 1
      simp [Net.alone, Net.taken]
    · exact .inl (alone_congr (by simp [hj]) (fun _ _ => rfl) fun _ _ => rfl)
  | @send j c l p hp =>
    have hw := (F.send (h.inv j) hp).1
    by_cases hj : i = j
    · subst hj
      right
      convert AloneStep.send (s := s.alone writer reader i) hp using 1
      simp only [Net.alone, Function.update_self, taken_send h.le, own_append hw]
    · -- the stream written on has another writer
      refine .inl (alone_congr (by simp [hj]) (fun c' hc' => ?_) fun c' _ => by rw [taken_send h.le])
      exact Function.update_of_ne (by rintro rfl; exact hj (hc'.symm.trans hw)) _ _
  | @recv j c l p hp hl =>
    have hr := (F.recv (h.inv j) hp).1
    by_cases hj : i = j
    · subst hj
      right
      convert AloneStep.recv (s := s.alone writer reader i) hp using 1
      simp only [Net.alone, Function.update_self, taken_recv hl, own_append hr]
    · -- the stream read has another reader
      refine .inl (alone_congr (by simp [hj]) (fun _ _ => rfl) fun c' hc' => ?_)
      rw [taken_recv hl]
      exact Function.update_of_ne (by rintro rfl; exact hj (hc'.symm.trans hr)) _ _

/-- What a process does in a network it can do among peers that write anything. -/
theorem alone_of_reaches (F : Follows step writer reader Inv) {init : ι → σ} (h₀ : ∀ i, Inv i (init i) (fun _ => []) (fun _ => []))
    (h : Reaches step init s) (i : ι) : AloneReaches (step i) (init i) (s.alone writer reader i) := by
  induction h with
  | refl =>
    have hstart : (Net.start init : Net ι χ μ σ).alone writer reader i = ⟨init i, fun _ => [], fun _ => []⟩ := by
      simp [Net.alone, Net.start, Net.taken]
    rw [hstart]
    exact .refl
  | tail hs hst ih =>
    rcases alone_step F (onTrack_of_reaches F h₀ hs) hst i with he | hstep
    · rw [he]
      exact ih
    · exact ih.tail hstep

/-! ## Expected streams -/

/-- Streams are expected to carry `Exp`. A live process that has read so far what is expected stays live
and has written so far what is expected. -/
structure Expects (step : ι → σ → Label χ μ → σ → Prop) (writer reader : χ → ι)
    (Inv : ι → σ → (χ → List μ) → (χ → List μ) → Prop) (Live : ι → σ → Prop) (Exp : χ → List μ) : Prop where
  live : ∀ {i p w r l p'}, Inv i p w r → Live i p → (∀ c, reader c = i → r c <+: Exp c) → step i p l p' → Live i p'
  out : ∀ {i p w r c l p'}, Inv i p' w r → Live i p' → (∀ c, reader c = i → r c <+: Exp c) → step i p (.send c l) p' →
    writer c = i → w c <+: Exp c

/-- All processes are live and all streams carry what is expected. -/
structure Expected (Live : ι → σ → Prop) (Exp : χ → List μ) (s : Net ι χ μ σ) : Prop where
  live : ∀ i, Live i (s.proc i)
  sent : ∀ c, s.sent c <+: Exp c

omit [DecidableEq ι] [DecidableEq χ] in
theorem Expected.taken {Live : ι → σ → Prop} {Exp : χ → List μ} (h : Expected Live Exp s) (c : χ) : s.taken c <+: Exp c :=
  (s.taken_initial c).trans (h.sent c)

theorem expected_step {Live : ι → σ → Prop} {Exp : χ → List μ} (F : Follows step writer reader Inv)
    (E : Expects step writer reader Inv Live Exp) (h : OnTrack Inv s) (he : Expected Live Exp s) (hst : Step step s t) :
    Expected Live Exp t := by
  have hlive : ∀ {i l p}, step i (s.proc i) l p → ∀ j, Live j (Function.update s.proc i p j) := by
    intro i l p hp j
    by_cases hj : j = i
    · subst hj; simpa using E.live (h.inv j) (he.live j) (fun c _ => he.taken c) hp
    · simpa [hj] using he.live j
  have ht := onTrack_step F h hst
  cases hst with
  | tau hp => exact ⟨hlive hp, he.sent⟩
  | @send i c l p hp =>
    refine ⟨hlive hp, fun c' => ?_⟩
    by_cases hc : c' = c
    · subst hc
      have hout := ht.inv i
      have hli := hlive hp i
      simp only [Function.update_self] at hout hli
      refine E.out (c := c') hout hli (fun c _ => ?_) hp (F.send (h.inv i) hp).1
      rw [taken_send h.le]
      exact he.taken c
    · simpa [hc] using he.sent c'
  | recv hp _ => exact ⟨hlive hp, he.sent⟩

theorem expected_of_reaches {Live : ι → σ → Prop} {Exp : χ → List μ} (F : Follows step writer reader Inv)
    (E : Expects step writer reader Inv Live Exp) {init : ι → σ} (h₀ : ∀ i, Inv i (init i) (fun _ => []) (fun _ => []))
    (hl : ∀ i, Live i (init i)) (h : Reaches step init s) : OnTrack Inv s ∧ Expected Live Exp s :=
  Reach.inv_of_step (I := fun s => OnTrack Inv s ∧ Expected Live Exp s)
    ⟨⟨h₀, fun _ => le_rfl⟩, ⟨hl, fun _ => List.nil_prefix⟩⟩
    (fun _ _ hs hst => ⟨onTrack_step F hs.1 hst, expected_step F E hs.1 hs.2 hst⟩) h

/-! ## Stuck networks -/

/-- When the network is stuck, whatever a process could do is to read what is not yet written. -/
theorem waits_of_stopped (hstop : Reach.Stopped (Step step) s) (hle : ∀ c, s.rcvd c ≤ (s.sent c).length) {i : ι}
    {l : Label χ μ} {p : σ} (hp : step i (s.proc i) l p) : ∃ c x, l = .recv c x ∧ ¬ s.taken c ++ x <+: s.sent c := by
  cases l with
  | tau => exact absurd (Step.tau hp) (hstop _)
  | send c x => exact absurd (Step.send hp) (hstop _)
  | recv c x =>
    refine ⟨c, x, rfl, fun hx => hstop _ (Step.recv hp ?_)⟩
    obtain ⟨t, ht⟩ := hx
    refine ⟨t, ?_⟩
    have hlen : (s.taken c).length = s.rcvd c := List.length_take_of_le (hle c)
    rw [← ht, List.append_assoc, List.drop_left' hlen]

end Steps

end Stream
