/-
The function a sender receives in the online phase. It goes to the queues of `run_xoring` as it came:
neither `check_if_to_abort2` nor any other test lies between `recv_func` and the pushes, so that a sender
hands over the functions of honest receivers only when they send no others (`handed_iff_valid`).
-/
import Mpsi.Run.Local

namespace Mpsi

open Thread Stream Relation

variable {κ : Type} {Not : ℕ}

/-- The function names positions of the strings, none of them opened. -/
def ValidFunc (C : SubGroup Not) (f : List ℤ) : Prop := ∀ k ∈ f, 0 ≤ k ∧ k < Not ∧ k ∉ ofNats C.elems

instance (C : SubGroup Not) (f : List ℤ) : Decidable (ValidFunc C f) := inferInstanceAs (Decidable (∀ k ∈ f, _))

namespace Party

/-- The array `func_sender` of an instance, once it is read. -/
def func_sender (a : ℕ) : Party κ Not → Option (List ℤ)
  | .online _ P _ => match P.ts (a, .sender) with
    | .ret f => some f
    | _ => none
  | .collect m _ => some (m.func_sender a)
  | .sending m _ => some (m.func_sender a)
  | .done m _ _ => some (m.func_sender a)
  | _ => none

/-- The sub-group the instance has opened. -/
def sub_group_sender (a : ℕ) : Party κ Not → Option (SubGroup Not)
  | .online b _ _ => some (b.sender a).sub_group
  | .collect m _ => some (m.sender a).sub_group
  | .sending m _ => some (m.sender a).sub_group
  | .done m _ _ => some (m.sender a).sub_group
  | _ => none

/-- The sender of the instance has pushed a segment. -/
def handed (a : ℕ) : Party κ Not → Prop
  | .online _ _ pipe => 2 ≤ pipe.pc (a, .sender)
  | .collect _ _ => True
  | .sending _ _ => True
  | .done _ _ _ => True
  | _ => False

theorem func_sender_of_ret {a : ℕ} {b : Filtered κ Not} {P : Pool (Wire κ) Empty Unit Fault (fun _ : Source => List ℤ)} {pipe : Pipe Source}
    {f : List ℤ} (h : P.ts (a, .sender) = .ret f) : (Party.online b P pipe).func_sender a = some f := by
  simp only [func_sender, h]

end Party

variable [DecidableEq κ] {e : Env κ} {i a : ℕ}

/-- A sender that has its function comes to its first push. -/
theorem exists_handed {s : Alone Sock (Atom κ) (Party κ e.Not)} {b : Filtered κ e.Not}
    {P : Pool (Wire κ) Empty Unit Fault (fun _ : Source => List ℤ)} {pipe : Pipe Source} (hs : s.proc = .online b P pipe)
    (ha : a < slots e.parties i) {f : List ℤ} (hf : P.ts (a, .sender) = .ret f) :
    ∃ t pipe', ReflTransGen (AloneStep (PStep e i)) s t ∧ t.proc = .online b P pipe' ∧ 2 ≤ pipe'.pc (a, .sender) := by
  have hpush : ∀ (s : Alone Sock (Atom κ) (Party κ e.Not)) (pipe : Pipe Source), s.proc = .online b P pipe → pipe.pc (a, .sender) = 1 →
      ∃ t pipe', ReflTransGen (AloneStep (PStep e i)) s t ∧ t.proc = .online b P pipe' ∧ 2 ≤ pipe'.pc (a, .sender) := by
    rintro ⟨p, w, r⟩ pipe rfl hpc
    exact ⟨_, _, .single (.tau (.pipe (.push (i := 0) hpc))), rfl, by simp⟩
  by_cases h0 : pipe.pc (a, .sender) = 0
  · have hsrc : (a, Role.sender) ∈ producers (slots e.parties i) := by simp [producers, ha]
    obtain ⟨p, w, r⟩ := s
    obtain rfl : p = _ := hs
    obtain ⟨t, pipe', ht, hp, hpc⟩ := hpush ⟨.online b P (pipe.begin (a, .sender)), w, r⟩ _ rfl (by simp [Pipe.begin])
    exact ⟨t, pipe', .head (.tau (.begin hsrc hf h0)) ht, hp, hpc⟩
  · by_cases h1 : pipe.pc (a, .sender) = 1
    · exact hpush s pipe hs h1
    · exact ⟨s, pipe, .refl, hs, by omega⟩

/-- From any state of the online phase in which a sender waits for the function of its receiver, and whatever
array it gets: that it hands the array to the queues only if it is valid holds exactly of the valid ones. -/
theorem handed_iff_valid {s : Alone Sock (Atom κ) (Party κ e.Not)} {b : Filtered κ e.Not}
    {P : Pool (Wire κ) Empty Unit Fault (fun _ : Source => List ℤ)} {pipe : Pipe Source} (hs : s.proc = .online b P pipe)
    (ha : a < slots e.parties i) (hw : P.ts (a, .sender) = onlineApportSender e.Nbf) {f : List ℤ} (hf : f.length = e.Nbf) :
    (∀ t : Alone Sock (Atom κ) (Party κ e.Not), ReflTransGen (AloneStep (PStep e i)) s t → t.proc.func_sender a = some f →
        t.proc.handed a → ValidFunc (b.sender a).sub_group f) ↔ ValidFunc (b.sender a).sub_group f := by
  refine ⟨fun h => ?_, fun h _ _ _ _ => h⟩
  -- the read, and then the push
  have hmove : Move (P.ts (a, .sender)) (.inp (ints f)) (.ret f) := hw ▸ .get (T := Wire κ) (t := Kind.int) ⟨f, hf⟩
  have hport : ((onlineStage e i b.BF b.receiver).port (a, .sender)).inp = some (senderSock e.parties i a).peer := if_pos ha
  have hret : (P.next (a, .sender) (.inp (ints f)) (.ret f) P.mem).ts (a, .sender) = .ret f := by simp [Pool.next]
  obtain ⟨p, w, r⟩ := s
  obtain rfl : p = _ := hs
  have hst : PStep e i (.online b P pipe) (.recv _ (ints f)) (.online b (P.next (a, .sender) (.inp (ints f)) (.ret f) P.mem) pipe) :=
    .online (.inp hmove hport)
  obtain ⟨t, pipe', ht, hp, hpc⟩ := exists_handed (s := ⟨.online b (P.next (a, .sender) (.inp (ints f)) (.ret f) P.mem) pipe, w,
    Function.update r _ (r _ ++ ints f)⟩) rfl ha hret
  refine h t (.head (.recv hst) ht) ?_ ?_
  · rw [hp]
    exact Party.func_sender_of_ret hret
  · rw [hp]
    exact hpc

/-! ## A receiver that names an opened position -/

/-- The party has begun the online phase. -/
def Party.Past : Party κ Not → Prop
  | .online _ _ _ => True
  | .collect _ _ => True
  | .sending _ _ => True
  | .done _ _ _ => True
  | _ => False

/-- It began it with all senders waiting. -/
theorem exists_online {s : State κ e.Not} (h : HonestReaches e s) (hp : (s.proc i).Past) : ∃ (s' : State κ e.Not) (b : Filtered κ e.Not),
    HonestReaches e s' ∧ s'.proc i = .online b (onlineStage e i b.BF b.receiver).start (Pipe.start b.GBF) := by
  induction h with
  | refl =>
    apply absurd hp
    change ¬ (Party.start e i).Past
    unfold Party.start
    split <;> exact id
  | @tail s t hs hst ih =>
    by_cases hpast : (s.proc i).Past
    · exact ih hpast
    -- the step is the one into the phase
    have hstep : ∀ {j p l}, PStep e j (s.proc j) l p → (t.proc = Function.update s.proc j p) →
        ∃ b : Filtered κ e.Not, t.proc i = .online b (onlineStage e i b.BF b.receiver).start (Pipe.start b.GBF) := by
      intro j p l hstp ht
      by_cases hij : i = j
      · subst hij
        rw [ht, Function.update_self] at hp ⊢
        generalize s.proc i = q at hstp hpast
        cases hstp with
        | bloomJoin _ => exact ⟨_, rfl⟩
        | online | begin | pipe | onlineJoin₀ | onlineJoin | collect | output | comulativeGbfPi => exact absurd trivial hpast
        | keys | keysJoin | agree | agreeJoin | offline | offlineJoin | bloom | fault => exact hp.elim
      · rw [ht, Function.update_of_ne hij] at hp
        exact absurd hp hpast
    have hreach : HonestReaches e t := .tail hs hst
    cases hst with
    | tau hp' =>
      obtain ⟨b, hb⟩ := hstep hp' rfl
      exact ⟨_, b, hreach, hb⟩
    | send hp' =>
      obtain ⟨b, hb⟩ := hstep hp' rfl
      exact ⟨_, b, hreach, hb⟩
    | recv hp' hl =>
      obtain ⟨b, hb⟩ := hstep hp' rfl
      exact ⟨_, b, hreach, hb⟩

/-- Two parties without items; P1 opens position 0. -/
abbrev openEnv : Env Block := uniform 2 (fun _ => []) fun _ _ => 0

/-- P1 when it begins the online phase. -/
theorem exists_openEnv_online : ∃ (s : Alone Sock (Atom Block) (Party Block openEnv.Not)) (b : Filtered Block openEnv.Not),
    PartyReaches openEnv 1 s ∧ s.proc = .online b (onlineStage openEnv 1 b.BF b.receiver).start (Pipe.start b.GBF) ∧
      (b.sender 0).sub_group.elems = [0] := by
  obtain ⟨s, hs, hc⟩ := uniform_complete 2 (fun _ => []) fun _ _ => 0
  obtain ⟨m, G, out, hdone⟩ := hc 1 Nat.one_lt_two
  obtain ⟨s', b, hs', hb⟩ := exists_online (i := 1) hs (by rw [hdone]; exact trivial)
  have hinv := (partyInv_of_reaches hs').inv 1
  rw [hb] at hinv
  have hsub := (hinv.2.1.sender 0 Nat.one_pos).sub_group
  rw [show getSubGroup openEnv.aes openEnv.Not openEnv.Nc (openEnv.seed_sub_group 1 0) = .ok uniformReceiver.sub_group from
    uniform_sub_group] at hsub
  exact ⟨_, b, alone_of_reaches partyInv_follows (fun _ => partyInv_start) hs' 1, hb, by rw [← Except.ok.inj hsub]; rfl⟩

/-- A receiver's function that names the opened position is handed over. -/
theorem handed_opened : ¬ ∀ (e : Env Block) (i a : ℕ) (s : Alone Sock (Atom Block) (Party Block e.Not)) (C : SubGroup e.Not) (f : List ℤ),
    PartyReaches e i s → a < slots e.parties i → s.proc.sub_group_sender a = some C → s.proc.func_sender a = some f →
      s.proc.handed a → ValidFunc C f := by
  intro h
  obtain ⟨⟨p, w, r⟩, b, hs, hp, hC⟩ := exists_openEnv_online
  obtain rfl : p = _ := hp
  have hmove : Move ((onlineStage openEnv 1 b.BF b.receiver).start.ts (0, .sender)) (.inp (ints [(0 : ℤ)])) (.ret [0]) :=
    .get (T := Wire Block) (t := Kind.int) ⟨[(0 : ℤ)], rfl⟩
  let P' := (onlineStage openEnv 1 b.BF b.receiver).start.next (0, .sender) (.inp (ints [(0 : ℤ)])) (.ret [0]) ()
  have hret : P'.ts (0, .sender) = .ret [0] := by simp [P', Pool.next]
  have hstep : PStep openEnv 1 (.online b _ (Pipe.start b.GBF)) (.recv _ _) (.online b P' (Pipe.start b.GBF)) := .online (.inp hmove rfl)
  have hst := AloneStep.recv (s := ⟨_, w, r⟩) hstep
  obtain ⟨t, pipe', ht, htp, hpc⟩ := exists_handed (e := openEnv) (i := 1) (s := ⟨.online b P' (Pipe.start b.GBF), w, _⟩) rfl Nat.one_pos hret
  have hv := h openEnv 1 0 t (b.sender 0).sub_group [0] ((hs.tail hst).trans ht) Nat.one_pos (by rw [htp]; rfl)
    (by rw [htp]; exact Party.func_sender_of_ret hret) (by rw [htp]; exact hpc) 0 (List.mem_singleton_self 0)
  rw [hC] at hv
  exact hv.2.2 (by decide)

/-- P1 of these parties, with position 0 opened: an array that names position 1 is valid, one that names position 0 is
handed over all the same. -/
theorem handed_iff_valid_open : ∃ (s : Alone Sock (Atom Block) (Party Block openEnv.Not)) (b : Filtered Block openEnv.Not),
    PartyReaches openEnv 1 s ∧ s.proc = .online b (onlineStage openEnv 1 b.BF b.receiver).start (Pipe.start b.GBF) ∧
      (b.sender 0).sub_group.elems = [0] ∧
      (∀ t : Alone Sock (Atom Block) (Party Block openEnv.Not), ReflTransGen (AloneStep (PStep openEnv 1)) s t →
        t.proc.func_sender 0 = some [1] → t.proc.handed 0 → ValidFunc (b.sender 0).sub_group [1]) ∧
      ¬ ∀ t : Alone Sock (Atom Block) (Party Block openEnv.Not), ReflTransGen (AloneStep (PStep openEnv 1)) s t →
        t.proc.func_sender 0 = some [0] → t.proc.handed 0 → ValidFunc (b.sender 0).sub_group [0] := by
  obtain ⟨s, b, hs, hp, hC⟩ := exists_openEnv_online
  refine ⟨s, b, hs, hp, hC, (handed_iff_valid hp Nat.one_pos rfl rfl).2 ?_, fun h => ?_⟩
  · intro k hk
    obtain rfl := List.mem_singleton.1 hk
    rw [hC]
    exact ⟨by decide, by change (1 : ℤ) < 5; decide, by decide⟩
  · have hv := (handed_iff_valid hp Nat.one_pos rfl rfl).1 h 0 (List.mem_singleton_self 0)
    rw [hC] at hv
    exact hv.2.2 (by decide)

end Mpsi
