/-
Programs that differ in their actions on the memory only: the first acts with `d` where the second acts
with a `d'` that is related to it. What the first does the second does, with related actions (`Sim.follow`),
and the first never ends the run by itself (`Sim.not_fail`).

For a stage by itself, runs among peers that send anything have the invariant of the stage
(`inv_of_alone_stage`); threads that read what a script has for them can be run to its end (`exists_run_within`), and
so can a single thread that only reads and acts (`exists_ran_thread`).
-/
import Mpsi.Lib.Pool

namespace Thread

open Stream Relation

variable {K : Type} {T : K → Type} {δ δ' σ σ' ε α β : Type}

/-- The programs are the same but for their actions. -/
inductive Sim (R : δ → δ' → Prop) : Prog T δ σ ε α → Prog T δ' σ' ε α → Prop
  | ret {a : α} : Sim R (.ret a) (.ret a)
  | put {t : K} {l : List (T t)} {k k'} : Sim R k k' → Sim R (.put t l k) (.put t l k')
  | get {t : K} {n : ℕ} {k k'} : (∀ x, Sim R (k x) (k' x)) → Sim R (.get t n k) (.get t n k')
  | op {d d' k k'} : R d d' → Sim R k k' → Sim R (.op d k) (.op d' k')

/-- The events of such programs. -/
inductive Event.Sim (R : δ → δ' → Prop) : Event T δ σ → Event T δ' σ' → Prop
  | out {l : List (Msg T)} : Event.Sim R (.out l) (.out l)
  | inp {l : List (Msg T)} : Event.Sim R (.inp l) (.inp l)
  | op {d : δ} {d' : δ'} : R d d' → Event.Sim R (.op d) (.op d')

section Events

variable {R : δ → δ' → Prop} {es : List (Event T δ σ)} {es' : List (Event T δ' σ')}

theorem sim_ins (h : List.Forall₂ (Event.Sim R) es es') : ins es' = ins es := by
  induction h with
  | nil => rfl
  | cons he _ ih => cases he <;> simp [ih]

theorem sim_ops (h : List.Forall₂ (Event.Sim R) es es') : List.Forall₂ R (ops es) (ops es') := by
  induction h with
  | nil => exact .nil
  | cons he _ ih => cases he with
    | out => exact ih
    | inp => exact ih
    | op hd => exact .cons hd ih

theorem sim_out_mem (h : List.Forall₂ (Event.Sim R) es es') {l : List (Msg T)} : .out l ∈ es' ↔ .out l ∈ es := by
  induction h with
  | nil => simp
  | cons he _ ih => cases he <;> simp [ih]

theorem sim_no_load (h : List.Forall₂ (Event.Sim R) es es') {m : σ'} : .load m ∉ es' := by
  induction h with
  | nil => simp
  | cons he _ ih => cases he <;> simp [ih]

end Events

section Sim

variable {R : δ → δ' → Prop} {p : Prog T δ σ ε α} {p' : Prog T δ' σ' ε α}

theorem Sim.bind (h : Sim R p p') {f : α → Prog T δ σ ε β} {f' : α → Prog T δ' σ' ε β} (hf : ∀ a, Sim R (f a) (f' a)) :
    Sim R (p >>= f) (p' >>= f') := by
  induction h with
  | ret => exact hf _
  | put _ ih => exact .put ih
  | get _ ih => exact .get ih
  | op hd _ ih => exact .op hd ih

theorem Sim.act {d : δ} {d' : δ'} (h : R d d') : Sim R (Prog.act d : Prog T δ σ ε _) (Prog.act d' : Prog T δ' σ' ε _) := .op h .ret

theorem Sim.forEach {γ : Type} {l : List γ} {f : γ → Prog T δ σ ε Unit} {f' : γ → Prog T δ' σ' ε Unit}
    (hf : ∀ a ∈ l, Sim R (f a) (f' a)) : Sim R (Prog.forEach l f) (Prog.forEach l f') := by
  induction l with
  | nil => exact .ret
  | cons a l ih => exact (hf a (List.mem_cons_self ..)).bind fun _ => ih fun b hb => hf b (List.mem_cons_of_mem _ hb)

theorem Sim.not_fail {f : ε} (h : Sim R (.fail f : Prog T δ σ ε α) p') : False := by cases h

/-- The next action has its counterpart. -/
theorem Sim.move_op (h : Sim R p p') {d : δ} {q : Prog T δ σ ε α} (hm : Move p (.op d) q) : ∃ d', R d d' := by
  cases hm with
  | op => cases h with
    | op hd _ => exact ⟨_, hd⟩

theorem Sim.follow (h : Sim R p p') {es : List (Event T δ σ)} {q : Prog T δ σ ε α} (hf : Follow p es q) :
    ∃ (es' : List (Event T δ' σ')) (q' : _), Follow p' es' q' ∧ Sim R q q' ∧ List.Forall₂ (Event.Sim R) es es' := by
  induction hf generalizing p' with
  | nil => exact ⟨[], p', .nil, h, .nil⟩
  | cons hm _ ih =>
    cases hm with
    | put => cases h with
      | put hk =>
        obtain ⟨es', q', hf', hs, he⟩ := ih hk
        exact ⟨_, q', .cons .put hf', hs, .cons .out he⟩
    | get x => cases h with
      | get hk =>
        obtain ⟨es', q', hf', hs, he⟩ := ih (hk x)
        exact ⟨_, q', .cons (.get x) hf', hs, .cons .inp he⟩
    | load => cases h
    | op => cases h with
      | op hd hk =>
        obtain ⟨es', q', hf', hs, he⟩ := ih hk
        exact ⟨_, q', .cons .op hf', hs, .cons (.op hd) he⟩

/-- A program that returns has a counterpart that returns the same. -/
theorem Sim.ends (h : Sim R p p') {es : List (Event T δ σ)} {v : α} (hf : Ends p es v) :
    ∃ es' : List (Event T δ' σ'), Ends p' es' v ∧ List.Forall₂ (Event.Sim R) es es' := by
  obtain ⟨es', q', hf', hs, he⟩ := h.follow hf
  cases hs
  exact ⟨es', hf', he⟩

theorem Sim.symm (h : Sim R p p') : Sim (fun d' d => R d d') p' p := by
  induction h with
  | ret => exact .ret
  | put _ ih => exact .put ih
  | get _ ih => exact .get ih
  | op hd _ ih => exact .op hd ih

end Sim

/-! ## Runs of a stage by itself -/

section Alone

variable {χ ι : Type} {α : ι → Type} [DecidableEq ι] [DecidableEq χ] {S : Stage T δ σ ε χ α} {s : Alone χ (Msg T) (Pool T δ σ ε α)}

theorem inv_alone_step {mineW mineR : χ → Prop} {bW bR : χ → List (Msg T)} {t : Alone χ (Msg T) (Pool T δ σ ε α)}
    (hp : S.Ported mineW mineR) (h : S.Inv mineW mineR bW bR s.proc s.wrote s.read) (hst : AloneStep S.Step s t) :
    S.Inv mineW mineR bW bR t.proc t.wrote t.read := by
  cases hst with
  | tau hst => exact inv_tau h hst
  | send hst => exact (inv_send h hp hst).2
  | recv hst => exact (inv_recv h hp hst).2

/-- The invariant of a stage in every order of its threads, whatever they read. -/
theorem inv_of_alone_stage {mineW mineR : χ → Prop} (hp : S.Ported mineW mineR) (h : AloneReaches S.Step S.start s) :
    S.Inv mineW mineR (fun _ => []) (fun _ => []) s.proc s.wrote s.read :=
  Reach.inv_of_step (I := fun s : Alone χ (Msg T) (Pool T δ σ ε α) =>
    S.Inv mineW mineR (fun _ => []) (fun _ => []) s.proc s.wrote s.read)
    (inv_start hp (fun _ _ => rfl) fun _ _ => rfl) (fun _ _ hs hst => inv_alone_step hp hs hst) h

/-- Steps of a process are steps of one that wraps it. -/
theorem alone_map {μ σ σ' : Type} {step : σ → Label χ μ → σ → Prop} {step' : σ' → Label χ μ → σ' → Prop} (f : σ → σ')
    (hf : ∀ p l p', step p l p' → step' (f p) l (f p')) {s t : Alone χ μ σ} (h : ReflTransGen (AloneStep step) s t) :
    ReflTransGen (AloneStep step') ⟨f s.proc, s.wrote, s.read⟩ ⟨f t.proc, t.wrote, t.read⟩ := by
  refine h.lift (fun s : Alone χ μ σ => (⟨f s.proc, s.wrote, s.read⟩ : Alone χ μ σ')) fun a b hst => ?_
  cases hst with
  | tau hst => exact .tau (hf _ _ _ hst)
  | send hst => exact .send (hf _ _ _ hst)
  | recv hst => exact .recv (hf _ _ _ hst)

/-- A step after which no more was read than `R'`. -/
def ReadStep (S : Stage T δ σ ε χ α) (mineR : χ → Prop) (R' : χ → List (Msg T)) (s t : Alone χ (Msg T) (Pool T δ σ ε α)) : Prop :=
  AloneStep S.Step s t ∧ ∀ c, mineR c → t.read c <+: R' c

/-- Threads with a script that have read what it has for them, so far, can go on to its end, and read no more
than it has for them. -/
theorem Stage.Script.exists_run_within {mineW mineR : χ → Prop} {bW bR W' R' : χ → List (Msg T)} {sc : ι → List (Event T δ σ)}
    {v : ∀ a, α a} (K : S.Script bW bR W' R' sc v) (hp : S.Ported mineW mineR) {A : Finset ι} (hA : ∀ a, a ∉ A → sc a = [])
    (h : S.Inv mineW mineR bW bR s.proc s.wrote s.read) (hR : ∀ c, mineR c → s.read c <+: R' c) :
    ∃ t, ReflTransGen (AloneStep S.Step) s t ∧ S.Inv mineW mineR bW bR t.proc t.wrote t.read ∧ t.proc.Joined v ∧
      (∀ a, t.proc.hist a = sc a) ∧ ∀ c, mineR c → t.read c <+: R' c := by
  have hpre : ∀ t : Alone χ (Msg T) (Pool T δ σ ε α), S.Inv mineW mineR bW bR t.proc t.wrote t.read →
      (∀ c, mineR c → t.read c <+: R' c) → ∀ a, t.proc.hist a <+: sc a := fun t ht hR a =>
    K.on_script ht hp (fun c hc => ⟨[], by rw [List.append_nil]; exact hR c hc⟩) a
  -- steps that read on the expected streams end, since each takes an event off the script
  obtain ⟨t, hst, ⟨ht, hRt⟩, hstop⟩ := Reach.exists_stopped
    (I := fun u => S.Inv mineW mineR bW bR u.proc u.wrote u.read ∧ ∀ c, mineR c → u.read c <+: R' c)
    (fun u w hu (huw : ReadStep S mineR R' u w) => ⟨inv_alone_step hp hu.1 huw.1, huw.2⟩) (fun u => u.proc.left A sc) (fun u w hu huw => by
      have hw := hpre w (inv_alone_step hp hu.1 huw.1) huw.2
      cases huw.1 with
      | tau hst => exact left_step hst hw hA
      | send hst => exact left_step hst hw hA
      | recv hst => exact left_step hst hw hA) s ⟨h, hR⟩
  have hall : ∀ a, t.proc.hist a = sc a := by
    intro a
    by_contra hne
    -- a thread with an event left could go on
    rcases K.next ht (hpre t ht hRt a) hne with ⟨P', hP⟩ | ⟨c, l, P', hP⟩ | ⟨c, l, rest, P', hc, hsc, hP⟩
    · exact hstop _ ⟨.tau hP, hRt⟩
    · exact hstop _ ⟨.send hP, hRt⟩
    · exact hstop _ ⟨.recv hP, K.read_next ht hRt hc hsc⟩
  refine ⟨t, hst.lift id fun _ _ h => h.1, ht, fun a => ?_, hall, hRt⟩
  have hf := ht.follow a
  rw [hall a] at hf
  exact script_end (K.ends a) hf

theorem Stage.Script.exists_run {mineW mineR : χ → Prop} {bW bR W' R' : χ → List (Msg T)} {sc : ι → List (Event T δ σ)}
    {v : ∀ a, α a} (K : S.Script bW bR W' R' sc v) (hp : S.Ported mineW mineR) {A : Finset ι} (hA : ∀ a, a ∉ A → sc a = [])
    (h : S.Inv mineW mineR bW bR s.proc s.wrote s.read) (hR : ∀ c, mineR c → s.read c <+: R' c) :
    ∃ t, ReflTransGen (AloneStep S.Step) s t ∧ S.Inv mineW mineR bW bR t.proc t.wrote t.read ∧ t.proc.Joined v ∧
      ∀ a, t.proc.hist a = sc a := by
  obtain ⟨t, hst, ht, hj, hall, _⟩ := K.exists_run_within hp hA h hR
  exact ⟨t, hst, ht, hj, hall⟩

/-- A thread that only reads and acts can be run to its end: its actions succeed on memories with `Q` and
keep it. -/
theorem exists_ran_thread {Q : σ → Prop} {a : ι} {c : χ} (hc : (S.port a).inp = some c) :
    ∀ {es : List (Event T δ σ)} {s : Alone χ (Msg T) (Pool T δ σ ε α)} {v : α a}, Ends (s.proc.ts a) es v → Q s.proc.mem →
      (∀ l, .out l ∉ es) → (∀ m, .load m ∉ es) → (∀ d ∈ ops es, ∀ m, Q m → ∃ m', S.exec d m = .ok m' ∧ Q m') →
      ∃ t : Alone χ (Msg T) (Pool T δ σ ε α), ReflTransGen (AloneStep S.Step) s t ∧ Q t.proc.mem ∧ t.proc.ts a = .ret v ∧
        (∀ b, b ≠ a → t.proc.ts b = s.proc.ts b) ∧ t.read = Function.update s.read c (s.read c ++ ins es)
  | [], s, v, he, hQ, _, _, _ => by
    refine ⟨s, .refl, hQ, (follow_nil.1 he).symm, fun _ _ => rfl, ?_⟩
    rw [ins_nil, List.append_nil, Function.update_eq_self]
  | ev :: es, s, v, he, hQ, hout, hload, hexec => by
    have hout' : ∀ l, .out l ∉ es := fun l h => hout l (List.mem_cons_of_mem _ h)
    have hload' : ∀ m, .load m ∉ es := fun m h => hload m (List.mem_cons_of_mem _ h)
    -- one event, then the others by the induction
    have hnext : ∀ {q : Prog T δ σ ε (α a)} {m : σ} {r : χ → List (Msg T)}, AloneStep S.Step s ⟨s.proc.next a ev q m, s.wrote, r⟩ →
        Ends q es v → Q m → (∀ d ∈ ops es, ∀ m, Q m → ∃ m', S.exec d m = .ok m' ∧ Q m') → r = Function.update s.read c (s.read c ++ ev.ins) →
        ∃ t : Alone χ (Msg T) (Pool T δ σ ε α), ReflTransGen (AloneStep S.Step) s t ∧ Q t.proc.mem ∧ t.proc.ts a = .ret v ∧
          (∀ b, b ≠ a → t.proc.ts b = s.proc.ts b) ∧ t.read = Function.update s.read c (s.read c ++ ins (ev :: es)) := by
      intro q m r hst hq hm hex hr
      obtain ⟨t, ht, hQt, hret, hoth, hread⟩ := exists_ran_thread hc (s := ⟨s.proc.next a ev q m, s.wrote, r⟩) (v := v)
        (by simpa [Pool.next] using hq) hm hout' hload' hex
      refine ⟨t, .head hst ht, hQt, hret, fun b hb => ?_, ?_⟩
      · rw [hoth b hb]
        simp [Pool.next, hb]
      · rw [hread, hr]
        simp
    rcases he with _ | ⟨hm, hq⟩
    cases ev with
    | out l => exact absurd (List.mem_cons_self ..) (hout l)
    | load m => exact absurd (List.mem_cons_self ..) (hload m)
    | inp l => exact hnext (.recv (.inp hm hc)) hq hQ hexec rfl
    | op d =>
      obtain ⟨m', hx, hQ'⟩ := hexec d (by simp) s.proc.mem hQ
      exact hnext (.tau (.op hm hx)) hq hQ' (fun d' hd' => hexec d' (by simp [hd'])) (by simp)

end Alone

end Thread
