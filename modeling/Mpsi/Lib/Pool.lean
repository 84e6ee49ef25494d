/-
Stages of a process: a family of threads with a shared memory, each thread writing to and reading
from at most one stream. Every thread keeps the list of its events.

`Stage.Inv` says that the threads have followed their programs, that the memory comes from the
threads' actions in some order, and that each stream has grown by what its thread has written or
read. Every step keeps it (`inv_tau`, `inv_send`, `inv_recv`). A `Script` foretells the events of the
threads: those that read what it has for them follow it to its end.
-/
import Mpsi.Lib.Stream
import Mpsi.Lib.Thread

namespace Thread

open Stream

variable {K : Type} {T : K → Type} {δ σ ε χ ι : Type} {α : ι → Type}

/-! ## Streams and their owners -/

section Grown

variable {μ : Type} {mine : χ → Prop} {own : ι → Option χ} {add : ι → List μ} {base W : χ → List μ}

/-- From `base` to `W` each stream has grown by what its owner has added, and the others of `mine` not
at all. -/
structure Grown (mine : χ → Prop) (own : ι → Option χ) (add : ι → List μ) (base W : χ → List μ) : Prop where
  owned : ∀ {a c}, own a = some c → W c = base c ++ add a
  rest : ∀ {c}, mine c → (∀ a, own a ≠ some c) → W c = base c

theorem Grown.congr {add' : ι → List μ} (h : Grown mine own add base W) (he : ∀ a, add' a = add a) :
    Grown mine own add' base W := by
  rwa [funext he]

theorem Grown.frame {W' : χ → List μ} (h : Grown mine own add base W) (hown : ∀ a c, own a = some c → mine c)
    (hW : ∀ c, mine c → W' c = W c) : Grown mine own add base W' :=
  ⟨fun ho => by rw [hW _ (hown _ _ ho), h.owned ho], fun hm hn => by rw [hW _ hm, h.rest hm hn]⟩

theorem grown_start (hown : ∀ a c, own a = some c → mine c) (hW : ∀ c, mine c → W c = base c) :
    Grown mine own (fun _ => []) base W :=
  ⟨fun ho => by rw [hW _ (hown _ _ ho), List.append_nil], fun hm _ => hW _ hm⟩

theorem Grown.step [DecidableEq ι] [DecidableEq χ] (h : Grown mine own add base W)
    (hinj : ∀ a b c, own a = some c → own b = some c → a = b) {a : ι} {c : χ} {l : List μ} (ho : own a = some c) :
    Grown mine own (Function.update add a (add a ++ l)) base (Function.update W c (W c ++ l)) := by
  refine ⟨fun {b c'} hb => ?_, fun {c'} hm hn => ?_⟩
  · by_cases hba : b = a
    · subst hba
      cases Option.some_injective _ (ho.symm.trans hb)
      simp [h.owned ho]
    · have hc : c' ≠ c := by rintro rfl; exact hba (hinj b a c' hb ho)
      simp [hba, hc, h.owned hb]
  · have hc : c' ≠ c := by rintro rfl; exact hn a ho
    simp [hc, h.rest hm hn]

end Grown

/-! ## Stages -/

/-- The streams of a thread. -/
structure Port (χ : Type) where
  out : Option χ
  inp : Option χ

/-- Threads with their shared memory, and what each of them has done. -/
structure Pool (T : K → Type) (δ σ ε : Type) (α : ι → Type) where
  ts : ∀ a, Prog T δ σ ε (α a)
  hist : ι → List (Event T δ σ)
  mem : σ

/-- The programs of a stage with the streams they use, what their actions do to the memory, and the
memory they find. -/
structure Stage (T : K → Type) (δ σ ε χ : Type) (α : ι → Type) where
  prog : ∀ a, Prog T δ σ ε (α a)
  port : ι → Port χ
  exec : δ → σ → Except ε σ
  init : σ

def Stage.start (S : Stage T δ σ ε χ α) : Pool T δ σ ε α := ⟨S.prog, fun _ => [], S.init⟩

/-- Thread `a` has moved on to `q`. -/
def Pool.next [DecidableEq ι] (P : Pool T δ σ ε α) (a : ι) (e : Event T δ σ) (q : Prog T δ σ ε (α a)) (m : σ) :
    Pool T δ σ ε α :=
  ⟨Function.update P.ts a q, Function.update P.hist a (P.hist a ++ [e]), m⟩

/-- One thread of the stage takes a step. -/
inductive Stage.Step [DecidableEq ι] (S : Stage T δ σ ε χ α) : Pool T δ σ ε α → Label χ (Msg T) → Pool T δ σ ε α → Prop
  | out {P : Pool T δ σ ε α} {a : ι} {l q c} : Move (P.ts a) (.out l) q → (S.port a).out = some c →
      Step S P (.send c l) (P.next a (.out l) q P.mem)
  | inp {P : Pool T δ σ ε α} {a : ι} {l q c} : Move (P.ts a) (.inp l) q → (S.port a).inp = some c →
      Step S P (.recv c l) (P.next a (.inp l) q P.mem)
  | load {P : Pool T δ σ ε α} {a : ι} {q} : Move (P.ts a) (.load P.mem) q →
      Step S P .tau (P.next a (.load P.mem) q P.mem)
  | op {P : Pool T δ σ ε α} {a : ι} {d q m} : Move (P.ts a) (.op d) q → S.exec d P.mem = .ok m →
      Step S P .tau (P.next a (.op d) q m)

/-- A thread ends the run. -/
def Stage.Faults (S : Stage T δ σ ε χ α) (P : Pool T δ σ ε α) (f : ε) : Prop :=
  ∃ a, P.ts a = .fail f ∨ ∃ d q, Move (P.ts a) (.op d) q ∧ S.exec d P.mem = .error f

/-- All threads have returned. -/
def Pool.Joined (P : Pool T δ σ ε α) (v : ∀ a, α a) : Prop := ∀ a, P.ts a = .ret (v a)

/-- The memories the threads' actions lead to, in any order of them. -/
inductive Stage.Ran [DecidableEq ι] (S : Stage T δ σ ε χ α) : (ι → List δ) → σ → Prop
  | start : Ran S (fun _ => []) S.init
  | step {o m a d m'} : Ran S o m → S.exec d m = .ok m' → Ran S (Function.update o a (o a ++ [d])) m'

/-- Different threads use different streams, those of the process. -/
structure Stage.Ported (S : Stage T δ σ ε χ α) (mineW mineR : χ → Prop) : Prop where
  out : ∀ {a c}, (S.port a).out = some c → mineW c
  inp : ∀ {a c}, (S.port a).inp = some c → mineR c
  out_inj : ∀ {a b c}, (S.port a).out = some c → (S.port b).out = some c → a = b
  inp_inj : ∀ {a b c}, (S.port a).inp = some c → (S.port b).inp = some c → a = b

section Inv

variable [DecidableEq ι] {S : Stage T δ σ ε χ α} {mineW mineR : χ → Prop}
  {bW bR W R W' R' : χ → List (Msg T)} {P P' : Pool T δ σ ε α}

/-- The invariant of a stage that began when `bW` was written and `bR` read. -/
structure Stage.Inv (S : Stage T δ σ ε χ α) (mineW mineR : χ → Prop)
    (bW bR : χ → List (Msg T)) (P : Pool T δ σ ε α) (W R : χ → List (Msg T)) : Prop where
  follow : ∀ a, Follow (S.prog a) (P.hist a) (P.ts a)
  mem : S.Ran (fun a => ops (P.hist a)) P.mem
  loads : ∀ a m, .load m ∈ P.hist a → ∃ o, S.Ran o m
  wrote : Grown mineW (fun a => (S.port a).out) (fun a => outs (P.hist a)) bW W
  read : Grown mineR (fun a => (S.port a).inp) (fun a => ins (P.hist a)) bR R

theorem inv_start (hp : S.Ported mineW mineR) (hW : ∀ c, mineW c → W c = bW c)
    (hR : ∀ c, mineR c → R c = bR c) : S.Inv mineW mineR bW bR S.start W R :=
  ⟨fun _ => .nil, .start, fun _ _ h => (List.not_mem_nil h).elim, grown_start (fun _ _ => hp.out) hW,
    grown_start (fun _ _ => hp.inp) hR⟩

theorem Stage.Inv.frame (h : S.Inv mineW mineR bW bR P W R) (hp : S.Ported mineW mineR)
    (hW : ∀ c, mineW c → W' c = W c) (hR : ∀ c, mineR c → R' c = R c) : S.Inv mineW mineR bW bR P W' R' :=
  ⟨h.follow, h.mem, h.loads, h.wrote.frame (fun _ _ => hp.out) hW, h.read.frame (fun _ _ => hp.inp) hR⟩

/-- A function of the history after one more event. -/
theorem hist_next {β : Type} (f : List (Event T δ σ) → List β) (g : Event T δ σ → List β)
    (hf : ∀ es e, f (es ++ [e]) = f es ++ g e) (hist : ι → List (Event T δ σ)) (a : ι) (e : Event T δ σ) (b : ι) :
    f (Function.update hist a (hist a ++ [e]) b) = Function.update (fun b => f (hist b)) a (f (hist a) ++ g e) b := by
  by_cases hb : b = a
  · subst hb; simp [hf]
  · simp [hb]

theorem outs_next (hist : ι → List (Event T δ σ)) (a : ι) (e : Event T δ σ) (b : ι) :
    outs (Function.update hist a (hist a ++ [e]) b) =
      Function.update (fun b => outs (hist b)) a (outs (hist a) ++ e.outs) b :=
  hist_next outs Event.outs (by simp) hist a e b

theorem ins_next (hist : ι → List (Event T δ σ)) (a : ι) (e : Event T δ σ) (b : ι) :
    ins (Function.update hist a (hist a ++ [e]) b) =
      Function.update (fun b => ins (hist b)) a (ins (hist a) ++ e.ins) b :=
  hist_next ins Event.ins (by simp) hist a e b

theorem ops_next (hist : ι → List (Event T δ σ)) (a : ι) (e : Event T δ σ) (b : ι) :
    ops (Function.update hist a (hist a ++ [e]) b) =
      Function.update (fun b => ops (hist b)) a (ops (hist a) ++ e.ops) b :=
  hist_next ops Event.ops (by simp) hist a e b

/-- What a move changes of the threads. -/
theorem Stage.Inv.threads (h : S.Inv mineW mineR bW bR P W R) {a : ι} {e : Event T δ σ} {q : Prog T δ σ ε (α a)}
    (hm : Move (P.ts a) e q) (m : σ) (b : ι) :
    Follow (S.prog b) ((P.next a e q m).hist b) ((P.next a e q m).ts b) := by
  by_cases hb : b = a
  · subst hb; simpa [Pool.next] using (h.follow b).snoc hm
  · simpa [Pool.next, hb] using h.follow b

theorem Stage.Inv.loads_next (h : S.Inv mineW mineR bW bR P W R) {a : ι} {e : Event T δ σ}
    {q : Prog T δ σ ε (α a)} {m : σ} (he : ∀ m', e = .load m' → ∃ o, S.Ran o m') :
    ∀ b m', .load m' ∈ (P.next a e q m).hist b → ∃ o, S.Ran o m' := by
  intro b m' hm'
  by_cases hb : b = a
  · subst hb
    simp only [Pool.next, Function.update_self, List.mem_append, List.mem_singleton] at hm'
    rcases hm' with hm' | hm'
    · exact h.loads b m' hm'
    · exact he m' hm'.symm
  · simp only [Pool.next, Function.update_of_ne hb] at hm'
    exact h.loads b m' hm'

/-- The memory is untouched by a move that is no action on it. -/
theorem Stage.Inv.mem_next (h : S.Inv mineW mineR bW bR P W R) {a : ι} {e : Event T δ σ} {q : Prog T δ σ ε (α a)}
    (he : e.ops = []) : S.Ran (fun b => ops ((P.next a e q P.mem).hist b)) (P.next a e q P.mem).mem := by
  have hops : (fun b => ops ((P.next a e q P.mem).hist b)) = fun b => ops (P.hist b) := by
    funext b
    unfold Pool.next
    rw [ops_next, he, List.append_nil, Function.update_eq_self]
  rw [hops]
  exact h.mem

/-- No stream grows by a move that writes nothing. -/
theorem Stage.Inv.wrote_next (h : S.Inv mineW mineR bW bR P W R) {a : ι} {e : Event T δ σ}
    {q : Prog T δ σ ε (α a)} {m : σ} (he : e.outs = []) :
    Grown mineW (fun b => (S.port b).out) (fun b => outs ((P.next a e q m).hist b)) bW W :=
  h.wrote.congr fun b => by rw [Pool.next, outs_next, he, List.append_nil, Function.update_eq_self]

theorem Stage.Inv.read_next (h : S.Inv mineW mineR bW bR P W R) {a : ι} {e : Event T δ σ}
    {q : Prog T δ σ ε (α a)} {m : σ} (he : e.ins = []) :
    Grown mineR (fun b => (S.port b).inp) (fun b => ins ((P.next a e q m).hist b)) bR R :=
  h.read.congr fun b => by rw [Pool.next, ins_next, he, List.append_nil, Function.update_eq_self]

theorem inv_tau (h : S.Inv mineW mineR bW bR P W R) (hst : S.Step P .tau P') : S.Inv mineW mineR bW bR P' W R := by
  generalize hl : (Label.tau : Label χ (Msg T)) = lab at hst
  cases hst with
  | out => cases hl
  | inp => cases hl
  | @load a q hm =>
    refine ⟨h.threads hm P.mem, h.mem_next rfl, h.loads_next fun m' he => ?_, h.wrote_next rfl, h.read_next rfl⟩
    cases he; exact ⟨_, h.mem⟩
  | @op a d q m hm hx =>
    refine ⟨h.threads hm m, ?_, h.loads_next (fun m' he => by cases he), h.wrote_next rfl, h.read_next rfl⟩
    have hops : (fun b => ops ((P.next a (.op d) q m).hist b)) =
        Function.update (fun b => ops (P.hist b)) a (ops (P.hist a) ++ [d]) := funext fun b => ops_next _ _ _ _
    rw [hops]
    exact .step h.mem hx

/-! ## Joins -/

/-- A thread that has returned stays where it is. -/
theorem step_ret {lab : Label χ (Msg T)} (hst : S.Step P lab P') {a : ι} {v : α a} (hv : P.ts a = .ret v) : P'.ts a = .ret v := by
  have hnext : ∀ {b e} {q : Prog T δ σ ε (α b)} {m}, Move (P.ts b) e q → (P.next b e q m).ts a = .ret v := by
    intro b e q m hm
    have hne : a ≠ b := by
      rintro rfl
      rw [hv] at hm
      cases hm
    rw [← hv]
    exact Function.update_of_ne hne _ _
  cases hst with
  | out hm _ => exact hnext hm
  | inp hm _ => exact hnext hm
  | load hm => exact hnext hm
  | op hm _ => exact hnext hm

/-- When all threads have returned, each has gone through its whole program. -/
theorem Stage.Inv.ends (h : S.Inv mineW mineR bW bR P W R) {v : ∀ a, α a} (hj : P.Joined v) (a : ι) :
    Ends (S.prog a) (P.hist a) (v a) := by
  have := h.follow a
  rwa [hj a] at this

/-- The memory of a stage without actions. -/
theorem ran_init [IsEmpty δ] {o : ι → List δ} {m : σ} (h : S.Ran o m) : m = S.init := by
  cases h with
  | start => rfl
  | @step _ _ _ d => exact isEmptyElim d

/-! ## Messages -/

variable [DecidableEq χ]

theorem inv_send {c : χ} {l : List (Msg T)} (h : S.Inv mineW mineR bW bR P W R) (hp : S.Ported mineW mineR)
    (hst : S.Step P (.send c l) P') :
    mineW c ∧ S.Inv mineW mineR bW bR P' (Function.update W c (W c ++ l)) R := by
  generalize hl : (Label.send c l : Label χ (Msg T)) = lab at hst
  cases hst with
  | @out a l q c hm hc =>
    cases hl
    refine ⟨hp.out hc, h.threads hm P.mem, h.mem_next rfl, h.loads_next (fun m' he => by cases he), ?_, h.read_next rfl⟩
    exact (h.wrote.step (fun _ _ _ => hp.out_inj) hc).congr fun b => outs_next _ _ _ _
  | inp => cases hl
  | load => cases hl
  | op => cases hl

theorem inv_recv {c : χ} {l : List (Msg T)} (h : S.Inv mineW mineR bW bR P W R) (hp : S.Ported mineW mineR)
    (hst : S.Step P (.recv c l) P') :
    mineR c ∧ S.Inv mineW mineR bW bR P' W (Function.update R c (R c ++ l)) := by
  generalize hl : (Label.recv c l : Label χ (Msg T)) = lab at hst
  cases hst with
  | out => cases hl
  | @inp a l q c hm hc =>
    cases hl
    refine ⟨hp.inp hc, h.threads hm P.mem, h.mem_next rfl, h.loads_next (fun m' he => by cases he), h.wrote_next rfl, ?_⟩
    exact (h.read.step (fun _ _ _ => hp.inp_inj) hc).congr fun b => ins_next _ _ _ _
  | load => cases hl
  | op => cases hl

end Inv

/-! ## Scripts -/

section Script

variable [DecidableEq ι] {S : Stage T δ σ ε χ α} {mineW mineR : χ → Prop} {bW bR W R W' R' : χ → List (Msg T)}
  {P P' : Pool T δ σ ε α} {sc : ι → List (Event T δ σ)} {v : ∀ a, α a}

/-- The events `sc` lead every thread to its return, and the streams from `bW` and `bR` to `W'` and `R'`. -/
structure Stage.Script (S : Stage T δ σ ε χ α) (bW bR W' R' : χ → List (Msg T)) (sc : ι → List (Event T δ σ))
    (v : ∀ a, α a) : Prop where
  ends : ∀ a, Ends (S.prog a) (sc a) (v a)
  load : ∀ a m, .load m ∈ sc a → ∀ o m', S.Ran o m' → m' = m
  exec : ∀ d m, ∃ m', S.exec d m = .ok m'
  out : ∀ {a c}, (S.port a).out = some c → W' c = bW c ++ outs (sc a)
  inp : ∀ {a c}, (S.port a).inp = some c → R' c = bR c ++ ins (sc a)
  noOut : ∀ a, (S.port a).out = none → ∀ l, .out l ∉ sc a
  noInp : ∀ a, (S.port a).inp = none → ∀ l, .inp l ∉ sc a
  le : ∀ c, bW c <+: W' c

theorem ins_of_none {es : List (Event T δ σ)} (h : ∀ l, .inp l ∉ es) : ins es = [] := by
  apply List.flatMap_eq_nil_iff.2
  intro e he
  cases e with
  | inp l => exact absurd he (h l)
  | out | load | op => rfl

/-- Threads that read what the script has for them follow it. -/
theorem Stage.Script.on_script (K : S.Script bW bR W' R' sc v) (h : S.Inv mineW mineR bW bR P W R) (hp : S.Ported mineW mineR)
    (hR : ∀ c, mineR c → ∃ l, R c <+: R' c ++ l) (a : ι) : P.hist a <+: sc a := by
  refine follow_initial (h.follow a) (K.ends a) ?_ fun m m' hm hm' => ?_
  · cases hc : (S.port a).inp with
    | none => exact Or.inl (ins_of_none (K.noInp a hc))
    | some c =>
      obtain ⟨l, hpre⟩ := hR c (hp.inp hc)
      rw [h.read.owned hc, K.inp hc, List.append_assoc, List.prefix_append_right_inj] at hpre
      exact Or.inr ⟨l, hpre⟩
  · obtain ⟨o, ho⟩ := h.loads a m hm
    exact K.load a m' hm' o m ho

theorem outs_initial {es es' : List (Event T δ σ)} (h : es <+: es') : outs es <+: outs es' := by
  obtain ⟨t, rfl⟩ := h
  rw [outs_append]
  exact List.prefix_append _ _

/-- And write what it has for them. -/
theorem Stage.Script.wrote (K : S.Script bW bR W' R' sc v) (h : S.Inv mineW mineR bW bR P W R)
    (hpre : ∀ a, P.hist a <+: sc a) {c : χ} (hc : mineW c) : W c <+: W' c := by
  by_cases ho : ∃ a, (S.port a).out = some c
  · obtain ⟨a, ha⟩ := ho
    rw [h.wrote.owned ha, K.out ha, List.prefix_append_right_inj]
    exact outs_initial (hpre a)
  · rw [h.wrote.rest hc (not_exists.1 ho)]
    exact K.le c

/-- And have read no more. -/
theorem Stage.Script.taken (K : S.Script bW bR W' R' sc v) (h : S.Inv mineW mineR bW bR P W R)
    (hpre : ∀ a, P.hist a <+: sc a) (hle : ∀ c, bR c <+: R' c) {c : χ} (hc : mineR c) : R c <+: R' c := by
  by_cases ho : ∃ a, (S.port a).inp = some c
  · obtain ⟨a, ha⟩ := ho
    obtain ⟨t, ht⟩ := hpre a
    rw [h.read.owned ha, K.inp ha, List.prefix_append_right_inj, ← ht, ins_append]
    exact List.prefix_append _ _
  · rw [h.read.rest hc (not_exists.1 ho)]
    exact hle c

/-- They do not end the run. -/
theorem Stage.Script.no_fault (K : S.Script bW bR W' R' sc v) (h : S.Inv mineW mineR bW bR P W R)
    (hpre : ∀ a, P.hist a <+: sc a) (f : ε) : ¬ S.Faults P f := by
  rintro ⟨a, ha | ⟨d, q, _, hx⟩⟩
  · have hf := h.follow a
    rw [ha] at hf
    obtain ⟨t, ht⟩ := hpre a
    have he := K.ends a
    rw [← ht] at he
    obtain ⟨q, h1, h2⟩ := follow_append.1 he
    rw [follow_unique h1 hf] at h2
    exact absurd h2 ends_fail
  · obtain ⟨m, hm⟩ := K.exec d P.mem
    rw [hm] at hx
    cases hx

/-- A thread that has not come to the end of its script can go on, or waits for what it is to read. -/
theorem Stage.Script.next (K : S.Script bW bR W' R' sc v) (h : S.Inv mineW mineR bW bR P W R) {a : ι}
    (hpre : P.hist a <+: sc a) (hne : P.hist a ≠ sc a) : (∃ P', S.Step P .tau P') ∨ (∃ c l P', S.Step P (.send c l) P') ∨
      ∃ c l rest P', (S.port a).inp = some c ∧ sc a = P.hist a ++ .inp l :: rest ∧ S.Step P (.recv c l) P' := by
  obtain ⟨t, ht⟩ := hpre
  cases t with
  | nil => exact absurd (by simpa using ht) hne
  | cons ev t =>
    have he := K.ends a
    have hmem : ev ∈ sc a := by rw [← ht]; simp
    rw [← ht] at he
    obtain ⟨q, hq⟩ := script_move he (h.follow a)
    cases ev with
    | out l =>
      cases hc : (S.port a).out with
      | none => exact absurd hmem (K.noOut a hc l)
      | some c => exact Or.inr (Or.inl ⟨c, l, _, .out hq hc⟩)
    | inp l =>
      cases hc : (S.port a).inp with
      | none => exact absurd hmem (K.noInp a hc l)
      | some c => exact Or.inr (Or.inr ⟨c, l, t, _, rfl, ht.symm, .inp hq hc⟩)
    | load m =>
      obtain rfl := K.load a m hmem _ _ h.mem
      exact Or.inl ⟨_, .load hq⟩
    | op d =>
      obtain ⟨m, hm⟩ := K.exec d P.mem
      exact Or.inl ⟨_, .op hq hm⟩

/-- What a thread reads by its script leaves it, and the others, with what the script has for them. -/
theorem Stage.Script.read_next [DecidableEq χ] (K : S.Script bW bR W' R' sc v) (h : S.Inv mineW mineR bW bR P W R)
    (hR : ∀ c, mineR c → R c <+: R' c) {a : ι} {c : χ} {l : List (Msg T)} {rest : List (Event T δ σ)}
    (hc : (S.port a).inp = some c) (hsc : sc a = P.hist a ++ .inp l :: rest) :
    ∀ c', mineR c' → Function.update R c (R c ++ l) c' <+: R' c' := by
  intro c' hc'
  by_cases he : c' = c
  · subst he
    rw [Function.update_self, h.read.owned hc, K.inp hc, hsc, ins_append, ins_cons, List.append_assoc]
    exact (List.prefix_append_right_inj _).2 ((List.prefix_append_right_inj _).2 (List.prefix_append _ _))
  · rw [Function.update_of_ne he]
    exact hR c' hc'

/-- The stage can do nothing but read what is not yet available, where `A` is written on the streams. -/
def Stage.Waits (S : Stage T δ σ ε χ α) (P : Pool T δ σ ε α) (R A : χ → List (Msg T)) : Prop :=
  ∀ l P', S.Step P l P' → ∃ c x, l = .recv c x ∧ ¬ R c ++ x <+: A c

/-- A thread of such a stage has come as far in its script as it can read. -/
theorem Stage.Script.reached (K : S.Script bW bR W' R' sc v) (h : S.Inv mineW mineR bW bR P W R)
    {A : χ → List (Msg T)} (hw : S.Waits P R A) {a : ι} (hpre : P.hist a <+: sc a) {es : List (Event T δ σ)} (hes : es <+: sc a)
    (hA : ∀ c, (S.port a).inp = some c → bR c ++ ins es <+: A c) : es <+: P.hist a := by
  by_contra hno
  obtain ⟨t, rfl⟩ := (List.prefix_or_prefix_of_prefix hes hpre).resolve_left hno
  have hne : P.hist a ≠ sc a := by
    intro he
    exact hno (he ▸ hes)
  rcases K.next h hpre hne with ⟨P', hst⟩ | ⟨c, l, P', hst⟩ | ⟨c, l, rest, P', hc, hsc, hst⟩
  · obtain ⟨_, _, he, _⟩ := hw _ _ hst; cases he
  · obtain ⟨_, _, he, _⟩ := hw _ _ hst; cases he
  · obtain ⟨_, _, he, hx⟩ := hw _ _ hst
    cases he
    rw [hsc, List.prefix_append_right_inj] at hes
    cases t with
    | nil => exact hno (by simp)
    | cons ev t =>
      obtain ⟨rfl, _⟩ := List.cons_prefix_cons.1 hes
      have h1 := hA c hc
      rw [ins_append, ← List.append_assoc, ← h.read.owned hc] at h1
      exact hx (((List.prefix_append_right_inj _).2 (by simp [Event.ins])).trans h1)

/-- What a thread has written once it has come so far. -/
theorem Stage.Script.written (K : S.Script bW bR W' R' sc v) (h : S.Inv mineW mineR bW bR P W R) {a : ι} {c : χ}
    (hc : (S.port a).out = some c) (ha : sc a <+: P.hist a) : W' c <+: W c := by
  rw [h.wrote.owned hc, K.out hc, List.prefix_append_right_inj]
  exact outs_initial ha

/-- With everything they read available, the threads all return. -/
theorem Stage.Script.joined (K : S.Script bW bR W' R' sc v) (h : S.Inv mineW mineR bW bR P W R) (hp : S.Ported mineW mineR)
    {A : χ → List (Msg T)} (hw : S.Waits P R A) (hpre : ∀ a, P.hist a <+: sc a) (hA : ∀ c, mineR c → R' c <+: A c) : P.Joined v := by
  intro a
  have hall : P.hist a = sc a :=
    (hpre a).eq_of_length_le (K.reached h hw (hpre a) List.prefix_rfl fun c hc => by rw [← K.inp hc]; exact hA c (hp.inp hc)).length_le
  have hf := h.follow a
  rw [hall] at hf
  exact script_end (K.ends a) hf

/-- What the threads of `A` have left to do. -/
def Pool.left (A : Finset ι) (sc : ι → List (Event T δ σ)) (P : Pool T δ σ ε α) : ℕ :=
  ∑ a ∈ A, ((sc a).length - (P.hist a).length)

theorem left_next {A : Finset ι} {a : ι} {e : Event T δ σ} {q : Prog T δ σ ε (α a)} {m : σ} (ha : a ∈ A)
    (hpre : (P.next a e q m).hist a <+: sc a) : (P.next a e q m).left A sc < P.left A sc := by
  have hlen := hpre.length_le
  simp only [Pool.next, Function.update_self, List.length_append, List.length_singleton] at hlen
  refine Finset.sum_lt_sum (fun b _ => ?_) ⟨a, ha, ?_⟩
  · by_cases hb : b = a
    · subst hb; simp [Pool.next]; omega
    · simp [Pool.next, hb]
  · simp only [Pool.next, Function.update_self, List.length_append, List.length_singleton]
    omega

/-- Every step leaves less to do. -/
theorem left_step {A : Finset ι} {l : Label χ (Msg T)} (hst : S.Step P l P') (hpre : ∀ a, P'.hist a <+: sc a)
    (hA : ∀ a, a ∉ A → sc a = []) : P'.left A sc < P.left A sc := by
  have hmem : ∀ {a e} {q : Prog T δ σ ε (α a)} {m}, (P.next a e q m).hist a <+: sc a → a ∈ A := by
    intro a e q m h
    by_contra ha
    rw [hA a ha] at h
    simpa [Pool.next] using h.length_le
  cases hst with
  | out => exact left_next (hmem (hpre _)) (hpre _)
  | inp => exact left_next (hmem (hpre _)) (hpre _)
  | load => exact left_next (hmem (hpre _)) (hpre _)
  | op => exact left_next (hmem (hpre _)) (hpre _)

end Script

end Thread
