/-
The class `semaphore` as `std::condition_variable` allows it to run: a thread that sleeps in
`condition_.wait` may come back without a notification, and it is not asked again whether `count_` is 0
before `--count_` (`wait` has an `if` where a `while` is needed).

As long as no thread comes back while `count_` is 0, the waits that are through are at most the notifies,
for any threads in any order (`Semaphore.Counts`), and no consumer of `run_xoring` reads the front of an empty
queue (`semaphore_sound`). A consumer that comes back without a notification does (`not_semaphore_sound`).

Such runs are runs of the pipeline in which the semaphores are counters (`pipeStep_of_calm`), so they have its
invariant (`pipeInv_of_calm`).
-/
import Mpsi.Gbf.Online

namespace Mpsi

open Relation

/-! ## The class -/

/-- The critical sections of thread `a`: `notify`, a `wait` that finds `count_` above 0, a `wait` that finds it 0
and goes to sleep, and the rest of that `wait` when `condition_.wait` returns. -/
inductive SemAct (ι : Type) where
  | notify (a : ι)
  | pass (a : ι)
  | sleep (a : ι)
  | wake (a : ι)

/-- `count_`, the threads in `condition_.wait`, and what has happened so far: the calls of `notify`, the calls of
`wait` that are through, and how many of these have decremented a `count_` of 0. -/
structure Semaphore (ι : Type) where
  count_ : ℕ
  asleep : Finset ι
  notifies : ℕ
  waits : ℕ
  atZero : ℕ

/-- `++count_` on an `unsigned long`. -/
def incr (n : ℕ) : ℕ := (n + 1) % 2 ^ 64

/-- `--count_`. -/
def decr (n : ℕ) : ℕ := (n + (2 ^ 64 - 1)) % 2 ^ 64

theorem incr_le (n : ℕ) : incr n ≤ n + 1 := Nat.mod_le _ _

theorem incr_lt (n : ℕ) : incr n < 2 ^ 64 := Nat.mod_lt _ (by norm_num)

theorem decr_lt (n : ℕ) : decr n < 2 ^ 64 := Nat.mod_lt _ (by norm_num)

theorem decr_of_pos {n : ℕ} (h : n ≠ 0) (hlt : n < 2 ^ 64) : decr n = n - 1 := by
  unfold decr
  omega

namespace Semaphore

variable {ι : Type} [DecidableEq ι] {s t : Semaphore ι} {act : SemAct ι}

def init : Semaphore ι := ⟨0, ∅, 0, 0, 0⟩

/-- A thread is in its critical section. `notify_one` needs no state of its own: whom it wakes could as well have
come back by itself. -/
inductive Step : Semaphore ι → SemAct ι → Semaphore ι → Prop
  | notify {s : Semaphore ι} {a : ι} : a ∉ s.asleep →
      Step s (.notify a) { s with count_ := incr s.count_, notifies := s.notifies + 1 }
  | pass {s : Semaphore ι} {a : ι} : a ∉ s.asleep → s.count_ ≠ 0 →
      Step s (.pass a) { s with count_ := decr s.count_, waits := s.waits + 1 }
  | sleep {s : Semaphore ι} {a : ι} : a ∉ s.asleep → s.count_ = 0 →
      Step s (.sleep a) { s with asleep := insert a s.asleep }
  | wake {s : Semaphore ι} {a : ι} : a ∈ s.asleep →
      Step s (.wake a) { s with
        count_ := decr s.count_
        asleep := s.asleep.erase a
        waits := s.waits + 1
        atZero := s.atZero + if s.count_ = 0 then 1 else 0 }

/-- No thread comes back from `condition_.wait` while `count_` is 0. -/
def Calm (s : Semaphore ι) : SemAct ι → Prop
  | .wake _ => s.count_ ≠ 0
  | _ => True

/-- The states that calm steps lead to. -/
def CalmReaches : Semaphore ι → Prop := ReflTransGen (fun s t => ∃ act, Step s act t ∧ s.Calm act) init

/-- What a semaphore is for. -/
def Sound (s : Semaphore ι) : Prop := s.waits ≤ s.notifies ∧ s.atZero = 0

/-- The invariant: what was notified and not yet taken is at least `count_`. -/
structure Counts (s : Semaphore ι) : Prop where
  lt : s.count_ < 2 ^ 64
  le : s.waits + s.count_ ≤ s.notifies
  atZero : s.atZero = 0

omit [DecidableEq ι] in
theorem Counts.sound (h : s.Counts) : s.Sound := ⟨(Nat.le_add_right _ _).trans h.le, h.atZero⟩

theorem counts_step (h : s.Counts) (hst : s.Step act t) (hc : s.Calm act) : t.Counts := by
  obtain ⟨hlt, hle, hzero⟩ := h
  cases hst with
  | notify _ =>
    have hincr := incr_le s.count_
    exact ⟨incr_lt _, by simp only; omega, hzero⟩
  | pass _ hne =>
    refine ⟨decr_lt _, ?_, hzero⟩
    simp only [decr_of_pos hne hlt]
    omega
  | sleep _ _ => exact ⟨hlt, hle, hzero⟩
  | wake _ =>
    have hne : s.count_ ≠ 0 := hc
    refine ⟨decr_lt _, ?_, ?_⟩
    · simp only [decr_of_pos hne hlt]
      omega
    · simp only [if_neg hne, hzero]

theorem counts_of_calm (h : CalmReaches s) : s.Counts :=
  Reach.inv_of_step ⟨by norm_num [init], le_rfl, rfl⟩ (fun _ _ hs ⟨_, hst, hc⟩ => counts_step hs hst hc) h

/-- A step keeps the semaphore sound exactly when it is calm. -/
theorem sound_iff_calm (h : CalmReaches s) (hst : s.Step act t) : t.Sound ↔ s.Calm act := by
  constructor
  · rintro ⟨_, hzero⟩
    cases hst with
    | wake _ =>
      intro h0
      simp only [if_pos h0] at hzero
      omega
    | notify | pass | sleep => trivial
  · exact fun hc => (counts_step (counts_of_calm h) hst hc).sound

end Semaphore

/-! ## `run_xoring` over it -/

/-- The pipeline with a semaphore a queue, whose threads are the producers and the consumer (`none`). -/
structure LoosePipe (ι : Type) where
  pc : ι → ℕ
  q : Fin 4 → List (GbfSeg ι)
  sem : Fin 4 → Semaphore (Option ι)
  cons : Fin 4 → Consumer ι
  gbf : ℕ → Block

section Loose

variable {ι : Type} [DecidableEq ι]

def LoosePipe.start (gbf : ℕ → Block) : LoosePipe ι := ⟨fun _ => 0, fun _ => [], fun _ => .init, fun _ => ⟨0, .wait⟩, gbf⟩

/-- Consumer `i` has moved on, with its semaphore. -/
def LoosePipe.next (s : LoosePipe ι) (i : Fin 4) (m : Semaphore (Option ι)) (p : Phase ι) : LoosePipe ι :=
  { s with sem := Function.update s.sem i m, cons := Function.update s.cons i ⟨(s.cons i).count, p⟩ }

/-- One step of the producers `A` and the consumers, with the semaphore's part in it. -/
inductive LooseStep (A : Finset ι) (Nbf num : ℕ) (contrib : ι → ℕ → Except Fault Block) :
    LoosePipe ι → Option (Fin 4 × SemAct (Option ι)) → LoosePipe ι → Prop
  | begin {s : LoosePipe ι} {src : ι} : src ∈ A → s.pc src = 0 →
      LooseStep A Nbf num contrib s none { s with pc := Function.update s.pc src 1 }
  | push {s : LoosePipe ι} {src : ι} {i : Fin 4} : s.pc src = 2 * i.val + 1 →
      LooseStep A Nbf num contrib s none { s with
        pc := Function.update s.pc src (2 * i.val + 2)
        q := Function.update s.q i (s.q i ++ [gbfSeg Nbf i src]) }
  | notify {s : LoosePipe ι} {src : ι} {i : Fin 4} {m} : s.pc src = 2 * i.val + 2 → (s.sem i).Step (.notify (some src)) m →
      LooseStep A Nbf num contrib s (some (i, .notify (some src))) { s with
        pc := Function.update s.pc src (2 * i.val + 3)
        sem := Function.update s.sem i m }
  | pass {s : LoosePipe ι} {i : Fin 4} {m} : (s.cons i).phase = .wait → (s.cons i).count < num →
      (s.sem i).Step (.pass none) m → LooseStep A Nbf num contrib s (some (i, .pass none)) (s.next i m .front)
  | sleep {s : LoosePipe ι} {i : Fin 4} {m} : (s.cons i).phase = .wait → (s.cons i).count < num →
      (s.sem i).Step (.sleep none) m → LooseStep A Nbf num contrib s (some (i, .sleep none)) (s.next i m .blocked)
  | wake {s : LoosePipe ι} {i : Fin 4} {m} : (s.cons i).phase = .blocked →
      (s.sem i).Step (.wake none) m → LooseStep A Nbf num contrib s (some (i, .wake none)) (s.next i m .front)
  | front {s : LoosePipe ι} {i : Fin 4} {g : GbfSeg ι} {rest} : (s.cons i).phase = .front → s.q i = g :: rest →
      LooseStep A Nbf num contrib s none (s.next i (s.sem i) (.xoring g g.start))
  | xor {s : LoosePipe ι} {i : Fin 4} {g : GbfSeg ι} {j : ℕ} {b : Block} : (s.cons i).phase = .xoring g j → j < g.stop →
      contrib g.src j = .ok b →
      LooseStep A Nbf num contrib s none
        ({ s with gbf := Function.update s.gbf j (s.gbf j ^^^ b) }.next i (s.sem i) (.xoring g (j + 1)))
  | xored {s : LoosePipe ι} {i : Fin 4} {g : GbfSeg ι} {j : ℕ} : (s.cons i).phase = .xoring g j → g.stop ≤ j →
      LooseStep A Nbf num contrib s none (s.next i (s.sem i) .pop)
  | pop {s : LoosePipe ι} {i : Fin 4} : (s.cons i).phase = .pop →
      LooseStep A Nbf num contrib s none { s with
        q := Function.update s.q i (s.q i).tail
        cons := Function.update s.cons i ⟨(s.cons i).count + 1, .wait⟩ }

/-- No consumer comes back from `condition_.wait` while `count_` is 0. -/
def LoosePipe.Calm (s : LoosePipe ι) (l : Option (Fin 4 × SemAct (Option ι))) : Prop :=
  ∀ i act, l = some (i, act) → (s.sem i).Calm act

/-- The states that calm steps of the pipeline lead to. -/
def CalmPipeReaches (A : Finset ι) (Nbf num : ℕ) (contrib : ι → ℕ → Except Fault Block) (gbf₀ : ℕ → Block) :
    LoosePipe ι → Prop :=
  ReflTransGen (fun s t => ∃ l, LooseStep A Nbf num contrib s l t ∧ s.Calm l) (.start gbf₀)

/-- The states that any steps lead to. -/
def LooseReaches (A : Finset ι) (Nbf num : ℕ) (contrib : ι → ℕ → Except Fault Block) (gbf₀ : ℕ → Block) :
    LoosePipe ι → Prop :=
  ReflTransGen (fun s t => ∃ l, LooseStep A Nbf num contrib s l t) (.start gbf₀)

/-! ## The queues -/

/-- The producers of `A` that are past place `k`. -/
def past (A : Finset ι) (pc : ι → ℕ) (k : ℕ) : Finset ι := A.filter fun src => k < pc src

section Past

variable {A : Finset ι} {pc : ι → ℕ} {src : ι} {k m : ℕ}

omit [DecidableEq ι] in
theorem past_subset {n : ℕ} (h : k ≤ n) : past A pc n ⊆ past A pc k := by
  intro src hsrc
  obtain ⟨h1, h2⟩ := Finset.mem_filter.1 hsrc
  exact Finset.mem_filter.2 ⟨h1, h.trans_lt h2⟩

/-- A producer that goes past place `k`. -/
theorem card_past_cross (hsrc : src ∈ A) (h : pc src ≤ k) (hm : k < m) :
    (past A (Function.update pc src m) k).card = (past A pc k).card + 1 := by
  have hnew : past A (Function.update pc src m) k = insert src (past A pc k) := by
    ext u
    simp only [past, Finset.mem_insert, Finset.mem_filter]
    by_cases hu : u = src
    · subst hu; simp [hsrc, hm]
    · simp [hu]
  rw [hnew, Finset.card_insert_of_notMem]
  intro hmem
  exact absurd (Finset.mem_filter.1 hmem).2 (not_lt.2 h)

/-- A producer that stays on its side of place `k`. -/
theorem past_same (h : pc src < m) (hk : k < pc src ↔ k < m) : past A (Function.update pc src m) k = past A pc k := by
  ext u
  simp only [past, Finset.mem_filter, pc_update_iff h k hk u]

end Past

/-- Queue `i`: what was pushed, what was notified, and what its consumer has waited for. -/
structure LooseLane (A : Finset ι) (s : LoosePipe ι) (i : Fin 4) : Prop where
  pushed : (s.cons i).count + (s.q i).length = (past A s.pc (2 * i.val + 1)).card
  notifies : (s.sem i).notifies = (past A s.pc (2 * i.val + 2)).card
  waits : (s.sem i).waits = (s.cons i).count + (s.cons i).phase.taken

/-- The invariant of the pipeline. -/
structure LooseInv (A : Finset ι) (s : LoosePipe ι) : Prop where
  active : ∀ src, 0 < s.pc src → src ∈ A
  lanes : ∀ i, LooseLane A s i
  sound : ∀ i, (s.sem i).Counts

section Lanes

variable {A : Finset ι} {Nbf num : ℕ} {contrib : ι → ℕ → Except Fault Block} {gbf₀ : ℕ → Block} {s t : LoosePipe ι}
  {i k : Fin 4}

omit [DecidableEq ι] in
/-- A consumer that has passed its semaphore has a segment in front of it. -/
theorem LooseInv.ne_nil (h : LooseInv A s) (ht : (s.cons i).phase.taken = 1) : s.q i ≠ [] := by
  have hl := h.lanes i
  have hle := (h.sound i).le
  have hsub : (past A s.pc (2 * i.val + 2)).card ≤ (past A s.pc (2 * i.val + 1)).card :=
    Finset.card_le_card (past_subset (by omega))
  intro hnil
  have h1 := hl.pushed
  have h2 := hl.notifies
  have h3 := hl.waits
  rw [hnil, List.length_nil] at h1
  omega

/-- A producer's step sees its own queue only. -/
theorem LooseLane.frame (h : LooseLane A s k) {src : ι} {m : ℕ} (hlt : s.pc src < m) (hq : t.q k = s.q k)
    (hsem : t.sem k = s.sem k) (hc : t.cons k = s.cons k) (hpc : t.pc = Function.update s.pc src m)
    (h1 : 2 * k.val + 1 < s.pc src ↔ 2 * k.val + 1 < m) (h2 : 2 * k.val + 2 < s.pc src ↔ 2 * k.val + 2 < m) :
    LooseLane A t k := by
  refine ⟨?_, ?_, ?_⟩
  · rw [hc, hq, hpc, past_same hlt h1]
    exact h.pushed
  · rw [hsem, hpc, past_same hlt h2]
    exact h.notifies
  · rw [hsem, hc]
    exact h.waits

theorem active_update (h : LooseInv A s) {src : ι} {m : ℕ} (hsrc : src ∈ A) (u : ι) (hu : 0 < Function.update s.pc src m u) : u ∈ A := by
  by_cases hus : u = src
  · rwa [hus]
  · rw [Function.update_of_ne hus] at hu
    exact h.active u hu

omit [DecidableEq ι] in
/-- A consumer's step that leaves the queues as they are. -/
theorem looseInv_next (h : LooseInv A s) {m : Semaphore (Option ι)} {p : Phase ι} (hm : m.Counts)
    (hn : m.notifies = (s.sem i).notifies) (hw : m.waits + (s.cons i).phase.taken = (s.sem i).waits + p.taken) :
    LooseInv A (s.next i m p) := by
  refine ⟨h.active, fun k => ?_, fun k => ?_⟩
  · have hl := h.lanes k
    by_cases hk : k = i
    · subst hk
      refine ⟨by simpa [LoosePipe.next] using hl.pushed, by simpa [LoosePipe.next, hn] using hl.notifies, ?_⟩
      have h3 := hl.waits
      simp only [LoosePipe.next, Function.update_self]
      omega
    · exact ⟨by simpa [LoosePipe.next, hk] using hl.pushed, by simpa [LoosePipe.next, hk] using hl.notifies,
        by simpa [LoosePipe.next, hk] using hl.waits⟩
  · by_cases hk : k = i
    · subst hk; simpa [LoosePipe.next] using hm
    · simpa [LoosePipe.next, hk] using h.sound k

/-- A producer's step that changes queue `i`, with its semaphore `m`. -/
theorem looseInv_produce (h : LooseInv A s) {src : ι} {n : ℕ} {q : List (GbfSeg ι)} {m : Semaphore (Option ι)} (hsrc : src ∈ A)
    (hlt : s.pc src < n) (hm : m.Counts) (hw : m.waits = (s.sem i).waits)
    (hpush : (s.cons i).count + q.length = (past A (Function.update s.pc src n) (2 * i.val + 1)).card)
    (hnotify : m.notifies = (past A (Function.update s.pc src n) (2 * i.val + 2)).card)
    (hothers : ∀ k : Fin 4, k ≠ i → (2 * k.val + 1 < s.pc src ↔ 2 * k.val + 1 < n) ∧ (2 * k.val + 2 < s.pc src ↔ 2 * k.val + 2 < n)) :
    LooseInv A { s with
      pc := Function.update s.pc src n
      q := Function.update s.q i q
      sem := Function.update s.sem i m } := by
  refine ⟨active_update h hsrc, fun k => ?_, fun k => ?_⟩
  · by_cases hk : k = i
    · subst hk
      exact ⟨by simpa using hpush, by simpa using hnotify, by simpa [hw] using (h.lanes k).waits⟩
    · exact (h.lanes k).frame hlt (by simp [hk]) (by simp [hk]) rfl rfl (hothers k hk).1 (hothers k hk).2
  · by_cases hk : k = i
    · subst hk; simpa using hm
    · simpa [hk] using h.sound k

omit [DecidableEq ι] in
/-- A consumer goes back to its loop test with the first segment popped. -/
theorem looseInv_pop (h : LooseInv A s) (hp : (s.cons i).phase = .pop) :
    LooseInv A { s with
      q := Function.update s.q i (s.q i).tail
      cons := Function.update s.cons i ⟨(s.cons i).count + 1, .wait⟩ } := by
  refine ⟨h.active, fun k => ?_, h.sound⟩
  have hl := h.lanes k
  by_cases hk : k = i
  · subst hk
    obtain ⟨g, rest, hq⟩ := List.exists_cons_of_ne_nil (h.ne_nil (i := k) (by rw [hp]; rfl))
    have h1 := hl.pushed
    have h3 := hl.waits
    rw [hq, List.length_cons] at h1
    rw [hp] at h3
    refine ⟨?_, hl.notifies, ?_⟩
    · simp only [Function.update_self, hq, List.tail_cons]
      omega
    · simpa [Phase.taken] using h3
  · exact ⟨by simpa [hk] using hl.pushed, hl.notifies, by simpa [hk] using hl.waits⟩

theorem looseInv_step {l : Option (Fin 4 × SemAct (Option ι))} (h : LooseInv A s)
    (hst : LooseStep A Nbf num contrib s l t) (hc : s.Calm l) : LooseInv A t := by
  have hcounts : ∀ {i act m}, (s.sem i).Step act m → l = some (i, act) → m.Counts :=
    fun hm hl => Semaphore.counts_step (h.sound _) hm (hc _ _ hl)
  cases hst with
  | @begin src hsrc hpc =>
    exact ⟨active_update h hsrc, fun k => (h.lanes k).frame (by omega) rfl rfl rfl rfl (by omega) (by omega), h.sound⟩
  | @push src i hpc =>
    have hsrc := h.active src (by omega)
    have hi := looseInv_produce (i := i) (n := 2 * i.val + 2) (q := s.q i ++ [gbfSeg Nbf i src]) (m := s.sem i) h hsrc
      (by omega) (h.sound i) rfl
      (by rw [card_past_cross hsrc (by omega) (by omega), ← (h.lanes i).pushed, List.length_append, List.length_singleton, add_assoc])
      (by rw [past_same (by omega) (by omega), (h.lanes i).notifies]) (fun k hk => by omega)
    rwa [Function.update_eq_self] at hi
  | @notify src i m hpc hm =>
    have hsrc := h.active src (by omega)
    have hm' := hcounts hm rfl
    cases hm
    have hi := looseInv_produce (i := i) (n := 2 * i.val + 3) (q := s.q i) h hsrc (by omega) hm' rfl
      (by rw [past_same (by omega) (by omega), (h.lanes i).pushed])
      (by rw [card_past_cross hsrc (by omega) (by omega), ← (h.lanes i).notifies]) (fun k hk => by omega)
    rwa [Function.update_eq_self] at hi
  | pass hp _ hm =>
    have hm' := hcounts hm rfl
    cases hm
    exact looseInv_next h hm' rfl (by rw [hp]; rfl)
  | sleep hp _ hm =>
    have hm' := hcounts hm rfl
    cases hm
    exact looseInv_next h hm' rfl (by rw [hp]; rfl)
  | wake hp hm =>
    have hm' := hcounts hm rfl
    cases hm
    exact looseInv_next h hm' rfl (by rw [hp]; rfl)
  | front hp _ => exact looseInv_next h (h.sound _) rfl (by rw [hp]; rfl)
  | @xor i g j b hp _ _ =>
    -- the filter is none of the invariant's business
    have hgbf : LooseInv A { s with gbf := Function.update s.gbf j (s.gbf j ^^^ b) } :=
      ⟨h.active, fun k => ⟨(h.lanes k).pushed, (h.lanes k).notifies, (h.lanes k).waits⟩, h.sound⟩
    exact looseInv_next hgbf (h.sound _) rfl (by simp only [hp]; rfl)
  | xored hp _ => exact looseInv_next h (h.sound _) rfl (by rw [hp]; rfl)
  | pop hp => exact looseInv_pop h hp

theorem looseInv_start : LooseInv A (LoosePipe.start gbf₀) := by
  refine ⟨by simp [LoosePipe.start], fun i => ⟨?_, ?_, rfl⟩, fun i => ?_⟩
  · simp [LoosePipe.start, past]
  · simp [LoosePipe.start, past, Semaphore.init]
  · exact Semaphore.counts_of_calm .refl

theorem looseInv_of_calm (h : CalmPipeReaches A Nbf num contrib gbf₀ s) : LooseInv A s :=
  Reach.inv_of_step looseInv_start (fun _ _ hs ⟨_, hst, hc⟩ => looseInv_step hs hst hc) h

end Lanes

/-! ## The pipeline with counters -/

/-- The pipeline in which the semaphores are their counters. A consumer that sleeps while `count_` is not 0 has
been notified. -/
def LoosePipe.toPipe (s : LoosePipe ι) : Pipe ι where
  pc := s.pc
  q := s.q
  sem := fun i => (s.sem i).count_
  cons := fun i => ⟨(s.cons i).count, if (s.sem i).count_ = 0 then (s.cons i).phase else (s.cons i).phase.notify⟩
  gbf := s.gbf

section ToPipe

variable {A : Finset ι} {Nbf num : ℕ} {contrib : ι → ℕ → Except Fault Block} {gbf₀ : ℕ → Block} {s t : LoosePipe ι}
  {i : Fin 4}

omit [DecidableEq ι] in
theorem toPipe_phase {p : Phase ι} (hp : (s.cons i).phase = p) (hn : p.notify = p) : (s.toPipe.cons i).phase = p := by
  unfold LoosePipe.toPipe
  dsimp only
  split
  · exact hp
  · rw [hp, hn]

omit [DecidableEq ι] in
theorem toPipe_next (m : Semaphore (Option ι)) (p : Phase ι) : (s.next i m p).toPipe =
    { s.toPipe with sem := Function.update s.toPipe.sem i m.count_ }.setCons i
      ⟨(s.cons i).count, if m.count_ = 0 then p else p.notify⟩ := by
  unfold LoosePipe.toPipe LoosePipe.next Pipe.setCons
  dsimp only
  congr 1
  · funext k
    by_cases hk : k = i
    · subst hk; simp
    · simp [hk]
  · funext k
    by_cases hk : k = i
    · subst hk; simp
    · simp [hk]

omit [DecidableEq ι] in
/-- A consumer that is past its semaphore moves on. -/
theorem toPipe_next_self {p : Phase ι} (hn : p.notify = p) :
    (s.next i (s.sem i) p).toPipe = s.toPipe.setCons i ⟨(s.cons i).count, p⟩ := by
  have hsem : Function.update s.toPipe.sem i (s.sem i).count_ = s.toPipe.sem := Function.update_eq_self i _
  rw [toPipe_next, hsem, hn, ite_self]

/-- A notify. -/
theorem toPipe_notify {src : ι} {m : Semaphore (Option ι)} {n : ℕ} (hm : m.count_ = (s.sem i).count_ + 1) :
    LoosePipe.toPipe { s with pc := Function.update s.pc src n, sem := Function.update s.sem i m } = { s.toPipe with
      pc := Function.update s.pc src n
      sem := Function.update s.toPipe.sem i (s.toPipe.sem i + 1)
      cons := Function.update s.toPipe.cons i ⟨(s.cons i).count, (s.toPipe.cons i).phase.notify⟩ } := by
  have htwice : ∀ p : Phase ι, p.notify.notify = p.notify := fun p => by cases p <;> rfl
  unfold LoosePipe.toPipe
  dsimp only
  congr 1
  · funext k
    by_cases hk : k = i
    · subst hk; simp [hm]
    · simp [hk]
  · funext k
    by_cases hk : k = i
    · subst hk
      simp only [Function.update_self, hm, Nat.succ_ne_zero, if_false]
      split
      · rfl
      · rw [htwice]
    · simp [hk]

/-- Every calm step is a step of the pipeline with counters, or the beginning of a producer's pushes. -/
theorem pipeStep_of_calm {l : Option (Fin 4 × SemAct (Option ι))} (hA : A.card < 2 ^ 64) (h : LooseInv A s)
    (hst : LooseStep A Nbf num contrib s l t) (hc : s.Calm l) :
    (∃ src ∈ A, s.pc src = 0 ∧ t.toPipe = s.toPipe.begin src) ∨ PipeStep Nbf num contrib s.toPipe t.toPipe := by
  have ht := looseInv_step h hst hc
  cases hst with
  | @begin src hsrc hpc => exact Or.inl ⟨src, hsrc, hpc, rfl⟩
  | push hpc => exact Or.inr (.push hpc)
  | @notify src i m hpc hm =>
    cases hm
    -- there are not more notifies than producers
    have hle := (h.sound i).le
    have hn := (ht.lanes i).notifies
    have hcard : (past A (Function.update s.pc src (2 * i.val + 3)) (2 * i.val + 2)).card ≤ A.card := Finset.card_filter_le _ _
    simp only [Function.update_self] at hn
    have hincr : incr (s.sem i).count_ = (s.sem i).count_ + 1 := Nat.mod_eq_of_lt (by omega)
    rw [toPipe_notify hincr]
    exact Or.inr (.notify hpc)
  | @pass i m hp hlt hm =>
    cases hm with
    | pass _ hne =>
      have hpos : 0 < s.toPipe.sem i := Nat.pos_of_ne_zero hne
      rw [toPipe_next, decr_of_pos hne (h.sound i).lt]
      simp only [Phase.notify, ite_self]
      exact Or.inr (.wait (toPipe_phase hp rfl) hlt hpos)
  | @sleep i m hp hlt hm =>
    cases hm with
    | sleep _ h0 =>
      have hsem : Function.update s.toPipe.sem i (s.sem i).count_ = s.toPipe.sem := Function.update_eq_self i _
      rw [toPipe_next, hsem, if_pos h0]
      exact Or.inr (.block (toPipe_phase hp rfl) hlt h0)
  | @wake i m hp hm =>
    cases hm with
    | wake _ =>
      have hne : (s.sem i).count_ ≠ 0 := hc _ _ rfl
      have hwoken : (s.toPipe.cons i).phase = .woken := by
        unfold LoosePipe.toPipe
        dsimp only
        rw [if_neg hne, hp]
        rfl
      rw [toPipe_next, decr_of_pos hne (h.sound i).lt]
      simp only [Phase.notify, ite_self]
      exact Or.inr (.wake hwoken)
  | front hp hq =>
    rw [toPipe_next_self rfl]
    exact Or.inr (.front (toPipe_phase hp rfl) hq)
  | xor hp hj hb =>
    rw [toPipe_next_self rfl]
    exact Or.inr (.xor (toPipe_phase hp rfl) hj hb)
  | xored hp hj =>
    rw [toPipe_next_self rfl]
    exact Or.inr (.xored (toPipe_phase hp rfl) hj)
  | @pop i hp =>
    apply Or.inr
    have hpop : LoosePipe.toPipe { s with
        q := Function.update s.q i (s.q i).tail
        cons := Function.update s.cons i ⟨(s.cons i).count + 1, .wait⟩ } =
        { s.toPipe with q := Function.update s.q i (s.q i).tail }.setCons i ⟨(s.cons i).count + 1, .wait⟩ := by
      unfold LoosePipe.toPipe Pipe.setCons
      dsimp only
      congr 1
      funext k
      by_cases hk : k = i
      · subst hk; simp [Phase.notify]
      · simp [hk]
    rw [hpop]
    exact .pop (toPipe_phase hp rfl)

/-- So what holds of the pipeline with counters in all its runs holds in the calm runs. -/
theorem pipeInv_of_calm {val : ι → ℕ → Block} (hA : A.card < 2 ^ 64)
    (hval : ∀ src ∈ A, ∀ j, j < Nbf → ∀ b, contrib src j = .ok b → b = val src j)
    (h : CalmPipeReaches A Nbf A.card contrib gbf₀ s) : PipeInv A Nbf A.card val gbf₀ s.toPipe := by
  have hstart : (LoosePipe.start (ι := ι) gbf₀).toPipe = Pipe.start gbf₀ := by
    unfold LoosePipe.toPipe LoosePipe.start
    simp [Semaphore.init, Pipe.start]
  refine (Reach.inv_of_step (I := fun s : LoosePipe ι => LooseInv A s ∧ PipeInv A Nbf A.card val gbf₀ s.toPipe)
    ⟨looseInv_start, by rw [hstart]; exact pipeInv_start⟩ (fun s t hs hst => ?_) h).2
  obtain ⟨hloose, hpipe⟩ := hs
  obtain ⟨l, hst, hc⟩ := hst
  refine ⟨looseInv_step hloose hst hc, ?_⟩
  rcases pipeStep_of_calm hA hloose hst hc with ⟨src, hsrc, hpc, ht⟩ | ht
  · rw [ht]
    exact pipeInv_begin hpipe hsrc hpc
  · exact pipeInv_step hpipe (fun src hsrc => hval src (hpipe.active src hsrc)) ht

end ToPipe

end Loose

/-- In every run of any threads in which no thread comes back from `condition_.wait` while `count_` is 0: the waits
that are through are at most the notifies and no `count_` of 0 was decremented, which a step at which one
comes back so ends at once; and in every run of the pipeline of which this holds, no consumer reads the
front of an empty queue. -/
theorem semaphore_sound {ι κ : Type} [DecidableEq ι] [DecidableEq κ] (A : Finset κ) (Nbf num : ℕ)
    (contrib : κ → ℕ → Except Fault Block) (gbf₀ : ℕ → Block) :
    (∀ s : Semaphore ι, s.CalmReaches → s.Sound) ∧
    (∀ (s t : Semaphore ι) act, s.CalmReaches → s.Step act t → (t.Sound ↔ s.Calm act)) ∧
    ∀ s, CalmPipeReaches A Nbf num contrib gbf₀ s → ∀ i, (s.sem i).Sound ∧ ((s.cons i).phase = .front → s.q i ≠ []) := by
  refine ⟨fun s hs => (Semaphore.counts_of_calm hs).sound, fun s t act hs hst => Semaphore.sound_iff_calm hs hst,
    fun s hs i => ⟨?_, fun hp => ?_⟩⟩
  · exact ((looseInv_of_calm hs).sound i).sound
  · exact (looseInv_of_calm hs).ne_nil (by rw [hp]; rfl)

/-- A party of a protocol of two: the first consumer goes to sleep, a producer pushes and notifies, and the consumer
comes back to a queue that is not empty. -/
theorem semaphore_sound_two : ∃ s, CalmPipeReaches (producers 1) 1 2 (contribution none onlineTwo) 0 s ∧ (s.sem 0).waits = 1 ∧
    (s.sem 0).Sound ∧ s.q 0 ≠ [] := by
  have hsrc : (0, .receiver) ∈ producers 1 := by decide
  have hnone : ∀ s : LoosePipe Source, s.Calm none := fun s i act h => by cases h
  have hsem : ∀ (s : LoosePipe Source) (act : SemAct (Option Source)), (s.sem 0).Calm act → s.Calm (some (0, act)) := by
    intro s act hc i act' h
    cases h
    exact hc
  obtain ⟨s, hs, hw, hp⟩ : ∃ s, CalmPipeReaches (producers 1) 1 2 (contribution none onlineTwo) 0 s ∧ (s.sem 0).waits = 1 ∧
      (s.cons 0).phase = .front := by
    refine ⟨_, .tail (.tail (.tail (.tail (.single
      ⟨_, .sleep (i := 0) rfl (by decide) (.sleep (Finset.notMem_empty none) rfl), hsem _ _ trivial⟩)
      ⟨_, .begin hsrc rfl, hnone _⟩)
      ⟨_, @LooseStep.push _ _ _ _ _ _ _ (0, .receiver) 0 rfl, hnone _⟩)
      ⟨_, @LooseStep.notify _ _ _ _ _ _ _ (0, .receiver) 0 _ rfl (.notify ?_), hsem _ _ trivial⟩)
      ⟨_, .wake (i := 0) rfl (.wake (Finset.mem_insert_self none ∅)), hsem _ _ ?_⟩, rfl, rfl⟩
    · decide
    · exact Nat.one_ne_zero
  obtain ⟨hsound, hfront⟩ := (semaphore_sound (ι := Source) (producers 1) 1 2 (contribution none onlineTwo) 0).2.2 s hs 0
  exact ⟨s, hs, hw, hsound, hfront hp⟩

/-- A party of a protocol of two: the first consumer goes to sleep and comes back before anything is pushed. -/
theorem not_semaphore_sound : ¬ ∀ s, LooseReaches (producers 1) 1 2 (contribution none onlineTwo) 0 s →
    ∀ i, (s.sem i).Sound ∧ ((s.cons i).phase = .front → s.q i ≠ []) := by
  intro h
  have hsleep : LooseStep (producers 1) 1 2 (contribution none onlineTwo) (.start 0) (some (0, .sleep none))
      ((LoosePipe.start 0).next 0 ⟨0, insert none ∅, 0, 0, 0⟩ .blocked) :=
    .sleep rfl (by decide) (.sleep (Finset.notMem_empty none) rfl)
  have hwake : LooseStep (producers 1) 1 2 (contribution none onlineTwo)
      ((LoosePipe.start 0).next 0 ⟨0, insert none ∅, 0, 0, 0⟩ .blocked) (some (0, .wake none)) _ :=
    .wake rfl (.wake (Finset.mem_insert_self none ∅))
  exact (h _ (.tail (.single ⟨_, hsleep⟩) ⟨_, hwake⟩) 0).2 rfl rfl

end Mpsi
