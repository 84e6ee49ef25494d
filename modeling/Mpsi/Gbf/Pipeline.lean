/-
The exclusive ors of the online phase: every producer (`online_apport_receiver` or
`online_apport_sender`) pushes its four segments to the four queues, and one consumer a queue
(`run_xoring`) takes them from there and adds them to its quarter of the GBF.

`PipeInv` counts, for each queue, what was pushed, notified, taken and added; `pipeInv_step` shows
every step keeps it. From it, in any order of the steps: a consumer that passes its semaphore finds
a segment, a state without a step has all segments processed, and then every cell holds each
producer's block once.
-/
import Mpsi.Data.Fault
import Mpsi.Lib.XorGroup
import Mathlib.Algebra.BigOperators.Group.Finset.Basic

namespace Mpsi

/-! ## Segments -/

/-- `Gbf_seg`: the cells from `start` on before `stop` (the source's `end`); `src` stands for the
producer whose strings and function the segment points to. -/
structure GbfSeg (ι : Type) where
  start : ℕ
  stop : ℕ
  src : ι
  deriving DecidableEq

/-- Where the segments of queue `i` begin. -/
def segStart (Nbf : ℕ) (i : Fin 4) : ℕ := i.val * (Nbf / 4)

/-- Where they end: the last one takes what remains. -/
def segStop (Nbf : ℕ) (i : Fin 4) : ℕ := if i.val < 3 then (i.val + 1) * (Nbf / 4) else Nbf

/-- The segment a producer pushes to queue `i`. -/
def gbfSeg {ι : Type} (Nbf : ℕ) (i : Fin 4) (src : ι) : GbfSeg ι := ⟨segStart Nbf i, segStop Nbf i, src⟩

theorem segStart_le_stop (Nbf : ℕ) (i : Fin 4) : segStart Nbf i ≤ segStop Nbf i := by
  fin_cases i <;> simp [segStart, segStop] <;> omega

theorem segStop_le (Nbf : ℕ) (i : Fin 4) : segStop Nbf i ≤ Nbf := by
  fin_cases i <;> simp [segStop] <;> omega

/-- Every cell lies in the segments of one queue. -/
theorem exists_lane {Nbf j : ℕ} (hj : j < Nbf) : ∃ i, segStart Nbf i ≤ j ∧ j < segStop Nbf i := by
  by_cases h0 : j < Nbf / 4
  · exact ⟨0, by simp [segStart], by simp [segStop]; omega⟩
  by_cases h1 : j < 2 * (Nbf / 4)
  · exact ⟨1, by simp [segStart]; omega, by simp [segStop]; omega⟩
  by_cases h2 : j < 3 * (Nbf / 4)
  · exact ⟨2, by simp [segStart]; omega, by simp [segStop]; omega⟩
  · exact ⟨3, by simp [segStart]; omega, by simp [segStop]; omega⟩

/-- And of one queue only. -/
theorem lane_unique {Nbf j : ℕ} {i k : Fin 4} (hi : segStart Nbf i ≤ j) (hi' : j < segStop Nbf i)
    (hk : segStart Nbf k ≤ j) (hk' : j < segStop Nbf k) : i = k := by
  revert hi hi' hk hk'
  fin_cases i <;> fin_cases k <;> simp [segStart, segStop] <;> omega

/-! ## The machine -/

/-- Where a consumer stands in the loop of `run_xoring`: before `sem[i]->wait()`, asleep in it, woken
in it, before `front()`, in the loop over the cells, before `pop()`. -/
inductive Phase (ι : Type) where
  | wait
  | blocked
  | woken
  | front
  | xoring (g : GbfSeg ι) (j : ℕ)
  | pop

/-- A consumer: its `count` and where it stands. -/
structure Consumer (ι : Type) where
  count : ℕ
  phase : Phase ι

/-- The producers' places, the queues with their semaphores, the consumers and the GBF. A producer at
place 0 has not reached its pushes; at `2*i+1` it is to push to queue `i`, at `2*i+2` to notify. -/
structure Pipe (ι : Type) where
  pc : ι → ℕ
  q : Fin 4 → List (GbfSeg ι)
  sem : Fin 4 → ℕ
  cons : Fin 4 → Consumer ι
  gbf : ℕ → Block

/-- Before the first step. -/
def Pipe.start {ι : Type} (gbf : ℕ → Block) : Pipe ι := ⟨fun _ => 0, fun _ => [], fun _ => 0, fun _ => ⟨0, .wait⟩, gbf⟩

/-- `condition_.notify_one()`: the one thread that can sleep there is woken. -/
def Phase.notify {ι : Type} : Phase ι → Phase ι
  | .blocked => .woken
  | p => p

section Machine

variable {ι : Type} [DecidableEq ι]

def Pipe.setCons (s : Pipe ι) (i : Fin 4) (c : Consumer ι) : Pipe ι := { s with cons := Function.update s.cons i c }

/-- One step of the pipeline: `contrib src j` is what the consumer adds to cell `j` for a segment of
`src`, and `num` the number of segments a consumer waits for. -/
inductive PipeStep (Nbf num : ℕ) (contrib : ι → ℕ → Except Fault Block) : Pipe ι → Pipe ι → Prop
  | push {s : Pipe ι} {src : ι} {i : Fin 4} : s.pc src = 2 * i.val + 1 →
      PipeStep Nbf num contrib s { s with
        pc := Function.update s.pc src (2 * i.val + 2)
        q := Function.update s.q i (s.q i ++ [gbfSeg Nbf i src]) }
  | notify {s : Pipe ι} {src : ι} {i : Fin 4} : s.pc src = 2 * i.val + 2 →
      PipeStep Nbf num contrib s { s with
        pc := Function.update s.pc src (2 * i.val + 3)
        sem := Function.update s.sem i (s.sem i + 1)
        cons := Function.update s.cons i ⟨(s.cons i).count, (s.cons i).phase.notify⟩ }
  | wait {s : Pipe ι} {i : Fin 4} : (s.cons i).phase = .wait → (s.cons i).count < num → 0 < s.sem i →
      PipeStep Nbf num contrib s ({ s with sem := Function.update s.sem i (s.sem i - 1) }.setCons i ⟨(s.cons i).count, .front⟩)
  | block {s : Pipe ι} {i : Fin 4} : (s.cons i).phase = .wait → (s.cons i).count < num → s.sem i = 0 →
      PipeStep Nbf num contrib s (s.setCons i ⟨(s.cons i).count, .blocked⟩)
  | wake {s : Pipe ι} {i : Fin 4} : (s.cons i).phase = .woken →
      PipeStep Nbf num contrib s ({ s with sem := Function.update s.sem i (s.sem i - 1) }.setCons i ⟨(s.cons i).count, .front⟩)
  | front {s : Pipe ι} {i : Fin 4} {g : GbfSeg ι} {rest} : (s.cons i).phase = .front → s.q i = g :: rest →
      PipeStep Nbf num contrib s (s.setCons i ⟨(s.cons i).count, .xoring g g.start⟩)
  | xor {s : Pipe ι} {i : Fin 4} {g : GbfSeg ι} {j : ℕ} {b : Block} : (s.cons i).phase = .xoring g j → j < g.stop →
      contrib g.src j = .ok b →
      PipeStep Nbf num contrib s ({ s with gbf := Function.update s.gbf j (s.gbf j ^^^ b) }.setCons i
        ⟨(s.cons i).count, .xoring g (j + 1)⟩)
  | xored {s : Pipe ι} {i : Fin 4} {g : GbfSeg ι} {j : ℕ} : (s.cons i).phase = .xoring g j → g.stop ≤ j →
      PipeStep Nbf num contrib s (s.setCons i ⟨(s.cons i).count, .pop⟩)
  | pop {s : Pipe ι} {i : Fin 4} : (s.cons i).phase = .pop →
      PipeStep Nbf num contrib s ({ s with q := Function.update s.q i (s.q i).tail }.setCons i ⟨(s.cons i).count + 1, .wait⟩)

/-- A producer reaches its pushes. -/
def Pipe.begin (s : Pipe ι) (src : ι) : Pipe ι := { s with pc := Function.update s.pc src 1 }

/-- All consumers have left their loop. -/
def Pipe.Done (num : ℕ) (s : Pipe ι) : Prop := ∀ i, (s.cons i).phase = .wait ∧ num ≤ (s.cons i).count

end Machine

/-! ## The invariant -/

theorem pc_update_iff {ι : Type} [DecidableEq ι] {pc : ι → ℕ} {src : ι} {m : ℕ} (hm : pc src < m) (b : ℕ) (hb : b < pc src ↔ b < m) (u : ι) :
    b < Function.update pc src m u ↔ b < pc u := by
  by_cases hu : u = src
  · subst hu; rw [Function.update_self]; exact hb.symm
  · rw [Function.update_of_ne hu]

section Inv

variable {ι : Type}

/-- The consumer has passed its semaphore and not yet popped. -/
def Phase.taken : Phase ι → ℕ
  | .front | .xoring _ _ | .pop => 1
  | _ => 0

/-- What of the segment in front of the queue is already in cell `j`. -/
def Phase.part (val : ι → ℕ → Block) : Phase ι → List ι → ℕ → Block
  | .xoring _ k, src :: _, j => if j < k then val src j else 0
  | .pop, src :: _, j => val src j
  | _, _, _ => 0

/-- The phase fits the semaphore's count `sem`, the number `n` of segments done and the sources `qs` of
those in the queue. -/
def Phase.Ok (Nbf num : ℕ) (i : Fin 4) (sem n : ℕ) (qs : List ι) : Phase ι → Prop
  | .wait => True
  | .blocked => sem = 0 ∧ n < num
  | .woken => 0 < sem
  | .front => True
  | .xoring g k => (∃ src rest, qs = src :: rest ∧ g = gbfSeg Nbf i src) ∧ segStart Nbf i ≤ k ∧ k ≤ segStop Nbf i
  | .pop => qs ≠ []

section Phases

variable {Nbf num sem n : ℕ} {i : Fin 4} {qs : List ι} {val : ι → ℕ → Block} {p : Phase ι}

@[simp] theorem Phase.notify_taken : p.notify.taken = p.taken := by cases p <;> rfl

@[simp] theorem Phase.notify_part (j : ℕ) : p.notify.part val qs j = p.part val qs j := by cases p <;> rfl

/-- A notification. -/
theorem Phase.Ok.notify (h : p.Ok Nbf num i sem n qs) : p.notify.Ok Nbf num i (sem + 1) n qs := by
  cases p with
  | blocked => exact Nat.succ_pos _
  | woken => exact Nat.succ_pos _
  | wait | front | xoring | pop => exact h

/-- A segment pushed behind the others. -/
theorem Phase.Ok.push (h : p.Ok Nbf num i sem n qs) (src : ι) : p.Ok Nbf num i sem n (qs ++ [src]) := by
  cases p with
  | xoring g c =>
    obtain ⟨⟨u, rest, rfl, hg⟩, hc⟩ := h
    exact ⟨⟨u, rest ++ [src], rfl, hg⟩, hc⟩
  | pop => simp [Phase.Ok]
  | wait | blocked | woken | front => exact h

/-- It is not the one in front. -/
theorem Phase.Ok.part_push (h : p.Ok Nbf num i sem n qs) (src : ι) (j : ℕ) : p.part val (qs ++ [src]) j = p.part val qs j := by
  cases p with
  | xoring g c =>
    obtain ⟨⟨u, rest, rfl, _⟩, _⟩ := h
    rfl
  | pop =>
    obtain ⟨u, rest, rfl⟩ := List.exists_cons_of_ne_nil h
    rfl
  | wait | blocked | woken | front => rfl

end Phases

/-- The producers among `A` that have notified queue `i`. -/
def notified (A : Finset ι) (pc : ι → ℕ) (i : Fin 4) : Finset ι := A.filter fun src => 2 * i.val + 2 < pc src

/-- Queue `i` with its consumer, when the segments of `done` have been processed and those of `qs` are
in the queue. -/
structure LaneInv (A : Finset ι) (Nbf num : ℕ) (val : ι → ℕ → Block) (init : ℕ → Block) (s : Pipe ι) (i : Fin 4)
    (done qs : List ι) : Prop where
  queue : s.q i = qs.map (gbfSeg Nbf i)
  nodup : (done ++ qs).Nodup
  mem : ∀ src, src ∈ done ++ qs ↔ 2 * i.val + 1 < s.pc src
  count : (s.cons i).count = done.length
  sem : s.sem i + done.length + (s.cons i).phase.taken = (notified A s.pc i).card
  phase : (s.cons i).phase.Ok Nbf num i (s.sem i) done.length qs
  gbf : ∀ j, segStart Nbf i ≤ j → j < segStop Nbf i →
    s.gbf j = init j + (done.map fun src => val src j).sum + (s.cons i).phase.part val qs j

/-- The pipeline of the producers `A` with initial GBF `init`, where `val src j` is the block of producer
`src` for cell `j`. -/
structure PipeInv (A : Finset ι) (Nbf num : ℕ) (val : ι → ℕ → Block) (init : ℕ → Block) (s : Pipe ι) : Prop where
  active : ∀ src, 0 < s.pc src → src ∈ A
  le_nine : ∀ src, s.pc src ≤ 9
  lanes : ∀ i, ∃ done qs, LaneInv A Nbf num val init s i done qs

variable {A : Finset ι} {Nbf num : ℕ} {val : ι → ℕ → Block} {init : ℕ → Block} {s t : Pipe ι} {i : Fin 4} {done qs : List ι}

theorem pipeInv_start : PipeInv A Nbf num val init (Pipe.start init) := by
  refine ⟨by simp [Pipe.start], by simp [Pipe.start], fun i => ⟨[], [], rfl, List.nodup_nil, by simp [Pipe.start], rfl,
    ?_, trivial, fun j _ _ => ?_⟩⟩
  · simp [Pipe.start, notified, Phase.taken]
  · simp [Pipe.start, Phase.part]

/-- A queue depends on its own part of the state only. -/
theorem LaneInv.frame (h : LaneInv A Nbf num val init s i done qs) (hq : t.q i = s.q i) (hsem : t.sem i = s.sem i)
    (hc : t.cons i = s.cons i) (hp : ∀ src, 2 * i.val + 1 < t.pc src ↔ 2 * i.val + 1 < s.pc src)
    (hn : ∀ src, 2 * i.val + 2 < t.pc src ↔ 2 * i.val + 2 < s.pc src)
    (hg : ∀ j, segStart Nbf i ≤ j → j < segStop Nbf i → t.gbf j = s.gbf j) :
    LaneInv A Nbf num val init t i done qs := by
  have hnot : notified A t.pc i = notified A s.pc i := by
    ext src; simp [notified, hn]
  exact ⟨hq.trans h.queue, h.nodup, fun src => (h.mem src).trans (hp src).symm, by rw [hc]; exact h.count,
    by rw [hsem, hc, hnot]; exact h.sem, by rw [hc, hsem]; exact h.phase,
    fun j h1 h2 => by rw [hg j h1 h2, hc]; exact h.gbf j h1 h2⟩

/-- One step of a consumer that leaves the queue's sources as they are. -/
theorem LaneInv.setPhase (h : LaneInv A Nbf num val init s i done qs) (sem : ℕ) (p : Phase ι)
    (hsem : sem + p.taken = s.sem i + (s.cons i).phase.taken) (hok : p.Ok Nbf num i sem done.length qs)
    (hpart : ∀ j, segStart Nbf i ≤ j → j < segStop Nbf i → p.part val qs j = (s.cons i).phase.part val qs j) :
    LaneInv A Nbf num val init ({ s with sem := Function.update s.sem i sem }.setCons i ⟨(s.cons i).count, p⟩) i done qs := by
  refine ⟨h.queue, h.nodup, h.mem, ?_, ?_, ?_, fun j h1 h2 => ?_⟩
  · simpa [Pipe.setCons] using h.count
  · have := h.sem
    simp only [Pipe.setCons, Function.update_self]
    omega
  · simpa [Pipe.setCons] using hok
  · simpa [Pipe.setCons, hpart j h1 h2] using h.gbf j h1 h2

/-- The same with the semaphore left alone. -/
theorem LaneInv.setPhase' (h : LaneInv A Nbf num val init s i done qs) (p : Phase ι)
    (htaken : p.taken = (s.cons i).phase.taken) (hok : p.Ok Nbf num i (s.sem i) done.length qs)
    (hpart : ∀ j, segStart Nbf i ≤ j → j < segStop Nbf i → p.part val qs j = (s.cons i).phase.part val qs j) :
    LaneInv A Nbf num val init (s.setCons i ⟨(s.cons i).count, p⟩) i done qs := by
  have h' := h.setPhase (s.sem i) p (by rw [htaken]) hok hpart
  rwa [Function.update_eq_self] at h'

/-- The other queues do not see a consumer's step. -/
theorem pipeInv_cons {t : Pipe ι} (h : PipeInv A Nbf num val init s) (hpc : t.pc = s.pc)
    (hq : ∀ k, k ≠ i → t.q k = s.q k) (hsem : ∀ k, k ≠ i → t.sem k = s.sem k) (hc : ∀ k, k ≠ i → t.cons k = s.cons k)
    (hg : ∀ k, k ≠ i → ∀ j, segStart Nbf k ≤ j → j < segStop Nbf k → t.gbf j = s.gbf j)
    (hi : ∀ done qs, LaneInv A Nbf num val init s i done qs → ∃ done' qs', LaneInv A Nbf num val init t i done' qs') :
    PipeInv A Nbf num val init t := by
  refine ⟨by rw [hpc]; exact h.active, by rw [hpc]; exact h.le_nine, fun k => ?_⟩
  obtain ⟨done, qs, hk⟩ := h.lanes k
  by_cases hki : k = i
  · subst hki; exact hi done qs hk
  · exact ⟨done, qs, hk.frame (hq k hki) (hsem k hki) (hc k hki) (by rw [hpc]; simp) (by rw [hpc]; simp) (hg k hki)⟩

/-- A consumer that goes past its semaphore. -/
theorem pipeInv_pass (h : PipeInv A Nbf num val init s) (ht : (s.cons i).phase.taken = 0) (hpos : 0 < s.sem i)
    (hp : ∀ qs j, (s.cons i).phase.part val qs j = 0) :
    PipeInv A Nbf num val init ({ s with sem := Function.update s.sem i (s.sem i - 1) }.setCons i
      ⟨(s.cons i).count, .front⟩) := by
  refine pipeInv_cons (i := i) h rfl (fun _ _ => rfl) (fun k hk => ?_) (fun k hk => ?_) (fun _ _ _ _ _ => rfl)
    fun done qs hl => ⟨done, qs, hl.setPhase _ _ ?_ trivial fun j _ _ => ?_⟩
  · simp [Pipe.setCons, hk]
  · simp [Pipe.setCons, hk]
  · rw [ht]
    simp only [Phase.taken]
    omega
  · rw [hp]; rfl

/-- A consumer's step on its phase alone. -/
theorem pipeInv_phase (h : PipeInv A Nbf num val init s) (p : Phase ι) (htaken : p.taken = (s.cons i).phase.taken)
    (hl : ∀ done qs, LaneInv A Nbf num val init s i done qs → p.Ok Nbf num i (s.sem i) done.length qs ∧
      ∀ j, segStart Nbf i ≤ j → j < segStop Nbf i → p.part val qs j = (s.cons i).phase.part val qs j) :
    PipeInv A Nbf num val init (s.setCons i ⟨(s.cons i).count, p⟩) := by
  refine pipeInv_cons (i := i) h rfl (fun _ _ => rfl) (fun _ _ => rfl) (fun k hk => ?_) (fun _ _ _ _ _ => rfl)
    fun done qs hi => ⟨done, qs, hi.setPhase' p htaken (hl done qs hi).1 (hl done qs hi).2⟩
  simp [Pipe.setCons, hk]

theorem pipeInv_xor {g : GbfSeg ι} {c : ℕ} {b : Block} (h : PipeInv A Nbf num val init s)
    (hp : (s.cons i).phase = .xoring g c) (hc : c < g.stop) (hb : c < Nbf → b = val g.src c) :
    PipeInv A Nbf num val init ({ s with gbf := Function.update s.gbf c (s.gbf c ^^^ b) }.setCons i
      ⟨(s.cons i).count, .xoring g (c + 1)⟩) := by
  obtain ⟨done₀, qs₀, hl₀⟩ := h.lanes i
  obtain ⟨⟨src, rest, rfl, rfl⟩, hc1, -⟩ : Phase.Ok Nbf num i (s.sem i) done₀.length qs₀ (.xoring g c) := hp ▸ hl₀.phase
  have hb' := hb (hc.trans_le (segStop_le Nbf i))
  refine pipeInv_cons (i := i) h rfl (fun _ _ => rfl) (fun _ _ => rfl) (fun k hk => by simp [Pipe.setCons, hk])
    (fun k hk j h1 h2 => ?_) fun done qs hl => ⟨done, qs, ?_⟩
  · exact Function.update_of_ne (by rintro rfl; exact hk (lane_unique h1 h2 hc1 hc)) _ _
  · have hok : Phase.Ok Nbf num i (s.sem i) done.length qs (.xoring (gbfSeg Nbf i src) c) := hp ▸ hl.phase
    obtain ⟨⟨src', rest', rfl, hg⟩, -, hc2⟩ := hok
    have hsrc : src = src' := congrArg GbfSeg.src hg
    subst hsrc
    refine ⟨hl.queue, hl.nodup, hl.mem, by simpa [Pipe.setCons] using hl.count, ?_, ?_, fun j h1 h2 => ?_⟩
    · have hsem := hl.sem
      rw [hp] at hsem
      simpa [Pipe.setCons, Phase.taken] using hsem
    · simp only [Pipe.setCons, Function.update_self]
      exact ⟨⟨src, rest', rfl, rfl⟩, by omega, hc⟩
    · have hj := hl.gbf j h1 h2
      rw [hp] at hj
      simp only [Pipe.setCons, Function.update_self, Phase.part] at hj ⊢
      -- the cell of this round gets its block, the others have theirs or not as before
      by_cases hjc : j = c
      · subst hjc
        rw [Function.update_self, Block.xor_eq_add, hj, if_neg (lt_irrefl j), if_pos (Nat.lt_succ_self j), add_zero, hb']
        rfl
      · rw [Function.update_of_ne hjc, hj]
        by_cases hlt : j < c
        · rw [if_pos hlt, if_pos (by omega)]
        · rw [if_neg hlt, if_neg (by omega)]

section Sources

variable [DecidableEq ι]

/-- The producers past their notification have pushed. -/
theorem LaneInv.notified_le (h : LaneInv A Nbf num val init s i done qs) :
    (notified A s.pc i).card ≤ done.length + qs.length := by
  have hsub : notified A s.pc i ⊆ (done ++ qs).toFinset := by
    intro src hsrc
    have hpc := (Finset.mem_filter.1 hsrc).2
    rw [List.mem_toFinset, h.mem]
    omega
  have := Finset.card_le_card hsub
  rwa [List.toFinset_card_of_nodup h.nodup, List.length_append] at this

/-- No more segments pass a queue than there are producers. -/
theorem LaneInv.length_le (hl : LaneInv A Nbf num val init s i done qs) (h : PipeInv A Nbf num val init s) :
    done.length + qs.length ≤ A.card := by
  have hsub : (done ++ qs).toFinset ⊆ A := by
    intro src hsrc
    rw [List.mem_toFinset, hl.mem] at hsrc
    exact h.active src (by omega)
  have := Finset.card_le_card hsub
  rwa [List.toFinset_card_of_nodup hl.nodup, List.length_append] at this

/-- A consumer that has passed its semaphore has a segment in front of it. -/
theorem LaneInv.ne_nil (h : LaneInv A Nbf num val init s i done qs) (ht : (s.cons i).phase.taken = 1) : qs ≠ [] := by
  rintro rfl
  have h1 := h.notified_le
  have h2 := h.sem
  simp only [List.length_nil] at h1
  omega

theorem pc_update {src : ι} {m : ℕ} (h : PipeInv A Nbf num val init s) (hpos : 0 < s.pc src) (hm : m ≤ 9) :
    (∀ u, 0 < Function.update s.pc src m u → u ∈ A) ∧ ∀ u, Function.update s.pc src m u ≤ 9 := by
  constructor
  · intro u hu
    by_cases hus : u = src
    · subst hus; exact h.active u hpos
    · rw [Function.update_of_ne hus] at hu; exact h.active u hu
  · intro u
    by_cases hus : u = src
    · subst hus; rwa [Function.update_self]
    · rw [Function.update_of_ne hus]; exact h.le_nine u

theorem pipeInv_begin {src : ι} (h : PipeInv A Nbf num val init s) (hsrc : src ∈ A) (hpc : s.pc src = 0) :
    PipeInv A Nbf num val init (s.begin src) := by
  refine ⟨fun u hu => ?_, fun u => ?_, fun k => ?_⟩
  · by_cases hus : u = src
    · subst hus; exact hsrc
    · exact h.active u (by simpa [Pipe.begin, hus] using hu)
  · by_cases hus : u = src
    · subst hus; simp [Pipe.begin]
    · simpa [Pipe.begin, hus] using h.le_nine u
  · obtain ⟨done, qs, hk⟩ := h.lanes k
    refine ⟨done, qs, hk.frame rfl rfl rfl (fun u => ?_) (fun u => ?_) fun _ _ _ => rfl⟩
    · exact pc_update_iff (by omega) _ (by omega) u
    · exact pc_update_iff (by omega) _ (by omega) u

/-- The other queues do not see a producer's step. -/
theorem pipeInv_produce {m : ℕ} (h : PipeInv A Nbf num val init s) (src : ι) (hpos : 0 < s.pc src) (hlt : s.pc src < m) (hm : m ≤ 9)
    (hpc : t.pc = Function.update s.pc src m) (hgbf : t.gbf = s.gbf) (hq : ∀ k, k ≠ i → t.q k = s.q k)
    (hsem : ∀ k, k ≠ i → t.sem k = s.sem k) (hc : ∀ k, k ≠ i → t.cons k = s.cons k)
    (hside : ∀ k : Fin 4, k ≠ i → (2 * k.val + 1 < s.pc src ↔ 2 * k.val + 1 < m) ∧ (2 * k.val + 2 < s.pc src ↔ 2 * k.val + 2 < m))
    (hi : ∀ done qs, LaneInv A Nbf num val init s i done qs → ∃ done' qs', LaneInv A Nbf num val init t i done' qs') :
    PipeInv A Nbf num val init t := by
  obtain ⟨hact, hle⟩ := pc_update h hpos hm
  refine ⟨by rwa [hpc], by rwa [hpc], fun k => ?_⟩
  obtain ⟨done, qs, hk⟩ := h.lanes k
  by_cases hki : k = i
  · subst hki; exact hi done qs hk
  · refine ⟨done, qs, hk.frame (hq k hki) (hsem k hki) (hc k hki) (fun u => ?_) (fun u => ?_) fun _ _ _ => by rw [hgbf]⟩
    · rw [hpc]; exact pc_update_iff hlt _ (hside k hki).1 u
    · rw [hpc]; exact pc_update_iff hlt _ (hside k hki).2 u

theorem pipeInv_push {src : ι} (h : PipeInv A Nbf num val init s) (hpc : s.pc src = 2 * i.val + 1) :
    PipeInv A Nbf num val init { s with
      pc := Function.update s.pc src (2 * i.val + 2)
      q := Function.update s.q i (s.q i ++ [gbfSeg Nbf i src]) } := by
  refine pipeInv_produce (i := i) (m := 2 * i.val + 2) h src (by omega) (by omega) (by omega) rfl rfl
    (fun k hk => by simp [hk]) (fun _ _ => rfl) (fun _ _ => rfl) (fun k hk => by omega) fun done qs hk => ?_
  have hnot : src ∉ done ++ qs := fun hmem => by have := (hk.mem src).1 hmem; omega
  have hnotified : notified A (Function.update s.pc src (2 * i.val + 2)) i = notified A s.pc i := by
    ext u
    simp only [notified, Finset.mem_filter]
    exact and_congr_right fun _ => pc_update_iff (by omega) _ (by omega) u
  refine ⟨done, qs ++ [src], by simp [hk.queue], ?_, fun u => ?_, hk.count, by rw [hnotified]; exact hk.sem, hk.phase.push src,
    fun j h1 h2 => ?_⟩
  · rw [← List.append_assoc]
    refine List.nodup_append.2 ⟨hk.nodup, List.nodup_singleton src, fun a ha b hb => ?_⟩
    rw [List.mem_singleton.1 hb]
    rintro rfl
    exact hnot ha
  · rw [← List.append_assoc, List.mem_append, List.mem_singleton, hk.mem]
    by_cases hu : u = src
    · subst hu; simp
    · simp [hu]
  · rw [hk.phase.part_push]
    exact hk.gbf j h1 h2

theorem pipeInv_notify {src : ι} (h : PipeInv A Nbf num val init s) (hpc : s.pc src = 2 * i.val + 2) :
    PipeInv A Nbf num val init { s with
      pc := Function.update s.pc src (2 * i.val + 3)
      sem := Function.update s.sem i (s.sem i + 1)
      cons := Function.update s.cons i ⟨(s.cons i).count, (s.cons i).phase.notify⟩ } := by
  refine pipeInv_produce (i := i) (m := 2 * i.val + 3) h src (by omega) (by omega) (by omega) rfl rfl
    (fun _ _ => rfl) (fun k hk => by simp [hk]) (fun k hk => by simp [hk]) (fun k hk => by omega) fun done qs hk => ?_
  have hnew : notified A (Function.update s.pc src (2 * i.val + 3)) i = insert src (notified A s.pc i) := by
    ext u
    simp only [notified, Finset.mem_insert, Finset.mem_filter]
    by_cases hu : u = src
    · subst hu; simp [h.active u (by omega)]
    · simp [hu]
  refine ⟨done, qs, hk.queue, hk.nodup, fun u => (hk.mem u).trans ?_, by simpa using hk.count, ?_, by simpa using hk.phase.notify,
    fun j h1 h2 => by simpa using hk.gbf j h1 h2⟩
  · exact (pc_update_iff (by omega) _ (by omega) u).symm
  · have hnmem : src ∉ notified A s.pc i := by simp [notified, hpc]
    have := hk.sem
    simp only [hnew, Finset.card_insert_of_notMem hnmem, Function.update_self, Phase.notify_taken]
    omega

theorem pipeInv_front {g : GbfSeg ι} {rest : List (GbfSeg ι)} (h : PipeInv A Nbf num val init s)
    (hp : (s.cons i).phase = .front) (hq : s.q i = g :: rest) :
    PipeInv A Nbf num val init (s.setCons i ⟨(s.cons i).count, .xoring g g.start⟩) := by
  apply pipeInv_phase h _ (by rw [hp]; rfl)
  intro done qs hl
  obtain ⟨src, rest', rfl⟩ := List.exists_cons_of_ne_nil (hl.ne_nil (by rw [hp]; rfl))
  have hg : g = gbfSeg Nbf i src := by
    have hqs := hl.queue
    rw [hq, List.map_cons] at hqs
    exact (List.cons.inj hqs).1
  subst hg
  refine ⟨⟨⟨src, rest', rfl, rfl⟩, le_rfl, segStart_le_stop Nbf i⟩, fun j h1 _ => ?_⟩
  rw [hp]
  exact if_neg (not_lt.2 h1)

theorem pipeInv_pop (h : PipeInv A Nbf num val init s) (hp : (s.cons i).phase = .pop) :
    PipeInv A Nbf num val init ({ s with q := Function.update s.q i (s.q i).tail }.setCons i
      ⟨(s.cons i).count + 1, .wait⟩) := by
  refine pipeInv_cons (i := i) h rfl (fun k hk => by simp [Pipe.setCons, hk]) (fun _ _ => rfl)
    (fun k hk => by simp [Pipe.setCons, hk]) (fun _ _ _ _ _ => rfl) fun done qs hl => ?_
  obtain ⟨src, rest, rfl⟩ := List.exists_cons_of_ne_nil (hl.ne_nil (by rw [hp]; rfl))
  have happ : (done ++ [src]) ++ rest = done ++ src :: rest := by simp
  refine ⟨done ++ [src], rest, ?_, ?_, ?_, ?_, ?_, by simp [Pipe.setCons, Phase.Ok], fun j h1 h2 => ?_⟩
  · simp [Pipe.setCons, hl.queue]
  · rw [happ]; exact hl.nodup
  · rw [happ]; exact hl.mem
  · simp [Pipe.setCons, hl.count]
  · have hsem := hl.sem
    rw [hp] at hsem
    simp only [Phase.taken, Pipe.setCons, Function.update_self, List.length_append, List.length_singleton] at hsem ⊢
    omega
  · have hj := hl.gbf j h1 h2
    rw [hp] at hj
    simpa [Pipe.setCons, Phase.part, add_assoc] using hj

/-- Every step keeps the invariant, when a consumer finds the blocks `val` for the producers that have
reached their pushes. -/
theorem pipeInv_step {contrib : ι → ℕ → Except Fault Block} (h : PipeInv A Nbf num val init s)
    (hval : ∀ src, 0 < s.pc src → ∀ j, j < Nbf → ∀ b, contrib src j = .ok b → b = val src j)
    (hst : PipeStep Nbf num contrib s t) : PipeInv A Nbf num val init t := by
  cases hst with
  | push hpc => exact pipeInv_push h hpc
  | notify hpc => exact pipeInv_notify h hpc
  | wait hp _ hs => exact pipeInv_pass h (by rw [hp]; rfl) hs fun _ _ => by rw [hp]; rfl
  | @wake i hp =>
    obtain ⟨done, qs, hl⟩ := h.lanes i
    have hs := hl.phase
    rw [hp] at hs
    exact pipeInv_pass h (by rw [hp]; rfl) hs fun _ _ => by rw [hp]; rfl
  | block hp hlt hs =>
    exact pipeInv_phase h _ (by rw [hp]; rfl) fun done qs hl =>
      ⟨⟨hs, by rw [← hl.count]; exact hlt⟩, fun j _ _ => by rw [hp]; rfl⟩
  | front hp hq => exact pipeInv_front h hp hq
  | @xor i g c b hp hc hb =>
    refine pipeInv_xor h hp hc fun hlt => hval g.src ?_ c hlt b hb
    obtain ⟨done, qs, hl⟩ := h.lanes i
    obtain ⟨⟨src, rest, rfl, rfl⟩, -⟩ : Phase.Ok Nbf num i (s.sem i) done.length qs (.xoring g c) := hp ▸ hl.phase
    have := (hl.mem src).1 (by simp)
    change 0 < s.pc src
    omega
  | @xored i g c hp hc =>
    apply pipeInv_phase h _ (by rw [hp]; rfl)
    intro done qs hl
    obtain ⟨⟨src, rest, rfl, rfl⟩, -⟩ : Phase.Ok Nbf num i (s.sem i) done.length qs (.xoring g c) := hp ▸ hl.phase
    refine ⟨List.cons_ne_nil _ _, fun j _ h2 => ?_⟩
    rw [hp]
    exact (if_pos (h2.trans_le hc)).symm
  | pop hp => exact pipeInv_pop h hp

/-! ## No step is lost, and none is missing -/

/-- A consumer never reads the front of an empty queue. -/
theorem PipeInv.front_ne_nil (h : PipeInv A Nbf num val init s) (hp : (s.cons i).phase = .front) : s.q i ≠ [] := by
  obtain ⟨done, qs, hl⟩ := h.lanes i
  rw [hl.queue]
  simpa using hl.ne_nil (by rw [hp]; rfl)

omit [DecidableEq ι] in
/-- A consumer works on a segment in the GBF, of a producer that has begun. -/
theorem PipeInv.xoring {g : GbfSeg ι} {j : ℕ} (h : PipeInv A Nbf num val init s) (hp : (s.cons i).phase = .xoring g j) :
    0 < s.pc g.src ∧ g.stop ≤ Nbf := by
  obtain ⟨done, qs, hl⟩ := h.lanes i
  obtain ⟨⟨src, rest, rfl, rfl⟩, -⟩ : Phase.Ok Nbf num i (s.sem i) done.length qs (.xoring g j) := hp ▸ hl.phase
  have := (hl.mem src).1 (by simp)
  exact ⟨by change 0 < s.pc src; omega, segStop_le Nbf i⟩

omit [DecidableEq ι] in
/-- Only the blocks of producers that have begun count. -/
theorem PipeInv.congr {val' : ι → ℕ → Block} (h : PipeInv A Nbf num val init s) (hv : ∀ src, 0 < s.pc src → val' src = val src) :
    PipeInv A Nbf num val' init s := by
  refine ⟨h.active, h.le_nine, fun i => ?_⟩
  obtain ⟨done, qs, hl⟩ := h.lanes i
  have hbegun : ∀ src ∈ done ++ qs, val' src = val src := fun src hsrc => hv src (by have := (hl.mem src).1 hsrc; omega)
  have hdone : ∀ j, (done.map fun src => val' src j) = done.map fun src => val src j := fun j =>
    List.map_congr_left fun src hsrc => by rw [hbegun src (List.mem_append_left _ hsrc)]
  have hpart : ∀ j, (s.cons i).phase.part val' qs j = (s.cons i).phase.part val qs j := by
    intro j
    cases qs with
    | nil => cases (s.cons i).phase <;> rfl
    | cons src rest =>
      have hsrc := hbegun src (by simp)
      cases (s.cons i).phase <;> simp [Phase.part, hsrc]
  exact ⟨done, qs, hl.queue, hl.nodup, hl.mem, hl.count, hl.sem, hl.phase,
    fun j h1 h2 => by rw [hdone, hpart]; exact hl.gbf j h1 h2⟩

/-- The segments lie in the GBF. -/
theorem pipeStep_outside {contrib : ι → ℕ → Except Fault Block} (h : PipeInv A Nbf num val init s)
    (hst : PipeStep Nbf num contrib s t) {j : ℕ} (hj : Nbf ≤ j) : t.gbf j = s.gbf j := by
  cases hst with
  | @xor i g c b hp hc _ =>
    obtain ⟨done, qs, hl⟩ := h.lanes i
    obtain ⟨⟨src, rest, rfl, rfl⟩, -⟩ : Phase.Ok Nbf num i (s.sem i) done.length qs (.xoring g c) := hp ▸ hl.phase
    exact Function.update_of_ne (by have := hc.trans_le (segStop_le Nbf i); omega) _ _
  | push | notify | wait | block | wake | front | xored | pop => rfl

/-- A producer that has begun is through when nothing can move: it never waits. -/
theorem pc_of_stopped {n : ℕ} {contrib : ι → ℕ → Except Fault Block} (h : PipeInv A Nbf num val init s)
    (hstop : ∀ t, ¬ PipeStep Nbf n contrib s t) {src : ι} (h0 : 0 < s.pc src) : s.pc src = 9 := by
  have hle := h.le_nine src
  by_contra hne
  -- between 1 and 8 the producer is at a push or at a notification
  rcases Nat.even_or_odd' (s.pc src) with ⟨i, hi | hi⟩
  · have hlt : i - 1 < 4 := by omega
    exact hstop _ (.notify (show s.pc src = 2 * (⟨i - 1, hlt⟩ : Fin 4).val + 2 by simp only; omega))
  · have hlt : i < 4 := by omega
    exact hstop _ (.push (show s.pc src = 2 * (⟨i, hlt⟩ : Fin 4).val + 1 from hi))

/-- When all producers are through and nothing can move, all consumers are through. -/
theorem done_of_stopped {contrib : ι → ℕ → Except Fault Block} (h : PipeInv A Nbf A.card val init s)
    (hpc : ∀ src ∈ A, s.pc src = 9) (hc : ∀ src ∈ A, ∀ j, j < Nbf → ∃ b, contrib src j = .ok b)
    (hstop : ∀ t, ¬ PipeStep Nbf A.card contrib s t) : s.Done A.card := by
  intro i
  obtain ⟨done, qs, hl⟩ := h.lanes i
  have hnot : (notified A s.pc i).card = A.card := by
    unfold notified
    rw [Finset.filter_true_of_mem fun src hsrc => by rw [hpc src hsrc]; omega]
  have hok := hl.phase
  have hsem := hl.sem
  rw [hnot] at hsem
  match hp : (s.cons i).phase with
  | .wait =>
    refine ⟨rfl, not_lt.1 fun hlt => ?_⟩
    rcases Nat.eq_zero_or_pos (s.sem i) with h0 | h0
    · exact hstop _ (.block hp hlt h0)
    · exact hstop _ (.wait hp hlt h0)
  | .blocked =>
    -- a consumer asleep with all notifications made would have had them all
    rw [hp] at hok hsem
    simp only [Phase.Ok, Phase.taken] at hok hsem
    omega
  | .woken => exact absurd (.wake hp) (hstop _)
  | .front =>
    obtain ⟨g, rest, hq⟩ := List.exists_cons_of_ne_nil (h.front_ne_nil hp)
    exact absurd (.front hp hq) (hstop _)
  | .xoring g j =>
    by_cases hj : j < g.stop
    · obtain ⟨hpos, hle⟩ := h.xoring hp
      obtain ⟨b, hb⟩ := hc g.src (h.active _ hpos) j (hj.trans_le hle)
      exact absurd (.xor hp hj hb) (hstop _)
    · exact absurd (.xored hp (not_lt.1 hj)) (hstop _)
  | .pop => exact absurd (.pop hp) (hstop _)

/-- When all producers are through and nothing can move, all consumers are through or one has no block to add. -/
theorem done_or_error_of_stopped {contrib : ι → ℕ → Except Fault Block} (h : PipeInv A Nbf A.card val init s)
    (hpc : ∀ src ∈ A, s.pc src = 9) (hstop : ∀ t, ¬ PipeStep Nbf A.card contrib s t) :
    s.Done A.card ∨ ∃ i g j f, (s.cons i).phase = .xoring g j ∧ j < g.stop ∧ contrib g.src j = .error f := by
  by_contra hno
  push Not at hno
  obtain ⟨hnd, hok⟩ := hno
  -- with blocks for the cells that have none, nothing could move either
  let contrib' : ι → ℕ → Except Fault Block := fun src j => .ok ((contrib src j).toOption.getD 0)
  refine hnd (done_of_stopped h hpc (fun src _ j _ => ⟨_, show contrib' src j = .ok _ from rfl⟩) fun t ht => ?_)
  cases ht with
  | @xor i g j b hp hj _ =>
    cases hc : contrib g.src j with
    | ok b' => exact hstop _ (.xor hp hj hc)
    | error f => exact hok i g j f hp hj hc
  | push hp => exact hstop _ (.push hp)
  | notify hp => exact hstop _ (.notify hp)
  | wait hp hlt hsem => exact hstop _ (.wait hp hlt hsem)
  | block hp hlt hsem => exact hstop _ (.block hp hlt hsem)
  | wake hp => exact hstop _ (.wake hp)
  | front hp hq => exact hstop _ (.front hp hq)
  | xored hp hj => exact hstop _ (.xored hp hj)
  | pop hp => exact hstop _ (.pop hp)

/-- When all consumers are through, the queues are empty. -/
theorem PipeInv.queue_nil (h : PipeInv A Nbf A.card val init s) (hd : s.Done A.card) (i : Fin 4) :
    s.q i = [] := by
  obtain ⟨done, qs, hl⟩ := h.lanes i
  have h1 := hl.length_le h
  have h2 := (hd i).2
  rw [hl.count] at h2
  have hqs : qs = [] := List.eq_nil_of_length_eq_zero (by omega)
  rw [hl.queue, hqs]; rfl

/-- And every cell holds each producer's block once. -/
theorem PipeInv.gbf_done (h : PipeInv A Nbf A.card val init s) (hd : s.Done A.card) {j : ℕ}
    (hj : j < Nbf) : s.gbf j = init j + ∑ src ∈ A, val src j := by
  obtain ⟨i, h1, h2⟩ := exists_lane hj
  obtain ⟨done, qs, hl⟩ := h.lanes i
  have hcount := (hd i).2
  rw [hl.count] at hcount
  have hnd : done.Nodup := hl.nodup.of_append_left
  have hall : done.toFinset = A := by
    refine Finset.eq_of_subset_of_card_le (fun src hsrc => ?_) (by rw [List.toFinset_card_of_nodup hnd]; exact hcount)
    have hmem := (hl.mem src).1 (List.mem_append_left _ (List.mem_toFinset.1 hsrc))
    exact h.active src (by omega)
  rw [hl.gbf j h1 h2, (hd i).1, ← List.sum_toFinset (fun src => val src j) hnd, hall]
  simp [Phase.part]

end Sources

end Inv

/-! ## Every run ends -/

section Left

variable {ι : Type}

/-- How far a consumer is in the round for one segment. -/
def Phase.rank (Nbf : ℕ) : Phase ι → ℕ
  | .wait => 0
  | .blocked => 1
  | .woken => 2
  | .front => 3
  | .xoring _ j => 4 + j
  | .pop => 5 + Nbf

/-- What a consumer has left to do. -/
def Consumer.left (Nbf num : ℕ) (c : Consumer ι) : ℕ := (num - c.count) * (Nbf + 6) + (Nbf + 6 - c.phase.rank Nbf)

theorem left_phase_lt {Nbf num : ℕ} {c : Consumer ι} {p : Phase ι} (h : c.phase.rank Nbf < p.rank Nbf) (hp : c.phase.rank Nbf < Nbf + 6) :
    (Consumer.mk c.count p).left Nbf num < c.left Nbf num := by
  simp only [Consumer.left]
  omega

/-- What the producers of `A` and the consumers have left to do. -/
def Pipe.left (A : Finset ι) (Nbf num : ℕ) (s : Pipe ι) : ℕ := ∑ src ∈ A, (9 - s.pc src) + ∑ i, (s.cons i).left Nbf num

theorem left_setCons_lt {A : Finset ι} {Nbf num : ℕ} (s : Pipe ι) (i : Fin 4) {c : Consumer ι} (hc : c.left Nbf num < (s.cons i).left Nbf num) :
    (s.setCons i c).left A Nbf num < s.left A Nbf num := by
  refine Nat.add_lt_add_left (Finset.sum_lt_sum (fun k _ => ?_) ⟨i, Finset.mem_univ i, by simpa [Pipe.setCons] using hc⟩) _
  by_cases hk : k = i
  · subst hk; simpa [Pipe.setCons] using hc.le
  · simp [Pipe.setCons, hk]

variable [DecidableEq ι]

theorem sum_pc_lt {A : Finset ι} {pc : ι → ℕ} {src : ι} {m : ℕ} (hsrc : src ∈ A) (h : pc src < m) (hm : m ≤ 9) :
    ∑ u ∈ A, (9 - Function.update pc src m u) < ∑ u ∈ A, (9 - pc u) := by
  refine Finset.sum_lt_sum (fun u _ => ?_) ⟨src, hsrc, by rw [Function.update_self]; omega⟩
  by_cases hu : u = src
  · subst hu; rw [Function.update_self]; omega
  · rw [Function.update_of_ne hu]

theorem begin_left {A : Finset ι} (Nbf num : ℕ) {s : Pipe ι} {src : ι} (hsrc : src ∈ A) (hpc : s.pc src = 0) :
    (s.begin src).left A Nbf num < s.left A Nbf num :=
  Nat.add_lt_add_right (sum_pc_lt hsrc (by omega) (by omega)) _

/-- Every step leaves less to do. -/
theorem pipeStep_left {A : Finset ι} {Nbf : ℕ} {val : ι → ℕ → Block} {init : ℕ → Block} {s t : Pipe ι}
    {contrib : ι → ℕ → Except Fault Block} (h : PipeInv A Nbf A.card val init s)
    (hst : PipeStep Nbf A.card contrib s t) : t.left A Nbf A.card < s.left A Nbf A.card := by
  cases hst with
  | @push src i hpc => exact Nat.add_lt_add_right (sum_pc_lt (h.active src (by omega)) (by omega) (by omega)) _
  | @notify src i hpc =>
    refine Nat.add_lt_add_of_lt_of_le (sum_pc_lt (h.active src (by omega)) (by omega) (by omega)) (Finset.sum_le_sum fun k _ => ?_)
    by_cases hk : k = i
    · subst hk
      simp only [Consumer.left, Function.update_self]
      cases (s.cons k).phase <;> simp [Phase.notify, Phase.rank]
    · simp only [Function.update_of_ne hk, le_refl]
  | @wait i hp _ _ => exact left_setCons_lt _ i (left_phase_lt (by rw [hp]; simp [Phase.rank]) (by rw [hp]; simp [Phase.rank]))
  | @wake i hp => exact left_setCons_lt _ i (left_phase_lt (by rw [hp]; simp [Phase.rank]) (by rw [hp]; simp [Phase.rank]))
  | @block i hp _ _ => exact left_setCons_lt _ i (left_phase_lt (by rw [hp]; simp [Phase.rank]) (by rw [hp]; simp [Phase.rank]))
  | @front i g rest hp _ =>
    exact left_setCons_lt _ i (left_phase_lt (by rw [hp]; simp only [Phase.rank]; omega) (by rw [hp]; simp [Phase.rank]))
  | @xor i g j b hp hj _ =>
    obtain ⟨done, qs, hl⟩ := h.lanes i
    obtain ⟨⟨src, rest, rfl, rfl⟩, -⟩ : Phase.Ok Nbf _ i (s.sem i) done.length qs (.xoring g j) := hp ▸ hl.phase
    have hle := segStop_le Nbf i
    change j < segStop Nbf i at hj
    exact left_setCons_lt _ i (left_phase_lt (by rw [hp]; simp only [Phase.rank]; omega)
      (by rw [hp]; simp only [Phase.rank]; omega))
  | @xored i g j hp _ =>
    obtain ⟨done, qs, hl⟩ := h.lanes i
    obtain ⟨-, -, hj⟩ : Phase.Ok Nbf _ i (s.sem i) done.length qs (.xoring g j) := hp ▸ hl.phase
    have hle := segStop_le Nbf i
    exact left_setCons_lt _ i (left_phase_lt (by rw [hp]; simp only [Phase.rank]; omega)
      (by rw [hp]; simp only [Phase.rank]; omega))
  | @pop i hp =>
    obtain ⟨done, qs, hl⟩ := h.lanes i
    -- the segment popped is one of a producer, so it was still to be counted
    have hlt : (s.cons i).count < A.card := by
      have h1 := hl.length_le h
      have h2 := List.length_pos_iff.2 (hl.ne_nil (by rw [hp]; rfl))
      rw [hl.count]
      omega
    apply left_setCons_lt _ i
    simp only [Consumer.left, hp, Phase.rank]
    have hsplit : A.card - (s.cons i).count = A.card - ((s.cons i).count + 1) + 1 := by omega
    rw [hsplit, Nat.add_mul]
    omega

end Left

end Mpsi
