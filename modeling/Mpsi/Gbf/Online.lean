/-
The online phase of one party: the producers of `run_online_apport`, two for each other party, with
their strings and functions, over the pipeline of `run_xoring`.

`online_pipeline` collects what holds of it in every order of the steps: no state is stuck before
the consumers are through, none reads the front of an empty queue, and at the end the queues are
empty and every cell holds each producer's string for it exactly once.
-/
import Mpsi.Lib.Reach
import Mpsi.Gbf.Pipeline
import Mathlib.Data.Finset.Prod

namespace Mpsi

open Relation

/-- The two threads of `run_online_apport`: `online_apport_receiver`, whose segments are `Gbf_seg_recv`
(type 0), and `online_apport_sender` with `Gbf_seg_sender` (type 1). -/
inductive Role where
  | receiver
  | sender
  deriving DecidableEq

/-- A producer: the place of the `Party` instance and its role. -/
abbrev Source := ℕ × Role

/-- What the segments of a party point to: its Bloom filter, and for each instance the strings and the
functions of its two roles. -/
structure Online where
  BF : List Bool
  strings_choices : ℕ → List Block
  func_recv : ℕ → List ℤ
  strings : ℕ → List (Block × Block)
  func_sender : ℕ → List ℤ

/-- What `run_xoring` adds to cell `j` for a segment: `(*toXOR)[order[j]]` of a receiver and
`(*toXOR)[order[j]][BF->get_bit(j)]` of a sender. -/
def contribution (out : Option Outside) (d : Online) : Source → ℕ → Except Fault Block
  | (p, .receiver), j => do
    let k ← readAt (out.map Outside.ints) (d.func_recv p) j
    readAt (out.map Outside.blocks) (d.strings_choices p) k
  | (p, .sender), j => do
    let k ← readAt (out.map Outside.ints) (d.func_sender p) j
    let s ← readAt (out.map Outside.pairs) (d.strings p) k
    let v ← readAt none d.BF j
    pure (if v then s.2 else s.1)

/-- The producers of a party with `n` instances. -/
def producers (n : ℕ) : Finset Source := Finset.range n ×ˢ {.receiver, .sender}

theorem card_producers (n : ℕ) : (producers n).card = n * 2 := by
  unfold producers
  rw [Finset.card_product, Finset.card_range]
  rfl

/-- One step of the online phase of a party with `parties - 1` instances. What a producer does before
its pushes (`arrange_the_indexes` and `send_func`, or `recv_func`) is one step here. -/
inductive OnlineStep (out : Option Outside) (parties : ℕ) (d : Online) : Pipe Source → Pipe Source → Prop
  | begin {s : Pipe Source} {src : Source} : src ∈ producers (parties - 1) → s.pc src = 0 →
      OnlineStep out parties d s (s.begin src)
  | pipe {s t : Pipe Source} : PipeStep d.BF.length ((parties - 1) * 2) (contribution out d) s t →
      OnlineStep out parties d s t

/-- The states of the online phase from a GBF `gbf₀`. -/
def OnlineReaches (out : Option Outside) (parties : ℕ) (d : Online) (gbf₀ : ℕ → Block) : Pipe Source → Prop :=
  ReflTransGen (OnlineStep out parties d) (Pipe.start gbf₀)

/-- The block of a producer for cell `j`, with `o` around the arrays. -/
def addend (o : Outside) (d : Online) : Source → ℕ → Block
  | (p, .receiver), j => peek o.blocks (d.strings_choices p) (peek o.ints (d.func_recv p) j)
  | (p, .sender), j =>
    let s := peek o.pairs (d.strings p) (peek o.ints (d.func_sender p) j)
    if d.BF.getD j false then s.2 else s.1

/-- What a producer's segments add to cell `j`, nothing where the consumer reads outside an array. -/
def value (d : Online) (src : Source) (j : ℕ) : Block :=
  match contribution none d src j with
  | .ok b => b
  | .error _ => 0

theorem value_of_ok {d : Online} {src : Source} {j : ℕ} {b : Block} (h : contribution none d src j = .ok b) :
    value d src j = b := by
  unfold value
  rw [h]

/-- What a sender's segment adds. -/
theorem contribution_sender_ok {d : Online} {p j : ℕ} {b : Block} : contribution none d (p, .sender) j = .ok b ↔
    ∃ (n : ℕ) (s : Block × Block) (bit : Bool), (d.func_sender p)[j]? = some (n : ℤ) ∧ (d.strings p)[n]? = some s ∧
      d.BF[j]? = some bit ∧ b = if bit then s.2 else s.1 := by
  simp only [contribution, Option.map_none]
  constructor
  · intro h
    obtain ⟨x, hx, h⟩ := bind_ok h
    obtain ⟨s, hs, h⟩ := bind_ok h
    obtain ⟨bit, hbit, h⟩ := bind_ok h
    cases h
    obtain ⟨n, rfl, hn⟩ := readAt_none_ok.1 hs
    obtain ⟨_, hj, hf⟩ := readAt_none_ok.1 hx
    obtain rfl := Int.natCast_inj.1 hj
    obtain ⟨_, hj, hb⟩ := readAt_none_ok.1 hbit
    obtain rfl := Int.natCast_inj.1 hj
    exact ⟨n, s, bit, hf, hn, hb, rfl⟩
  · rintro ⟨n, s, bit, hf, hn, hb, rfl⟩
    rw [readAt_none_ok.2 ⟨j, rfl, hf⟩, ok_bind, readAt_none_ok.2 ⟨n, rfl, hn⟩, ok_bind, readAt_none_ok.2 ⟨j, rfl, hb⟩]
    rfl

section Run

variable {o : Outside} {d : Online} {parties : ℕ} {gbf₀ : ℕ → Block} {s t : Pipe Source}

theorem contribution_addend (o : Outside) (d : Online) (src : Source) {j : ℕ} (hj : j < d.BF.length) :
    contribution (some o) d src j = .ok (addend o d src j) := by
  rcases src with ⟨p, _ | _⟩
  · simp only [contribution, addend, Option.map_some, readAt_peek, ok_bind]
  · simp only [contribution, addend, Option.map_some, readAt_peek, ok_bind, readAt_nat j hj,
      List.getD_eq_getElem?_getD, List.getElem?_eq_getElem hj, Option.getD_some]
    rfl

/-- The invariant of the online phase. -/
abbrev OnlineInv (o : Outside) (parties : ℕ) (d : Online) (gbf₀ : ℕ → Block) : Pipe Source → Prop :=
  PipeInv (producers (parties - 1)) d.BF.length (producers (parties - 1)).card (addend o d) gbf₀

theorem onlineInv_step (h : OnlineInv o parties d gbf₀ s) (hst : OnlineStep (some o) parties d s t) :
    OnlineInv o parties d gbf₀ t := by
  cases hst with
  | begin hsrc hpc => exact pipeInv_begin h hsrc hpc
  | pipe hst =>
    rw [← card_producers] at hst
    refine pipeInv_step h (fun src _ j hj b hb => ?_) hst
    rw [contribution_addend o d src hj] at hb
    cases hb; rfl

theorem onlineInv_of_reaches (h : OnlineReaches (some o) parties d gbf₀ s) : OnlineInv o parties d gbf₀ s :=
  Reach.inv_of_step pipeInv_start (fun _ _ => onlineInv_step) h

theorem online_done_of_stopped (h : OnlineInv o parties d gbf₀ s)
    (hstop : Reach.Stopped (OnlineStep (some o) parties d) s) : s.Done ((parties - 1) * 2) := by
  have hpc : ∀ src ∈ producers (parties - 1), s.pc src = 9 := fun src hsrc =>
    pc_of_stopped h (fun t ht => hstop t (.pipe ht)) (Nat.pos_of_ne_zero fun h0 => hstop _ (.begin hsrc h0))
  rw [← card_producers] at *
  exact done_of_stopped h hpc (fun src _ j hj => ⟨_, contribution_addend o d src hj⟩) fun t ht =>
    hstop t (.pipe (by rwa [← card_producers]))

theorem onlineStep_left (h : OnlineInv o parties d gbf₀ s) (hst : OnlineStep (some o) parties d s t) :
    t.left (producers (parties - 1)) d.BF.length (producers (parties - 1)).card <
      s.left (producers (parties - 1)) d.BF.length (producers (parties - 1)).card := by
  cases hst with
  | begin hsrc hpc => exact begin_left _ _ hsrc hpc
  | pipe hst =>
    rw [← card_producers] at hst
    exact pipeStep_left h hst

/-- The phase comes to its end. -/
theorem exists_online_done (o : Outside) (parties : ℕ) (d : Online) (gbf₀ : ℕ → Block) :
    ∃ s, OnlineReaches (some o) parties d gbf₀ s ∧ s.Done ((parties - 1) * 2) := by
  obtain ⟨s, hs, hinv, hstop⟩ := Reach.exists_stopped (I := OnlineInv o parties d gbf₀) (fun _ _ => onlineInv_step) _
    (fun _ _ => onlineStep_left) _ pipeInv_start
  exact ⟨s, hs, online_done_of_stopped hinv hstop⟩

/-- Whatever the order of the steps: the phase is never stuck before every consumer is through, no
consumer reads the front of an empty queue, and when all are through the queues are empty and every
cell has got each producer's block exactly once. -/
theorem online_pipeline (h : OnlineReaches (some o) parties d gbf₀ s) :
    (¬ s.Done ((parties - 1) * 2) → ∃ t, OnlineStep (some o) parties d s t) ∧
    (∀ i, (s.cons i).phase = .front → s.q i ≠ []) ∧
    (s.Done ((parties - 1) * 2) → (∀ i, s.q i = []) ∧
      ∀ j, j < d.BF.length → s.gbf j = gbf₀ j + ∑ src ∈ producers (parties - 1), addend o d src j) := by
  have hinv := onlineInv_of_reaches h
  refine ⟨fun hnd => ?_, fun i hp => hinv.front_ne_nil hp, fun hd => ?_⟩
  · by_contra hno
    exact hnd (online_done_of_stopped hinv fun t ht => hno ⟨t, ht⟩)
  · rw [← card_producers] at hd
    exact ⟨hinv.queue_nil hd, fun j hj => hinv.gbf_done hd hj⟩

end Run

/-- Two parties and one cell. -/
def onlineTwo : Online := ⟨[true], fun _ => [toBlock 0 5], fun _ => [0], fun _ => [(toBlock 0 1, toBlock 0 2)], fun _ => [0]⟩

theorem online_pipeline_two : ∃ s, OnlineReaches (some (Outside.filled 0)) 2 onlineTwo 0 s ∧ (∀ i, s.q i = []) ∧
    s.gbf 0 = toBlock 0 7 := by
  obtain ⟨s, hs, hd⟩ := exists_online_done (Outside.filled 0) 2 onlineTwo 0
  obtain ⟨hq, hg⟩ := (online_pipeline hs).2.2 hd
  exact ⟨s, hs, hq, (hg 0 (by decide)).trans (by decide)⟩

end Mpsi
