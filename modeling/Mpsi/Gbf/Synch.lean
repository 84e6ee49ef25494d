/-
The class `synchGBF`: a GBF in chunks, each with its mutex, and the threads of `compute_gbf` that add the
filters of the Pi to it under these locks, for any size and any chunk size.

Every mutex and every cell the threads use is there, and the threads add up in any order
(`compute_gbf_adds`); the chunks of a thread refine those of `getGbf` (`lockedGetGbf_sim`).
-/
import Mpsi.Gbf.Collect
import Mpsi.Lib.Sim

namespace Mpsi

open Thread Stream Relation

variable {κ : Type}

/-- The sizes `synchGBF(Nbf, chunks)` keeps. -/
structure SynchGBF where
  GBF_length : ℕ
  chunk_size : ℕ

/-- The two functions that add blocks under the mutex of a chunk. -/
inductive ChunkOp where
  | XORchunk (toXOR : List Block) (chunk_num : ℕ)
  | XORchunk_limited (toXOR : List Block) (chunk_num limit : ℕ)

namespace SynchGBF

variable (S : SynchGBF)

def num_of_chunks : ℕ := S.GBF_length / S.chunk_size + 1

def mtxArr_length : ℕ := S.num_of_chunks

/-- `mtxArr[chunk_num].lock()`. -/
def lock (chunk_num : ℕ) : Except Fault Unit := if chunk_num < S.mtxArr_length then .ok () else .error .outOfRange

/-- `synchGBF::XORchunk_limited` on the array `GBF`. -/
def xorChunkLimited (GBF toXOR : List Block) (chunk_num limit : ℕ) : Except Fault (List Block) := do
  S.lock chunk_num
  (List.range limit).foldlM (fun GBF (j : ℕ) => do
    let index : ℕ := chunk_num * S.chunk_size + j
    let g ← readAt none GBF index
    let x ← readAt none toXOR j
    pure (GBF.set index (g ^^^ x))) GBF

/-- `synchGBF::XORchunk`. -/
def xorChunk (GBF toXOR : List Block) (chunk_num : ℕ) : Except Fault (List Block) :=
  S.xorChunkLimited GBF toXOR chunk_num S.chunk_size

/-- The cells an action adds to, with the blocks. -/
def abs : ChunkOp → ChunkXor
  | .XORchunk toXOR chunk_num => ⟨chunk_num * S.chunk_size, toXOR⟩
  | .XORchunk_limited toXOR chunk_num _ => ⟨chunk_num * S.chunk_size, toXOR⟩

def exec : ChunkOp → List Block → Except Fault (List Block)
  | .XORchunk toXOR chunk_num, GBF => S.xorChunk GBF toXOR chunk_num
  | .XORchunk_limited toXOR chunk_num limit, GBF => S.xorChunkLimited GBF toXOR chunk_num limit

end SynchGBF

/-- `functions::get_gbf` on P0's filter of `Nbf` cells. -/
def lockedGetGbf (S : SynchGBF) (Nbf : ℕ) : Proc κ ChunkOp (List Block) Unit :=
  if S.chunk_size = 0 then .fail .divByZero
  else do
    let n := Nbf / S.chunk_size
    Prog.forEach (List.range' 0 n) fun i => do
      let chunkArr ← getBlocks S.chunk_size
      Prog.act (.XORchunk chunkArr.toList i)
    if n * S.chunk_size < Nbf then do
      let chunkArr ← getBlocks (Nbf - n * S.chunk_size)
      Prog.act (.XORchunk_limited chunkArr.toList n (Nbf - n * S.chunk_size))
    else pure ()

/-- The threads of `functions::compute_gbf`, one for each instance of P0, over the array `GBF`. -/
def synchStage (S : SynchGBF) (parties : ℕ) (GBF : List Block) :
    Stage (Wire κ) ChunkOp (List Block) Fault ℕ (fun _ : ℕ => Unit) where
  prog := fun a => if a < parties - 1 then lockedGetGbf S S.GBF_length else .ret ()
  port := fun a => ⟨none, if a < parties - 1 then some a else none⟩
  exec := S.exec
  init := GBF

/-! ## One chunk -/

section Chunk

variable {S : SynchGBF} {GBF GBF' : List Block} {d : ChunkOp} {d' : ChunkXor}

/-- The action stays inside the arrays, and adds what `d'` adds. -/
structure Locks (S : SynchGBF) (d : ChunkOp) (d' : ChunkXor) : Prop where
  abs : d' = S.abs d
  exec : ∀ GBF : List Block, GBF.length = S.GBF_length → ∃ GBF', S.exec d GBF = .ok GBF' ∧ GBF'.length = S.GBF_length ∧
    ∀ c, GBF'.getD c 0 = GBF.getD c 0 + d'.at c

/-- Adding the first `limit` blocks of `toXOR` from place `start` on. -/
theorem foldlM_xor (start : ℕ) (toXOR : List Block) : ∀ (limit : ℕ), limit ≤ toXOR.length → start + limit ≤ GBF.length →
    ∃ GBF', (List.range limit).foldlM (fun GBF (j : ℕ) => do
        let index : ℕ := start + j
        let g ← readAt none GBF index
        let x ← readAt none toXOR j
        pure (GBF.set index (g ^^^ x))) GBF = (.ok GBF' : Except Fault (List Block)) ∧ GBF'.length = GBF.length ∧
      ∀ c, GBF'.getD c 0 = GBF.getD c 0 + (ChunkXor.mk start (toXOR.take limit)).at c
  | 0, _, _ => ⟨GBF, rfl, rfl, fun c => by simp [ChunkXor.at]⟩
  | limit + 1, hl, hs => by
    obtain ⟨G, hG, hlen, hget⟩ := foldlM_xor start toXOR limit (by omega) (by omega)
    have hi : start + limit < G.length := by omega
    have hx : limit < toXOR.length := by omega
    refine ⟨G.set (start + limit) (G[start + limit] ^^^ toXOR[limit]), ?_, by rw [List.length_set, hlen], fun c => ?_⟩
    · rw [List.range_succ, List.foldlM_append, hG]
      simp only [ok_bind, List.foldlM_cons, List.foldlM_nil, readAt_nat _ hi, readAt_nat _ hx]
      rfl
    · have hold := hget c
      simp only [ChunkXor.at, List.getD_eq_getElem?_getD, List.getElem?_take] at hold ⊢
      by_cases hc : c = start + limit
      · subst hc
        -- the cell of this round was not touched before
        simp only [Nat.le_add_right, if_true, Nat.add_sub_cancel_left, lt_irrefl, if_false, Option.getD_none, add_zero,
          Nat.lt_succ_self] at hold ⊢
        rw [List.getElem?_set_self hi, List.getElem?_eq_getElem hx, ← hold, List.getElem?_eq_getElem hi]
        rfl
      · rw [List.getElem?_set_ne (fun h => hc h.symm), hold]
        by_cases hle : start ≤ c
        · have hlt : c - start < limit ↔ c - start < limit + 1 := by omega
          simp only [if_pos hle, hlt]
        · simp only [if_neg hle]

theorem xorChunkLimited_ok {toXOR : List Block} {chunk_num limit : ℕ} (hlen : GBF.length = S.GBF_length)
    (hn : chunk_num < S.mtxArr_length) (hl : limit ≤ toXOR.length) (hs : chunk_num * S.chunk_size + limit ≤ S.GBF_length) :
    ∃ GBF', S.xorChunkLimited GBF toXOR chunk_num limit = .ok GBF' ∧ GBF'.length = S.GBF_length ∧
      ∀ c, GBF'.getD c 0 = GBF.getD c 0 + (ChunkXor.mk (chunk_num * S.chunk_size) (toXOR.take limit)).at c := by
  obtain ⟨GBF', h, hlen', hget⟩ := foldlM_xor (chunk_num * S.chunk_size) toXOR limit hl (by rw [hlen]; exact hs)
  refine ⟨GBF', ?_, hlen'.trans hlen, hget⟩
  unfold SynchGBF.xorChunkLimited SynchGBF.lock
  rw [if_pos hn, ok_bind]
  exact h

theorem locks_limited {toXOR : List Block} {chunk_num limit : ℕ} (hl : toXOR.length = limit) (hn : chunk_num < S.mtxArr_length)
    (hs : chunk_num * S.chunk_size + limit ≤ S.GBF_length) :
    Locks S (.XORchunk_limited toXOR chunk_num limit) ⟨chunk_num * S.chunk_size, toXOR⟩ := by
  refine ⟨rfl, fun GBF hlen => ?_⟩
  obtain ⟨GBF', h, hlen', hget⟩ := xorChunkLimited_ok hlen hn hl.ge hs
  exact ⟨GBF', h, hlen', by rwa [List.take_of_length_le hl.le] at hget⟩

/-- A whole chunk. -/
theorem locks_whole {toXOR : List Block} {chunk_num : ℕ} (hl : toXOR.length = S.chunk_size)
    (hn : chunk_num < S.GBF_length / S.chunk_size) : Locks S (.XORchunk toXOR chunk_num) ⟨chunk_num * S.chunk_size, toXOR⟩ := by
  have hle : (chunk_num + 1) * S.chunk_size ≤ S.GBF_length :=
    (Nat.mul_le_mul_right _ hn).trans (Nat.div_mul_le_self S.GBF_length S.chunk_size)
  rw [Nat.add_mul, one_mul] at hle
  exact ⟨rfl, (locks_limited hl (Nat.lt_succ_of_lt hn) hle).exec⟩

/-- The chunks of a thread are those of `getGbf`. -/
theorem lockedGetGbf_sim (hc : 1 ≤ S.chunk_size) :
    Sim (Locks S) (lockedGetGbf (κ := κ) S S.GBF_length) (getGbf S.chunk_size S.GBF_length) := by
  have hle := Nat.div_mul_le_self S.GBF_length S.chunk_size
  unfold lockedGetGbf getGbf
  rw [if_neg (by omega)]
  refine Sim.bind (Sim.forEach fun i hi => ?_) fun _ => ?_
  · have hi' : i < S.GBF_length / S.chunk_size := by simpa using (List.mem_range'_1.1 hi).2
    exact .get fun x => Sim.act (locks_whole x.2 hi')
  · split
    · exact .get fun x => Sim.act (locks_limited x.2 (Nat.lt_succ_self _) (by omega))
    · exact .ret

theorem locks_map {l : List ChunkOp} {l' : List ChunkXor} (h : List.Forall₂ (Locks S) l l') :
    l' = l.map S.abs ∧ ∀ d ∈ l, Locks S d (S.abs d) := by
  induction h with
  | nil => exact ⟨rfl, fun _ h => (List.not_mem_nil h).elim⟩
  | @cons d d' l l' hd _ ih =>
    obtain ⟨rfl, hall⟩ := ih
    obtain rfl := hd.abs
    exact ⟨rfl, fun x hx => by
      rcases List.mem_cons.1 hx with rfl | hx
      · exact hd
      · exact hall x hx⟩

end Chunk

/-! ## All threads -/

section Threads

variable {S : SynchGBF} {parties : ℕ} {GBF : List Block} {s : Alone ℕ (Atom κ) (Pool (Wire κ) ChunkOp (List Block) Fault (fun _ : ℕ => Unit))}

/-- The actions of the threads add up in any order. -/
theorem synch_ran (hlen : GBF.length = S.GBF_length) {o : ℕ → List ChunkOp} {m : List Block}
    (h : (synchStage (κ := κ) S parties GBF).Ran o m) (hL : ∀ a, ∀ d ∈ o a, Locks S d (S.abs d)) :
    m.length = S.GBF_length ∧ ∀ A : Finset ℕ, (∀ a, a ∉ A → o a = []) → ∀ c,
      m.getD c 0 = GBF.getD c 0 + ∑ a ∈ A, addedAt ((o a).map S.abs) c := by
  induction h with
  | start => exact ⟨hlen, fun A _ c => by simp [addedAt, synchStage]⟩
  | @step o m a d m' hran hx ih =>
    have hd : Locks S d (S.abs d) := hL a d (by simp)
    obtain ⟨hm, hadd⟩ := ih fun b x hb => hL b x (by
      by_cases hba : b = a
      · subst hba; simp [hb]
      · simpa [hba] using hb)
    obtain ⟨GBF', hx', hm', hget⟩ := hd.exec m hm
    obtain rfl : GBF' = m' := Except.ok.inj (hx'.symm.trans hx)
    refine ⟨hm', fun A hA c => ?_⟩
    -- only the thread of this step has added something
    obtain ⟨ha, ho⟩ := ran_outside hA
    rw [sum_addedAt_ran S.abs ha c, hget, hadd A ho c, add_assoc]

theorem synchStage_inp {a c : ℕ} (h : ((synchStage (κ := κ) S parties GBF).port a).inp = some c) : a < parties - 1 ∧ c = a := by
  simp only [synchStage] at h
  split at h
  · rename_i ha
    exact ⟨ha, (Option.some_injective _ h).symm⟩
  · cases h

theorem synchStage_ported : (synchStage (κ := κ) S parties GBF).Ported (fun _ => False) fun _ => True where
  out h := by cases h
  inp _ := trivial
  out_inj h := by cases h
  inp_inj ha hb := (synchStage_inp ha).2.symm.trans (synchStage_inp hb).2

/-- Each thread does what a thread of `getGbf` does. -/
theorem synch_follow (hc : 1 ≤ S.chunk_size) (h : AloneReaches (synchStage S parties GBF).Step (synchStage S parties GBF).start s) (a : ℕ) :
    (∃ q : Proc κ ChunkXor (ℕ → Block) Unit, Sim (Locks S) (s.proc.ts a) q) ∧ ∀ d ∈ ops (s.proc.hist a), Locks S d (S.abs d) := by
  have hf := (inv_of_alone_stage synchStage_ported h).follow a
  simp only [synchStage] at hf
  split at hf
  · obtain ⟨es', q', _, hs, he⟩ := (lockedGetGbf_sim hc).follow hf
    exact ⟨⟨q', hs⟩, (locks_map (sim_ops he)).2⟩
  · obtain ⟨hes, hq⟩ := follow_ret.1 hf
    rw [hes, hq]
    exact ⟨⟨.ret (), .ret⟩, fun _ h => (List.not_mem_nil h).elim⟩

/-- No thread leaves the arrays. -/
theorem synch_no_fault (hc : 1 ≤ S.chunk_size) (hlen : GBF.length = S.GBF_length)
    (h : AloneReaches (synchStage S parties GBF).Step (synchStage S parties GBF).start s) (f : Fault) :
    ¬ (synchStage S parties GBF).Faults s.proc f := by
  rintro ⟨a, ha | ⟨d, q, hm, hx⟩⟩
  · obtain ⟨⟨q, hq⟩, _⟩ := synch_follow hc h a
    rw [ha] at hq
    exact hq.not_fail
  · obtain ⟨⟨q, hq⟩, _⟩ := synch_follow hc h a
    obtain ⟨d', hd⟩ := hq.move_op hm
    have hmem := (synch_ran hlen (inv_of_alone_stage synchStage_ported h).mem fun a d hd => (synch_follow hc h a).2 d hd).1
    obtain ⟨GBF', hok, _⟩ := hd.exec s.proc.mem hmem
    exact absurd (hok.symm.trans hx) nofun

/-- When all threads have returned. -/
theorem synch_joined (hc : 1 ≤ S.chunk_size) (hlen : GBF.length = S.GBF_length)
    (h : AloneReaches (synchStage S parties GBF).Step (synchStage S parties GBF).start s) {v : ℕ → Unit} (hj : s.proc.Joined v) :
    ∃ arr : ℕ → List Block, (∀ a, a < parties - 1 → s.read a = blks (arr a) ∧ (arr a).length = S.GBF_length) ∧
      s.proc.mem.length = S.GBF_length ∧
      ∀ j, s.proc.mem.getD j 0 = GBF.getD j 0 + ∑ a ∈ Finset.range (parties - 1), (arr a).getD j 0 := by
  have hinv := inv_of_alone_stage synchStage_ported h
  obtain ⟨hmem, hadd⟩ := synch_ran hlen hinv.mem fun a d hd => (synch_follow hc h a).2 d hd
  -- each thread has read an array and added it cell by cell
  have hex : ∀ a, ∃ l : List Block, a < parties - 1 → ins (s.proc.hist a) = blks l ∧ l.length = S.GBF_length ∧
      ∀ c, addedAt ((ops (s.proc.hist a)).map S.abs) c = l.getD c 0 := by
    intro a
    by_cases ha : a < parties - 1
    · have he := hinv.ends hj a
      simp only [synchStage, if_pos ha] at he
      obtain ⟨es', he', hsim⟩ := (lockedGetGbf_sim hc).ends he
      obtain ⟨l, hl, hins, _, hget⟩ := getGbf_reads he'
      refine ⟨l, fun _ => ⟨by rw [← sim_ins hsim, hins], hl, fun c => ?_⟩⟩
      rw [← (locks_map (sim_ops hsim)).1, hget]
    · exact ⟨[], fun h => absurd h ha⟩
  choose arr harr using hex
  refine ⟨arr, fun a ha => ⟨?_, (harr a ha).2.1⟩, hmem, fun j => ?_⟩
  · have hport : ((synchStage (κ := κ) S parties GBF).port a).inp = some a := if_pos ha
    rw [hinv.read.owned hport, (harr a ha).1]
    rfl
  · rw [hadd (Finset.range (parties - 1)) (fun a ha => ?_) j]
    · exact congrArg _ (Finset.sum_congr rfl fun a ha => (harr a (Finset.mem_range.1 ha)).2.2 j)
    · have hf := hinv.follow a
      have ha' : ¬ a < parties - 1 := fun h => ha (Finset.mem_range.2 h)
      simp only [synchStage, if_neg ha'] at hf
      rw [(follow_ret.1 hf).1]
      rfl

/-- The threads one after the other. -/
theorem exists_synch (hc : 1 ≤ S.chunk_size) (hlen : GBF.length = S.GBF_length) {arr : ℕ → List Block}
    (harr : ∀ a, a < parties - 1 → (arr a).length = S.GBF_length) : ∀ k, k ≤ parties - 1 →
    ∃ s : Alone ℕ (Atom κ) (Pool (Wire κ) ChunkOp (List Block) Fault (fun _ : ℕ => Unit)),
      AloneReaches (synchStage S parties GBF).Step (synchStage S parties GBF).start s ∧ s.proc.mem.length = S.GBF_length ∧
        (∀ a, a < k → s.proc.ts a = .ret () ∧ s.read a = blks (arr a)) ∧
        ∀ a, k ≤ a → s.proc.ts a = (synchStage S parties GBF).prog a ∧ s.read a = []
  | 0, _ => ⟨_, .refl, hlen, fun _ h => absurd h (Nat.not_lt_zero _), fun _ _ => ⟨rfl, rfl⟩⟩
  | k + 1, hk => by
    obtain ⟨s, hs, hm, hdone, hrest⟩ := exists_synch hc hlen harr k (by omega)
    -- thread `k` alone, after the threads before it
    obtain ⟨es, hes, hins, hload, hout⟩ := exists_getGbf (κ := κ) S.chunk_size (harr k (by omega))
    obtain ⟨es', hes', hsim⟩ := (lockedGetGbf_sim hc).symm.ends hes
    have hport : ((synchStage (κ := κ) S parties GBF).port k).inp = some k := if_pos (by omega)
    have hstart : Ends (s.proc.ts k) es' () := by
      rw [(hrest k le_rfl).1]
      simpa only [synchStage, if_pos (show k < parties - 1 by omega)] using hes'
    obtain ⟨t, ht, hmt, hret, hoth, hread⟩ := exists_ran_thread (Q := fun m => m.length = S.GBF_length) hport hstart hm
      (fun l h => hout l ((sim_out_mem hsim).1 h)) (fun _ => sim_no_load hsim) fun d hd m hm => by
        obtain ⟨d', hd'⟩ : ∃ d', Locks S d d' := by
          obtain ⟨i, hi, rfl⟩ := List.getElem_of_mem hd
          have hall := sim_ops hsim
          exact ⟨_, (List.forall₂_iff_get.1 hall).2 i (by rw [hall.length_eq]; exact hi) hi⟩
        obtain ⟨m', h1, h2, _⟩ := hd'.exec m hm
        exact ⟨m', h1, h2⟩
    refine ⟨t, hs.trans ht, hmt, fun a ha => ?_, fun a ha => ?_⟩
    · by_cases hak : a = k
      · subst hak
        refine ⟨hret, ?_⟩
        rw [hread, Function.update_self, (hrest a le_rfl).2, sim_ins hsim, hins]
        rfl
      · rw [hoth a hak, hread, Function.update_of_ne hak]
        exact hdone a (by omega)
    · have hak : a ≠ k := by omega
      rw [hoth a hak, hread, Function.update_of_ne hak]
      exact hrest a (by omega)

/-- For every number of parties, every size and chunk size, whatever the Pi send and whatever the order of
the threads' chunks: no thread uses a mutex or a cell that is not there; when all have returned, each has
read an array of as many blocks as the GBF has cells, and every cell has got its block of each array once;
and for all such arrays the threads can come to their ends. -/
theorem compute_gbf_adds (parties : ℕ) (hc : 1 ≤ S.chunk_size) (hlen : GBF.length = S.GBF_length) :
    (∀ s, AloneReaches (synchStage (κ := κ) S parties GBF).Step (synchStage S parties GBF).start s →
      (∀ f, ¬ (synchStage (κ := κ) S parties GBF).Faults s.proc f) ∧
      ∀ v, s.proc.Joined v → ∃ arr : ℕ → List Block,
        (∀ a, a < parties - 1 → s.read a = blks (arr a) ∧ (arr a).length = S.GBF_length) ∧
        s.proc.mem.length = S.GBF_length ∧
        ∀ j, j < S.GBF_length → s.proc.mem.getD j 0 = GBF.getD j 0 + ∑ a ∈ Finset.range (parties - 1), (arr a).getD j 0) ∧
    ∀ arr : ℕ → List Block, (∀ a, a < parties - 1 → (arr a).length = S.GBF_length) →
      ∃ s v, AloneReaches (synchStage (κ := κ) S parties GBF).Step (synchStage S parties GBF).start s ∧ s.proc.Joined v ∧
        ∀ a, a < parties - 1 → s.read a = blks (arr a) := by
  refine ⟨fun s hs => ⟨synch_no_fault hc hlen hs, fun v hj => ?_⟩, fun arr harr => ?_⟩
  · obtain ⟨arr, harr, hmem, hget⟩ := synch_joined hc hlen hs hj
    exact ⟨arr, harr, hmem, fun j _ => hget j⟩
  · obtain ⟨s, hs, _, hdone, hrest⟩ := exists_synch hc hlen harr (parties - 1) le_rfl
    refine ⟨s, fun _ => (), hs, fun a => ?_, fun a ha => (hdone a ha).2⟩
    by_cases ha : a < parties - 1
    · exact (hdone a ha).1
    · rw [(hrest a (by omega)).1]
      exact if_neg ha

end Threads

/-- A GBF of three cells in chunks of two, and the filter of one Pi. -/
theorem compute_gbf_adds_three : ∃ s, AloneReaches (synchStage (κ := Block) ⟨3, 2⟩ 2 [0, 0, 0]).Step (synchStage ⟨3, 2⟩ 2 [0, 0, 0]).start s ∧
    s.proc.mem.getD 2 0 = toBlock 0 4 := by
  have hc : 1 ≤ (SynchGBF.mk 3 2).chunk_size := by decide
  have hlen : [(0 : Block), 0, 0].length = (SynchGBF.mk 3 2).GBF_length := rfl
  have h := compute_gbf_adds (κ := Block) 2 hc hlen
  obtain ⟨s, v, hs, hj, hread⟩ := h.2 (fun _ => [toBlock 0 1, toBlock 0 2, toBlock 0 4]) fun _ _ => rfl
  obtain ⟨arr, harr, _, hget⟩ := (h.1 s hs).2 v hj
  have ha : arr 0 = [toBlock 0 1, toBlock 0 2, toBlock 0 4] :=
    blks_inj.1 ((harr 0 Nat.one_pos).1.symm.trans (hread 0 Nat.one_pos))
  refine ⟨s, hs, ?_⟩
  rw [hget 2 (by decide)]
  simp [ha]

end Mpsi
