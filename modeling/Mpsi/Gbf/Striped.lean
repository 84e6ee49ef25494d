/-
The second way of the code to add an instance's strings to the GBF: `XORordered` and `XORorderedBF` of
`synchGBF` go over the array chunk by chunk, each under its mutex.

Both constructors give chunks that tile the array (`Tiles`), whatever the sizes, so every cell is met once
(`xorChunks_eq`), and the sums are those of the four segments that go through `run_xoring` (`striped_agrees`).
-/
import Mpsi.Gbf.Online

namespace Mpsi

open Relation

/-! ## The sizes -/

/-- The sizes a `synchGBF` keeps. -/
structure GbfSizes where
  GBF_length : ℕ
  chunk_size : ℕ
  num_of_chunks : ℕ
  mtxArr_length : ℕ
  last_chunk : ℕ
  lastChunkStart : ℕ

/-- `synchGBF(Nbf, chunks)`. -/
def GbfSizes.ofChunks (Nbf chunks : ℕ) : Except Fault GbfSizes :=
  if chunks = 0 then .error .divByZero
  else
    let num_of_chunks := Nbf / chunks + 1
    .ok ⟨Nbf, chunks, num_of_chunks, num_of_chunks, num_of_chunks - 1, (num_of_chunks - 1) * chunks⟩

/-- `synchGBF(Nbf, chunks, segments)`: the quotient is one of integers, so `ceil` has nothing to round. -/
def GbfSizes.ofSegments (Nbf segments : ℕ) : Except Fault GbfSizes :=
  if segments = 0 then .error .divByZero
  else
    let chunk_size := Nbf / segments
    .ok ⟨Nbf, chunk_size, segments, segments, segments - 1, (segments - 1) * chunk_size⟩

/-- One of the constructors has built an array of `Nbf` cells with these sizes. -/
def GbfSizes.Built (Nbf : ℕ) (S : GbfSizes) : Prop :=
  (∃ chunks, ofChunks Nbf chunks = .ok S) ∨ ∃ segments, ofSegments Nbf segments = .ok S

/-- The chunks before the last one end where the last one begins, inside the array, and each has its mutex. -/
structure GbfSizes.Tiles (Nbf : ℕ) (S : GbfSizes) : Prop where
  GBF_length : S.GBF_length = Nbf
  lastChunkStart : S.lastChunkStart = (S.num_of_chunks - 1) * S.chunk_size
  le : S.lastChunkStart ≤ Nbf
  mutexes : S.num_of_chunks - 1 < S.mtxArr_length
  last_chunk : S.last_chunk = S.num_of_chunks - 1

theorem tiles_of_built {Nbf : ℕ} {S : GbfSizes} (h : S.Built Nbf) : S.Tiles Nbf := by
  rcases h with ⟨chunks, h⟩ | ⟨segments, h⟩
  · unfold GbfSizes.ofChunks at h
    split at h
    · cases h
    · cases h
      exact ⟨rfl, rfl, Nat.div_mul_le_self Nbf chunks, Nat.lt_succ_self _, rfl⟩
  · unfold GbfSizes.ofSegments at h
    split at h
    · cases h
    · rename_i hne
      cases h
      refine ⟨rfl, rfl, ?_, Nat.sub_lt (Nat.pos_of_ne_zero hne) Nat.one_pos, rfl⟩
      calc (segments - 1) * (Nbf / segments) ≤ segments * (Nbf / segments) := Nat.mul_le_mul_right _ (Nat.sub_le _ _)
        _ ≤ Nbf := Nat.mul_div_le Nbf segments

/-! ## The loops -/

/-- The array `GBF` and, in order, the cells that were written. -/
structure Striped where
  GBF : List Block
  touched : List ℕ

/-- `GBF[j]=GBF[j]^x`. -/
def xorCell (x : Except Fault Block) (w : Striped) (j : ℕ) : Except Fault Striped := do
  let g ← readAt none w.GBF j
  let x ← x
  pure ⟨w.GBF.set j (g ^^^ x), w.touched ++ [j]⟩

namespace GbfSizes

/-- `mtxArr[chunk_num].lock()`. -/
def lock (S : GbfSizes) (chunk_num : ℕ) : Except Fault Unit :=
  if chunk_num < S.mtxArr_length then .ok () else .error .outOfRange

/-- The cells from `start` on before `stop`. -/
def xorCells (x : ℕ → Except Fault Block) (start stop : ℕ) (w : Striped) : Except Fault Striped :=
  (List.range' start (stop - start)).foldlM (fun w j => xorCell (x j) w j) w

/-- The loop of `XORordered` and `XORorderedBF`, where `x j` is what goes to cell `j`. -/
def xorChunks (S : GbfSizes) (x : ℕ → Except Fault Block) (w : Striped) : Except Fault Striped := do
  let w ← (List.range (S.num_of_chunks - 1)).foldlM (fun w chunk_num => do
    S.lock chunk_num
    xorCells x (chunk_num * S.chunk_size) ((chunk_num + 1) * S.chunk_size) w) w
  if S.lastChunkStart < S.GBF_length then do
    S.lock S.last_chunk
    xorCells x S.lastChunkStart S.GBF_length w
  else pure w

/-- `synchGBF::XORordered`. -/
def xorOrdered (S : GbfSizes) (toXOR : List Block) (order : List ℤ) : Striped → Except Fault Striped :=
  S.xorChunks fun j => do
    let k ← readAt none order j
    readAt none toXOR k

/-- `synchGBF::XORorderedBF`. -/
def xorOrderedBF (S : GbfSizes) (toXOR : List (Block × Block)) (order : List ℤ) (BF : List Bool) : Striped → Except Fault Striped :=
  S.xorChunks fun j => do
    let k ← readAt none order j
    let s ← readAt none toXOR k
    let v ← readAt none BF j
    pure (if v then s.2 else s.1)

end GbfSizes

/-- `Party::xor_RBF_receiver` and `Party::xor_RBF_sender` on the array `GBF`. -/
def xorRBF (S : GbfSizes) (d : Online) (GBF : List Block) : Source → Except Fault Striped
  | (p, .receiver) => S.xorOrdered (d.strings_choices p) (d.func_recv p) ⟨GBF, []⟩
  | (p, .sender) => S.xorOrderedBF (d.strings p) (d.func_sender p) d.BF ⟨GBF, []⟩

theorem xorRBF_eq (S : GbfSizes) (d : Online) (GBF : List Block) (src : Source) :
    xorRBF S d GBF src = S.xorChunks (contribution none d src) ⟨GBF, []⟩ := by
  rcases src with ⟨p, _ | _⟩ <;> rfl

/-! ## Every cell once -/

/-- The array with the blocks `val` added to the cells before `m`. -/
def addBelow (val : ℕ → Block) (m : ℕ) (GBF : List Block) : List Block :=
  GBF.mapIdx fun j g => if j < m then g ^^^ val j else g

section Cells

variable {Nbf m : ℕ} {S : GbfSizes} {x : ℕ → Except Fault Block} {val : ℕ → Block} {GBF : List Block}

@[simp] theorem length_addBelow (val : ℕ → Block) (m : ℕ) (GBF : List Block) : (addBelow val m GBF).length = GBF.length := by
  simp [addBelow]

theorem addBelow_zero (val : ℕ → Block) (GBF : List Block) : addBelow val 0 GBF = GBF :=
  List.ext_getElem (by simp) fun j _ _ => by simp [addBelow]

theorem getElem_addBelow {j : ℕ} (hj : j < GBF.length) :
    (addBelow val m GBF)[j]? = some (if j < m then GBF[j] ^^^ val j else GBF[j]) := by
  simp [addBelow, hj]

/-- The next cell. -/
theorem xorCell_addBelow (hx : x m = .ok (val m)) (hm : m < GBF.length) :
    xorCell (x m) ⟨addBelow val m GBF, List.range m⟩ m = .ok ⟨addBelow val (m + 1) GBF, List.range (m + 1)⟩ := by
  have hread : readAt none (addBelow val m GBF) (m : ℕ) = .ok GBF[m] :=
    readAt_none_ok.2 ⟨m, rfl, by rw [getElem_addBelow hm, if_neg (lt_irrefl m)]⟩
  have hset : (addBelow val m GBF).set m (GBF[m] ^^^ val m) = addBelow val (m + 1) GBF := by
    apply List.ext_getElem?
    intro j
    rw [List.getElem?_set]
    by_cases hj : j < GBF.length
    · rw [getElem_addBelow hj, getElem_addBelow hj]
      by_cases hmj : m = j
      · subst hmj; simp [hm]
      · have hlt : j < m + 1 ↔ j < m := by omega
        simp only [if_neg hmj, hlt]
    · rw [if_neg (by omega), List.getElem?_eq_none (by simpa using hj), List.getElem?_eq_none (by simpa using hj)]
  unfold xorCell
  rw [hread, ok_bind, hx, ok_bind, hset, List.range_succ]
  rfl

/-- A chunk goes on from the cell where it begins. -/
theorem xorCells_addBelow (hx : ∀ j, j < GBF.length → x j = .ok (val j)) : ∀ (n start : ℕ), start + n ≤ GBF.length →
    GbfSizes.xorCells x start (start + n) ⟨addBelow val start GBF, List.range start⟩ =
      .ok ⟨addBelow val (start + n) GBF, List.range (start + n)⟩
  | 0, start, _ => by simp [GbfSizes.xorCells]; rfl
  | n + 1, start, h => by
    have ih := xorCells_addBelow hx n (start + 1) (by omega)
    unfold GbfSizes.xorCells at ih ⊢
    rw [show start + (n + 1) - start = n + 1 by omega, List.range'_succ, List.foldlM_cons,
      xorCell_addBelow (hx start (by omega)) (by omega), ok_bind]
    rwa [show start + 1 + n - (start + 1) = n by omega, show start + 1 + n = start + (n + 1) by omega] at ih

theorem lock_ok {chunk_num : ℕ} (h : chunk_num < S.mtxArr_length) : S.lock chunk_num = .ok () := if_pos h

/-- The chunks before the last one. -/
theorem xorChunks_loop (hS : S.Tiles GBF.length) (hx : ∀ j, j < GBF.length → x j = .ok (val j)) : ∀ {m : ℕ},
    m ≤ S.num_of_chunks - 1 →
    (List.range m).foldlM (fun w chunk_num => do
      S.lock chunk_num
      GbfSizes.xorCells x (chunk_num * S.chunk_size) ((chunk_num + 1) * S.chunk_size) w) ⟨GBF, []⟩ =
        (.ok ⟨addBelow val (m * S.chunk_size) GBF, List.range (m * S.chunk_size)⟩ : Except Fault Striped)
  | 0, _ => by simp [addBelow_zero]; rfl
  | m + 1, hm => by
    have hle : (m + 1) * S.chunk_size ≤ GBF.length :=
      calc (m + 1) * S.chunk_size ≤ (S.num_of_chunks - 1) * S.chunk_size := Nat.mul_le_mul_right _ hm
        _ = S.lastChunkStart := hS.lastChunkStart.symm
        _ ≤ GBF.length := hS.le
    have hmutexes := hS.mutexes
    have hlock : S.lock m = .ok () := lock_ok (by omega)
    rw [List.range_succ, List.foldlM_append, xorChunks_loop hS hx (by omega), ok_bind, List.foldlM_cons, hlock, ok_bind]
    rw [Nat.succ_mul] at hle ⊢
    rw [xorCells_addBelow hx _ _ hle]
    rfl

/-- Every cell gets its block, and is written once, in order. -/
theorem xorChunks_eq (hS : S.Tiles GBF.length) (hx : ∀ j, j < GBF.length → x j = .ok (val j)) :
    S.xorChunks x ⟨GBF, []⟩ = .ok ⟨addBelow val GBF.length GBF, List.range GBF.length⟩ := by
  rw [GbfSizes.xorChunks, xorChunks_loop hS hx le_rfl, ok_bind, ← hS.lastChunkStart, hS.GBF_length]
  by_cases hlast : S.lastChunkStart < GBF.length
  · obtain ⟨n, hn⟩ := Nat.exists_eq_add_of_lt hlast
    rw [if_pos hlast, lock_ok (by rw [hS.last_chunk]; exact hS.mutexes), ok_bind]
    have hcells := xorCells_addBelow hx (n + 1) S.lastChunkStart (by omega)
    rwa [show S.lastChunkStart + (n + 1) = GBF.length by omega] at hcells
  · rw [if_neg hlast, le_antisymm hS.le (not_lt.1 hlast)]
    rfl

theorem getD_addBelow {j : ℕ} (hj : j < GBF.length) : (addBelow val GBF.length GBF).getD j 0 = GBF.getD j 0 + val j := by
  rw [List.getD_eq_getElem?_getD, getElem_addBelow hj, if_pos hj, List.getD_eq_getElem?_getD, List.getElem?_eq_getElem hj]
  rfl

end Cells

/-! ## The segments of the same instances -/

/-- One step of `run_xoring` and of the producers `A`, when every consumer waits for as many segments as there
are producers. -/
inductive SegStep (A : Finset Source) (d : Online) : Pipe Source → Pipe Source → Prop
  | begin {s : Pipe Source} {src : Source} : src ∈ A → s.pc src = 0 → SegStep A d s (s.begin src)
  | pipe {s t : Pipe Source} : PipeStep d.BF.length A.card (contribution none d) s t → SegStep A d s t

def SegReaches (A : Finset Source) (d : Online) (GBF : List Block) : Pipe Source → Prop :=
  ReflTransGen (SegStep A d) (Pipe.start fun j => GBF.getD j 0)

/-- The order array of a role leads to strings of the role, for each cell. -/
def Online.InRange (d : Online) : Source → Prop
  | (p, .receiver) => ∀ j < d.BF.length, ∃ k : ℕ, (d.func_recv p)[j]? = some (k : ℤ) ∧ k < (d.strings_choices p).length
  | (p, .sender) => ∀ j < d.BF.length, ∃ k : ℕ, (d.func_sender p)[j]? = some (k : ℤ) ∧ k < (d.strings p).length

section Segments

variable {A : Finset Source} {d : Online} {GBF : List Block} {s t : Pipe Source} {S : GbfSizes}

theorem contribution_value {src : Source} (h : d.InRange src) {j : ℕ} (hj : j < d.BF.length) :
    contribution none d src j = .ok (value d src j) := by
  have hok : ∃ b, contribution none d src j = .ok b := by
    rcases src with ⟨p, _ | _⟩
    · obtain ⟨k, hk, hlt⟩ := h j hj
      refine ⟨(d.strings_choices p)[k], ?_⟩
      rw [contribution, Option.map_none, readAt_none_ok.2 ⟨j, rfl, hk⟩, ok_bind]
      exact readAt_nat k hlt
    · obtain ⟨k, hk, hlt⟩ := h j hj
      refine ⟨if d.BF[j] then (d.strings p)[k].2 else (d.strings p)[k].1, ?_⟩
      rw [contribution, Option.map_none, readAt_none_ok.2 ⟨j, rfl, hk⟩, ok_bind, Option.map_none, readAt_nat k hlt, ok_bind,
        readAt_nat j hj]
      rfl
  obtain ⟨b, hb⟩ := hok
  rw [hb, value_of_ok hb]

theorem segInv_step {init : ℕ → Block} (h : PipeInv A d.BF.length A.card (value d) init s) (hst : SegStep A d s t) :
    PipeInv A d.BF.length A.card (value d) init t := by
  cases hst with
  | begin hsrc hpc => exact pipeInv_begin h hsrc hpc
  | pipe hst => exact pipeInv_step h (fun _ _ _ _ _ hb => (value_of_ok hb).symm) hst

theorem segInv_of_reaches (h : SegReaches A d GBF s) :
    PipeInv A d.BF.length A.card (value d) (fun j => GBF.getD j 0) s :=
  Reach.inv_of_step pipeInv_start (fun _ _ => segInv_step) h

/-- The segments can always be processed to the end. -/
theorem exists_seg_done (hin : ∀ src ∈ A, d.InRange src) (h : SegReaches A d GBF s) :
    ∃ t, ReflTransGen (SegStep A d) s t ∧ t.Done A.card := by
  obtain ⟨t, hst, ht, hstop⟩ := Reach.exists_stopped
    (I := PipeInv A d.BF.length A.card (value d) fun j => GBF.getD j 0) (fun _ _ => segInv_step)
    (fun t => t.left A d.BF.length A.card) (fun u v hu huv => by
      cases huv with
      | begin hsrc hpc => exact begin_left _ _ hsrc hpc
      | pipe huv => exact pipeStep_left hu huv) s (segInv_of_reaches h)
  have hpc : ∀ src ∈ A, t.pc src = 9 := fun src hsrc =>
    pc_of_stopped ht (fun u hu => hstop u (.pipe hu)) (Nat.pos_of_ne_zero fun h0 => hstop _ (.begin hsrc h0))
  exact ⟨t, hst, done_of_stopped ht hpc (fun src hsrc j hj => ⟨_, contribution_value (hin src hsrc) hj⟩)
    fun u hu => hstop u (.pipe hu)⟩

/-- One call goes over every cell once. -/
theorem xorRBF_ok (hS : S.Tiles d.BF.length) {src : Source} (hin : d.InRange src) {G : List Block} (hG : G.length = d.BF.length) :
    xorRBF S d G src = .ok ⟨addBelow (value d src) G.length G, List.range d.BF.length⟩ := by
  rw [xorRBF_eq, xorChunks_eq (hG ▸ hS) fun j hj => contribution_value hin (hG ▸ hj), hG]

/-- Calls one after the other add up. -/
theorem xorRBF_calls (hS : S.Tiles d.BF.length) : ∀ (calls : List Source) {G : List Block}, (∀ src ∈ calls, d.InRange src) →
    G.length = d.BF.length →
    ∃ G', calls.foldlM (fun G src => do let w ← xorRBF S d G src; pure w.GBF) G = (.ok G' : Except Fault (List Block)) ∧
      G'.length = d.BF.length ∧
      ∀ j < d.BF.length, G'.getD j 0 = G.getD j 0 + (calls.map fun src => value d src j).sum
  | [], G, _, hG => ⟨G, rfl, hG, fun j _ => by simp⟩
  | src :: calls, G, hin, hG => by
    obtain ⟨G', hrun, hlen, hget⟩ := xorRBF_calls hS calls (G := addBelow (value d src) G.length G)
      (fun u hu => hin u (List.mem_cons_of_mem _ hu)) (by simpa using hG)
    refine ⟨G', ?_, hlen, fun j hj => ?_⟩
    · rw [List.foldlM_cons, xorRBF_ok hS (hin src (List.mem_cons_self ..)) hG, ok_bind]
      exact hrun
    · rw [hget j hj, getD_addBelow (hG ▸ hj), List.map_cons, List.sum_cons, add_assoc]

/-- For every array built by either constructor and all strings, functions and filters: each call meets every
cell of the array exactly once and uses the mutexes that are there, and calls for some roles of some instances,
in any order, leave in every cell what the segments of the same roles leave once they have all gone through
`run_xoring`, in whatever order; and they can always be brought to that. -/
theorem striped_agrees (hS : S.Built d.BF.length) {calls : List Source} (hcalls : calls.Nodup)
    (hin : ∀ src ∈ calls, d.InRange src) (hG : GBF.length = d.BF.length) :
    (∀ src ∈ calls, ∀ G : List Block, G.length = d.BF.length → ∃ w, xorRBF S d G src = .ok w ∧ w.touched = List.range d.BF.length) ∧
    ∃ GBF', calls.foldlM (fun G src => do let w ← xorRBF S d G src; pure w.GBF) GBF = (.ok GBF' : Except Fault (List Block)) ∧
      GBF'.length = d.BF.length ∧
      ∀ s, SegReaches calls.toFinset d GBF s →
        (s.Done calls.length → ∀ j < d.BF.length, GBF'.getD j 0 = s.gbf j) ∧
        ∃ t, ReflTransGen (SegStep calls.toFinset d) s t ∧ t.Done calls.length := by
  have htiles := tiles_of_built hS
  obtain ⟨GBF', hrun, hlen, hget⟩ := xorRBF_calls htiles calls hin hG
  refine ⟨fun src hsrc G hG' => ⟨_, xorRBF_ok htiles (hin src hsrc) hG', rfl⟩, GBF', hrun, hlen, fun s hs => ⟨fun hd j hj => ?_, ?_⟩⟩
  · rw [← List.toFinset_card_of_nodup hcalls] at hd
    rw [hget j hj, (segInv_of_reaches hs).gbf_done hd hj, List.sum_toFinset _ hcalls]
  · rw [← List.toFinset_card_of_nodup hcalls]
    exact exists_seg_done (fun src hsrc => hin src (List.mem_toFinset.1 hsrc)) hs

end Segments

/-- Three cells and one instance. -/
def onlineThree : Online :=
  ⟨[true, false, true], fun _ => [toBlock 0 5], fun _ => [0, 0, 0], fun _ => [(toBlock 0 1, toBlock 0 2)], fun _ => [0, 0, 0]⟩

/-- Both calls of the instance, on an array of two segments. -/
theorem striped_agrees_three : ∃ GBF' s, [(0, Role.receiver), (0, Role.sender)].foldlM
      (fun G src => do let w ← xorRBF ⟨3, 1, 2, 2, 1, 1⟩ onlineThree G src; pure w.GBF) [0, 0, 0] = (.ok GBF' : Except Fault (List Block)) ∧
    SegReaches {(0, .receiver), (0, .sender)} onlineThree [0, 0, 0] s ∧ s.Done 2 ∧ ∀ j < 3, GBF'.getD j 0 = s.gbf j := by
  have hS : GbfSizes.Built onlineThree.BF.length ⟨3, 1, 2, 2, 1, 1⟩ := Or.inr ⟨2, rfl⟩
  have hin : ∀ src ∈ [(0, Role.receiver), (0, Role.sender)], onlineThree.InRange src := by
    have horder : ∀ j < 3, [(0 : ℤ), 0, 0][j]? = some 0 := by decide
    intro src hsrc
    rcases List.mem_pair.1 hsrc with rfl | rfl
    · exact fun j hj => ⟨0, horder j hj, Nat.one_pos⟩
    · exact fun j hj => ⟨0, horder j hj, Nat.one_pos⟩
  obtain ⟨GBF', hrun, _, hsegs⟩ := (striped_agrees hS (by decide) hin (rfl : [(0 : Block), 0, 0].length = onlineThree.BF.length)).2
  obtain ⟨t, ht, hd⟩ := (hsegs _ .refl).2
  exact ⟨GBF', t, hrun, ht, hd, (hsegs t ht).1 hd⟩

end Mpsi
