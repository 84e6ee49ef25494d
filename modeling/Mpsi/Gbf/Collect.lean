/-
P0's last step: `get_gbf` reads the GBF of one Pi chunk by chunk and adds each chunk to the shared GBF
under its lock. Read as a whole, a thread adds the array it receives (`getGbf_reads`), and the threads
add up in any order (`collect_ran`).
-/
import Mpsi.Lib.XorGroup
import Mpsi.Run.Wire
import Mathlib.Data.List.GetD

namespace Mpsi

open Thread

variable {κ : Type}

/-- `XORchunk` and `XORchunk_limited`: the blocks to add, from cell `start` on. -/
structure ChunkXor where
  start : ℕ
  toXOR : List Block

def ChunkXor.exec (d : ChunkXor) (GBF : ℕ → Block) : Except Fault (ℕ → Block) :=
  .ok fun c => if d.start ≤ c ∧ c < d.start + d.toXOR.length then GBF c ^^^ d.toXOR.getD (c - d.start) 0 else GBF c

/-- `functions::get_gbf`. -/
def getGbf (chunk_size Nbf : ℕ) : Proc κ ChunkXor (ℕ → Block) Unit := do
  Prog.forEach (List.range' 0 (Nbf / chunk_size)) fun i => do
    let chunkArr ← getBlocks chunk_size
    Prog.act ⟨i * chunk_size, chunkArr.toList⟩
  if Nbf / chunk_size * chunk_size < Nbf then do
    let chunkArr ← getBlocks (Nbf - Nbf / chunk_size * chunk_size)
    Prog.act ⟨Nbf / chunk_size * chunk_size, chunkArr.toList⟩
  else pure ()

/-- What a chunk adds to a cell. -/
def ChunkXor.at (d : ChunkXor) (c : ℕ) : Block := if d.start ≤ c then d.toXOR.getD (c - d.start) 0 else 0

theorem ChunkXor.exec_eq (d : ChunkXor) (GBF : ℕ → Block) : d.exec GBF = .ok fun c => GBF c + d.at c := by
  unfold ChunkXor.exec ChunkXor.at
  congr 1
  funext c
  by_cases h : d.start ≤ c
  · by_cases h' : c < d.start + d.toXOR.length
    · rw [if_pos ⟨h, h'⟩, if_pos h, Block.xor_eq_add]
    · rw [if_neg fun hc => h' hc.2, if_pos h, List.getD_eq_default _ _ (by omega), add_zero]
  · rw [if_neg fun hc => h hc.1, if_neg h, add_zero]

/-- What a thread's chunks add to a cell together. -/
def addedAt (ds : List ChunkXor) (c : ℕ) : Block := (ds.map fun d => d.at c).sum

section Reads

variable {cs Nbf : ℕ} {es : List (Event (Wire κ) ChunkXor (ℕ → Block))}

/-- One read of the thread and what it adds. -/
def chunkRound (start len : ℕ) : Proc κ ChunkXor (ℕ → Block) Unit := do
  let chunkArr ← getBlocks len
  Prog.act ⟨start, chunkArr.toList⟩

theorem ends_chunkRound {start len : ℕ} : Ends (chunkRound (κ := κ) start len) es () ↔
    ∃ l : List Block, l.length = len ∧ es = [.inp (blks l), .op ⟨start, l⟩] := by
  simp only [chunkRound, ends_getBlocks, Prog.act, ends_op, ends_ret, and_true]
  constructor
  · rintro ⟨x, _, rfl, _, rfl, rfl⟩; exact ⟨x.toList, x.2, rfl⟩
  · rintro ⟨l, hl, rfl⟩; exact ⟨⟨l, hl⟩, _, rfl, _, rfl, rfl⟩

/-- The rounds of whole chunks from number `s` on. -/
theorem chunkRounds_reads : ∀ (k s : ℕ) {es : List (Event (Wire κ) ChunkXor (ℕ → Block))},
    Ends (Prog.forEach (List.range' s k) fun i => chunkRound (i * cs) cs) es () →
    ∃ l : List Block, l.length = k * cs ∧ ins es = blks l ∧ outs es = [] ∧
      ∀ c, addedAt (ops es) c = if s * cs ≤ c then l.getD (c - s * cs) 0 else 0
  | 0, s, es, h => by
    obtain ⟨rfl, _⟩ := ends_ret.1 h
    exact ⟨[], by simp, rfl, rfl, fun c => by simp [addedAt]⟩
  | k + 1, s, es, h => by
    rw [List.range'_succ] at h
    obtain ⟨es₁, es₂, _, rfl, h1, h2⟩ := ends_bind.1 h
    obtain ⟨l₁, hl₁, rfl⟩ := ends_chunkRound.1 h1
    obtain ⟨l₂, hl₂, hins, houts, hadd⟩ := chunkRounds_reads k (s + 1) h2
    refine ⟨l₁ ++ l₂, by rw [List.length_append, hl₁, hl₂]; ring, by simp [hins, blks_append], by simp [houts], fun c => ?_⟩
    have hcons : addedAt (ops (.inp (blks l₁) :: .op ⟨s * cs, l₁⟩ :: es₂)) c =
        (ChunkXor.mk (s * cs) l₁).at c + addedAt (ops es₂) c := by simp [addedAt]
    rw [List.cons_append, List.cons_append, List.nil_append, hcons, hadd, ChunkXor.at]
    have hs : (s + 1) * cs = s * cs + cs := by ring
    simp only [hs]
    by_cases h1 : s * cs ≤ c
    · rw [if_pos h1, if_pos h1]
      by_cases h2 : s * cs + cs ≤ c
      · rw [if_pos h2, List.getD_eq_default l₁ _ (by omega), zero_add, List.getD_append_right _ _ _ _ (by omega), hl₁]
        congr 1; omega
      · rw [if_neg h2, add_zero, List.getD_append _ _ _ _ (by omega)]
    · rw [if_neg h1, if_neg h1, if_neg (by omega), add_zero]

theorem getGbf_eq : getGbf (κ := κ) cs Nbf = ((Prog.forEach (List.range' 0 (Nbf / cs)) fun i => chunkRound (i * cs) cs) >>= fun _ =>
    if Nbf / cs * cs < Nbf then chunkRound (Nbf / cs * cs) (Nbf - Nbf / cs * cs) else pure ()) := rfl

/-- A thread that has returned has read an array of `Nbf` blocks and added it. -/
theorem getGbf_reads (h : Ends (getGbf (κ := κ) cs Nbf) es ()) : ∃ l : List Block, l.length = Nbf ∧ ins es = blks l ∧
    outs es = [] ∧ ∀ c, addedAt (ops es) c = l.getD c 0 := by
  rw [getGbf_eq] at h
  obtain ⟨es₁, es₂, _, rfl, h1, h2⟩ := ends_bind.1 h
  obtain ⟨l₁, hl₁, hins, houts, hadd⟩ := chunkRounds_reads (Nbf / cs) 0 h1
  simp only [zero_mul, zero_le, if_true, Nat.sub_zero] at hadd
  have hle := Nat.div_mul_le_self Nbf cs
  split at h2
  · obtain ⟨l₂, hl₂, rfl⟩ := ends_chunkRound.1 h2
    refine ⟨l₁ ++ l₂, by rw [List.length_append]; omega, by simp [hins, blks_append], by simp [houts], fun c => ?_⟩
    have hsplit : addedAt (ops (es₁ ++ [.inp (blks l₂), .op ⟨Nbf / cs * cs, l₂⟩])) c =
        addedAt (ops es₁) c + (ChunkXor.mk (Nbf / cs * cs) l₂).at c := by simp [addedAt]
    rw [hsplit, hadd, ChunkXor.at]
    by_cases hc : Nbf / cs * cs ≤ c
    · rw [if_pos hc, List.getD_eq_default l₁ _ (by omega), zero_add, List.getD_append_right _ _ _ _ (by omega), hl₁]
    · rw [if_neg hc, add_zero, List.getD_append _ _ _ _ (by omega)]
  · obtain ⟨rfl, _⟩ := ends_ret.1 h2
    exact ⟨l₁, by omega, by simp [hins], by simp [houts], fun c => by simpa using hadd c⟩

/-- For every array there are the events of a thread that reads it. -/
theorem exists_chunkRounds (cs : ℕ) : ∀ (k s : ℕ) {l : List Block}, l.length = k * cs →
    ∃ es, Ends (Prog.forEach (List.range' s k) fun i => chunkRound (κ := κ) (i * cs) cs) es () ∧ ins es = blks l ∧
      (∀ m, .load m ∉ es) ∧ ∀ l, .out l ∉ es
  | 0, s, l, hl => by
    obtain rfl : l = [] := List.eq_nil_of_length_eq_zero (by simpa using hl)
    exact ⟨[], by simp [Prog.forEach], rfl, by simp, by simp⟩
  | k + 1, s, l, hl => by
    have hlen : (l.take cs).length = cs := by rw [List.length_take, hl, Nat.add_mul, one_mul]; omega
    obtain ⟨es, hes, hins, hload, hout⟩ := exists_chunkRounds cs k (s + 1) (l := l.drop cs) (by rw [List.length_drop, hl, Nat.add_mul, one_mul]; omega)
    refine ⟨[.inp (blks (l.take cs)), .op ⟨s * cs, l.take cs⟩] ++ es, ?_, ?_, by simp [hload], by simp [hout]⟩
    · rw [List.range'_succ]
      exact ends_bind.2 ⟨_, _, (), rfl, ends_chunkRound.2 ⟨_, hlen, rfl⟩, hes⟩
    · simp only [ins_append, hins, ins_cons, ins_inp, ins_op, ins_nil, List.append_nil]
      rw [← blks_append, List.take_append_drop]

theorem exists_getGbf (cs : ℕ) {l : List Block} (hl : l.length = Nbf) :
    ∃ es, Ends (getGbf (κ := κ) cs Nbf) es () ∧ ins es = blks l ∧ (∀ m, .load m ∉ es) ∧ ∀ l, .out l ∉ es := by
  have hle := Nat.div_mul_le_self Nbf cs
  obtain ⟨es, hes, hins, hload, hout⟩ := exists_chunkRounds (κ := κ) cs (Nbf / cs) 0 (l := l.take (Nbf / cs * cs))
    (by rw [List.length_take]; omega)
  by_cases hlt : Nbf / cs * cs < Nbf
  · refine ⟨es ++ [.inp (blks (l.drop (Nbf / cs * cs))), .op ⟨Nbf / cs * cs, l.drop (Nbf / cs * cs)⟩], ?_, ?_,
      by simp [hload], by simp [hout]⟩
    · rw [getGbf_eq]
      refine ends_bind.2 ⟨_, _, (), rfl, hes, ?_⟩
      rw [if_pos hlt]
      exact ends_chunkRound.2 ⟨_, by rw [List.length_drop, hl], rfl⟩
    · simp only [ins_append, hins, ins_cons, ins_inp, ins_op, ins_nil, List.append_nil]
      rw [← blks_append, List.take_append_drop]
  · refine ⟨es, ?_, by rw [hins, List.take_of_length_le (by omega)], hload, hout⟩
    rw [getGbf_eq]
    refine ends_bind.2 ⟨_, [], (), (List.append_nil es).symm, hes, ?_⟩
    rw [if_neg hlt]
    exact ends_ret.2 ⟨rfl, rfl⟩

end Reads

section Ran

variable {β ι : Type} [DecidableEq ι] {o : ι → List β} {a : ι} {d : β} {A : Finset ι}

/-- After an operation of thread `a` the threads that have done nothing are some that had done nothing, without `a`. -/
theorem ran_outside (hA : ∀ b, b ∉ A → Function.update o a (o a ++ [d]) b = []) : a ∈ A ∧ ∀ b, b ∉ A → o b = [] := by
  have ha : a ∈ A := by
    by_contra ha
    simpa using hA a ha
  refine ⟨ha, fun b hb => ?_⟩
  have hba : b ≠ a := by
    rintro rfl
    exact hb ha
  simpa [hba] using hA b hb

/-- The operation of a thread, of which `g` says what it adds. -/
theorem sum_addedAt_ran (g : β → ChunkXor) (ha : a ∈ A) (c : ℕ) :
    ∑ b ∈ A, addedAt ((Function.update o a (o a ++ [d]) b).map g) c = ∑ b ∈ A, addedAt ((o b).map g) c + (g d).at c := by
  have hupd : ∀ b, addedAt ((Function.update o a (o a ++ [d]) b).map g) c =
      Function.update (fun b => addedAt ((o b).map g) c) a (addedAt ((o a).map g) c + (g d).at c) b := by
    intro b
    by_cases hb : b = a
    · subst hb
      simp [addedAt]
    · simp [hb]
  simp only [hupd]
  exact XorGroup.sum_update_add ha _ _

end Ran

/-- The threads' chunks add up in any order. -/
theorem collect_ran {T : Kind → Type} {χ ι : Type} {α : ι → Type} [DecidableEq ι] {S : Stage T ChunkXor (ℕ → Block) Fault χ α}
    (hS : S.exec = ChunkXor.exec) {o : ι → List ChunkXor} {m : ℕ → Block} (h : S.Ran o m) :
    ∀ A : Finset ι, (∀ a, a ∉ A → o a = []) → ∀ c, m c = S.init c + ∑ a ∈ A, addedAt (o a) c := by
  induction h with
  | start => intro A _ c; simp [addedAt]
  | @step o m a d m' _ hx ih =>
    intro A hA c
    rw [hS, ChunkXor.exec_eq] at hx
    cases hx
    obtain ⟨ha, ho⟩ := ran_outside hA
    have hsum := sum_addedAt_ran (o := o) (d := d) id ha c
    simp only [List.map_id, id] at hsum
    change m c + d.at c = _
    rw [hsum, ih A ho c, add_assoc]

end Mpsi
