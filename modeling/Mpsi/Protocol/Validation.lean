/-
The order in which the receiver uses and checks the size of the other party's sub-group: `recv_C`
allocates an array of this size and draws until it has as many positions, and only then
`check_if_to_abort` compares it with `Not - Nbf`.

The loop of `get_sub_group` may have no end, so the sequence is a machine that goes on step by step,
over blocks that are followed by whatever the memory behind them holds.
-/
import Mpsi.Apport.Sampling
import Mpsi.Run.Threads

namespace Mpsi

/-- How far `recv_C` and `check_if_to_abort` have come. -/
inductive RecvC (Not : ℕ) where
  /-- `Nc_recv` has been read. -/
  | counted
  /-- `sub_group_recv` exists and the seed has been read. -/
  | allocated
  /-- In the loop of `get_sub_group`, with the number of words read so far. -/
  | sampling (n : ℕ) (C : SubGroup Not)
  | sampled (C : SubGroup Not)
  /-- The check has closed the session. -/
  | aborted (v : Verdict)
  | passed (C : SubGroup Not)
  | failed (f : Fault)

namespace RecvC

/-- The constants of the session and what the sender puts on the wire. -/
structure Input where
  aes : Block → Block → Block
  Not : ℕ
  Nbf : ℕ
  Nc_recv : ℤ
  seed_recv : Block

variable (i : Input)

/-- The words the loop finds: those of its blocks and then what lies behind them. -/
def word (behind : ℕ → ℕ) (n : ℕ) : ℕ := (subGroupWords i.aes i.seed_recv i.Nc_recv.toNat).getD n (behind n)

/-- One step of the sequence. -/
def step (behind : ℕ → ℕ) : RecvC i.Not → RecvC i.Not
  | counted => match newArray i.Nc_recv with
    | .ok () => allocated
    | .error f => failed f
  | allocated => sampling 0 .empty
  | sampling n C =>
    if (C.size : ℤ) = i.Nc_recv then sampled C
    else if h : i.Not = 0 then failed .divByZero
    else sampling (n + 1) (C.insert (word i behind n) h)
  | sampled C =>
    let v := checkIfToAbort i.Nc_recv i.Not i.Nbf
    if v.code = 0 then passed C else aborted v
  | aborted v => aborted v
  | passed C => passed C
  | failed f => failed f

/-- The state after `n` steps. -/
def after (behind : ℕ → ℕ) (n : ℕ) : RecvC i.Not := (step i behind)^[n] counted

/-- The next step sizes an array by the count or compares the set of the loop with it. -/
def UsesCount {Not : ℕ} : RecvC Not → Prop
  | counted | allocated | sampling _ _ => True
  | _ => False

def Final {Not : ℕ} : RecvC Not → Prop
  | aborted _ | passed _ | failed _ => True
  | _ => False

/-- The bound of `check_if_to_abort`, with its sign. -/
def InBound : Prop := 0 ≤ i.Nc_recv ∧ i.Nc_recv ≤ (i.Not : ℤ) - i.Nbf

/-- The sequence ends, it uses the count only within the bound, and it stops the session otherwise. -/
structure Validated (behind : ℕ → ℕ) : Prop where
  ends : ∃ n, (after i behind n).Final
  uses : ∀ n, (after i behind n).UsesCount → InBound i
  aborts : ¬ InBound i → ∃ n v, after i behind n = aborted v

section Run

variable {i} {behind : ℕ → ℕ}

theorem after_two (h : 0 ≤ i.Nc_recv) : after i behind 2 = sampling 0 .empty := by
  change step i behind (step i behind counted) = _
  rw [show step i behind counted = allocated by simp only [step, newArray_ok.2 h]]
  rfl

/-- The loop over the words of the blocks takes one step for each word it needs. -/
theorem sampling_ends : ∀ (ws : List ℕ) (n : ℕ) (C : SubGroup i.Not) {D : SubGroup i.Not}, 0 ≤ i.Nc_recv →
    (∀ k < ws.length, ws[k]? = some (word i behind (n + k))) → fillSubGroup i.Nc_recv.toNat ws C = .ok D →
    ∃ k, (step i behind)^[k] (sampling n C) = sampled D
  | ws, n, C, D, h0, hws, h => by
    by_cases hsize : C.size = i.Nc_recv.toNat
    · refine ⟨1, ?_⟩
      have hD : C = D := by
        cases ws with
        | nil => rw [fillSubGroup, if_pos hsize] at h; cases h; rfl
        | cons w ws => rw [fillSubGroup, if_pos hsize] at h; cases h; rfl
      rw [← hD]
      exact if_pos (by omega)
    · cases ws with
      | nil => rw [fillSubGroup, if_neg hsize] at h; cases h
      | cons w ws =>
        unfold fillSubGroup at h
        rw [if_neg hsize] at h
        by_cases hN : i.Not = 0
        · simp only [dif_pos hN] at h
          cases h
        · simp only [dif_neg hN] at h
          have hw : word i behind n = w := by
            have := hws 0 (Nat.succ_pos _)
            simpa using this.symm
          obtain ⟨k, hk⟩ := sampling_ends ws (n + 1) (C.insert w hN) h0 (fun k hk => by
            have := hws (k + 1) (Nat.succ_lt_succ hk)
            rwa [List.getElem?_cons_succ, show n + (k + 1) = n + 1 + k by omega] at this) h
          refine ⟨k + 1, ?_⟩
          -- the word joins the set, and the rest of the words by the induction
          have hstep : step i behind (sampling n C) = sampling (n + 1) (C.insert w hN) := by
            simp only [step]
            rw [if_neg (by omega), dif_neg hN, hw]
          rw [Function.iterate_succ_apply, hstep, hk]

/-- While every word leaves a residue of a set smaller than the count, the loop goes on. -/
theorem sampling_stuck {S : Finset ℕ} (hS : (S.card : ℤ) < i.Nc_recv) (hN : i.Not ≠ 0)
    (hword : ∀ n, word i behind n % i.Not ∈ S) (k : ℕ) :
    ∃ n C, (step i behind)^[k] (sampling 0 .empty) = sampling n C ∧ C.members ⊆ S := by
  induction k with
  | zero => exact ⟨0, .empty, rfl, by simp⟩
  | succ k ih =>
    obtain ⟨n, C, hk, hC⟩ := ih
    have hsize : C.size ≤ S.card := by
      rw [← C.card_members]
      exact Finset.card_le_card hC
    refine ⟨n + 1, C.insert (word i behind n) hN, ?_, ?_⟩
    · rw [Function.iterate_succ_apply', hk]
      simp only [step]
      rw [if_neg (by omega), dif_neg hN]
    · rw [C.members_insert]
      exact Finset.insert_subset (hword n) hC

/-- Behind the blocks lie copies of their first word. -/
theorem word_mem {behind : ℕ → ℕ} (hb : ∀ n, behind n = (subGroupWords i.aes i.seed_recv i.Nc_recv.toNat).getD 0 0)
    (hpos : 0 < i.Nc_recv) (n : ℕ) :
    word i behind n % i.Not ∈ residues i.Not (subGroupWords i.aes i.seed_recv i.Nc_recv.toNat) := by
  have hblocks := subGroupBlocks_pos (show 0 < i.Nc_recv.toNat by omega)
  have hlen := length_subGroupWords i.aes i.seed_recv i.Nc_recv.toNat
  apply mem_residues
  unfold word
  by_cases hn : n < (subGroupWords i.aes i.seed_recv i.Nc_recv.toNat).length
  · rw [List.getD_eq_getElem _ _ hn]
    exact List.getElem_mem hn
  · rw [List.getD_eq_default _ _ (not_lt.1 hn), hb, List.getD_eq_getElem _ _ (by omega)]
    exact List.getElem_mem _

theorem sampled_of_enough (hin : InBound i)
    (henough : i.Nc_recv.toNat ≤ (residues i.Not (subGroupWords i.aes i.seed_recv i.Nc_recv.toNat)).card)
    (behind : ℕ → ℕ) : ∃ n D, after i behind n = sampled D := by
  obtain ⟨D, hD⟩ := (exists_getSubGroup_iff (by have := hin.2; omega) i.aes i.seed_recv).2 henough
  obtain ⟨k, hk⟩ : ∃ k, (step i behind)^[k] (sampling 0 .empty) = sampled D :=
    sampling_ends _ 0 .empty hin.1 (fun k hk => by
      rw [Nat.zero_add, word, List.getD_eq_getElem _ _ hk, List.getElem?_eq_getElem hk]) hD
  refine ⟨k + 2, D, ?_⟩
  unfold after
  rw [Function.iterate_add_apply]
  rw [← hk]
  exact congrArg _ (after_two hin.1)

end Run

/-- The sequence is in order, whatever lies behind the blocks, exactly when the count is within the
bound and the words under the received seed leave enough residues. -/
theorem validated_iff (i : Input) : (∀ behind, Validated i behind) ↔
    InBound i ∧ i.Nc_recv.toNat ≤ (residues i.Not (subGroupWords i.aes i.seed_recv i.Nc_recv.toNat)).card := by
  constructor
  · intro h
    have hin : InBound i := (h fun _ => 0).uses 0 trivial
    refine ⟨hin, ?_⟩
    by_contra hlt
    have hpos : 0 < i.Nc_recv := by omega
    have hN : i.Not ≠ 0 := by have := hin.2; omega
    have hS : ((residues i.Not (subGroupWords i.aes i.seed_recv i.Nc_recv.toNat)).card : ℤ) < i.Nc_recv := by omega
    -- words behind the array that repeat its first one bring nothing new
    let behind : ℕ → ℕ := fun _ => (subGroupWords i.aes i.seed_recv i.Nc_recv.toNat).getD 0 0
    obtain ⟨n, hn⟩ := (h behind).ends
    match n, hn with
    | 0, hn => exact hn
    | 1, hn =>
      change (step i behind counted).Final at hn
      rw [show step i behind counted = allocated by simp only [step, newArray_ok.2 hin.1]] at hn
      exact hn
    | k + 2, hn =>
      obtain ⟨m, C, hk, _⟩ := sampling_stuck hS hN (word_mem (fun _ => rfl) hpos) k
      unfold after at hn
      rw [Function.iterate_add_apply, show (step i behind)^[2] counted = _ from after_two hin.1, hk] at hn
      exact hn
  · rintro ⟨hin, henough⟩ behind
    obtain ⟨n, D, hn⟩ := sampled_of_enough hin henough behind
    refine ⟨⟨n + 1, ?_⟩, fun _ _ => hin, fun h => absurd hin h⟩
    have hv : checkIfToAbort i.Nc_recv i.Not i.Nbf = ⟨0, ""⟩ := if_neg (not_lt.2 hin.2)
    unfold after
    rw [Function.iterate_succ_apply', show (step i behind)^[n] counted = _ from hn]
    simp only [step, hv]
    trivial

/-- Three positions where the bound is two: the array and the loop come before the check. -/
theorem not_validated : ¬ Validated ⟨fun _ _ => 0, 4, 2, 3, 0⟩ fun _ => 0 := fun h =>
  absurd (h.uses 0 trivial).2 (by decide)

end RecvC

end Mpsi
