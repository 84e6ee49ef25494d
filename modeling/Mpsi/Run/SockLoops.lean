/-
The read and write loops of `Party`, whatever `read` and `write` return. The result goes to an `unsigned long`
and is taken from `left` unseen: a count of 0 changes nothing, and the -1 of a failed call adds one to `left`.

A loop stays inside its message and comes to its end exactly when the calls together transfer the whole
message before one of them fails (`loops_safe_iff`); it never tells its caller about a failure
(`sum_of_left_zero`).
-/
import Mathlib.Algebra.BigOperators.Group.Finset.Basic
import Mathlib.Tactic

namespace Mpsi

/-! ## The functions -/

/-- What a call of `read` or `write` returns: a count, 0 at the end of the stream, or -1. -/
inductive SysResult where
  | count (n : ℕ)
  | eof
  | error
  deriving DecidableEq

/-- The result in the `unsigned long` `n`. -/
def SysResult.n : SysResult → ℕ
  | .count n => n
  | .eof => 0
  | .error => 2 ^ 64 - 1

inductive SysCall where
  | read
  | write

/-- The socket of a function: of the object (`s.connect_sock`, `recv.sock`) or of the structure that it is given
(`snd->connect_sock`, `recv->sock`). -/
inductive SockRef where
  | sender
  | receiver
  | senderArg
  | receiverArg

/-- A loop function: the call it makes, its socket, and whether it first clears the message (`memset`). -/
structure SockFun where
  call : SysCall
  sock : SockRef
  clears : Bool

/-- `Party::write_as_a_sender(msg, size)`. -/
def writeAsASender : SockFun := ⟨.write, .sender, false⟩

/-- `Party::read_as_a_sender(msg, size)`. -/
def readAsASender : SockFun := ⟨.read, .sender, true⟩

/-- `Party::write_as_a_receiver(msg, size)`. -/
def writeAsAReceiver : SockFun := ⟨.write, .receiver, false⟩

/-- `Party::read_as_a_receiver(msg, size)`. -/
def readAsAReceiver : SockFun := ⟨.read, .receiver, true⟩

/-- `Party::write_as_a_sender(snd, msg, size)`. -/
def staticWriteAsASender : SockFun := ⟨.write, .senderArg, false⟩

/-- `Party::read_as_a_sender(snd, msg, size)`. -/
def staticReadAsASender : SockFun := ⟨.read, .senderArg, true⟩

/-- `Party::write_as_a_receiver(recv, msg, size)`. -/
def staticWriteAsAReceiver : SockFun := ⟨.write, .receiverArg, false⟩

/-- `Party::read_as_a_receiver(recv, msg, size)`. -/
def staticReadAsAReceiver : SockFun := ⟨.read, .receiverArg, true⟩

/-- The eight loops. -/
def sockFuns : List SockFun :=
  [writeAsASender, readAsASender, writeAsAReceiver, readAsAReceiver,
    staticWriteAsASender, staticReadAsASender, staticWriteAsAReceiver, staticReadAsAReceiver]

/-- A use of the message: `length` bytes from `msg[index]` on, for `memset` or for a call. -/
structure MsgUse where
  call : Option (SysCall × SockRef)
  index : ℕ
  length : ℕ

/-- The variables `left` and `sum`, and the uses of the message so far. -/
structure SockLoop where
  left : ℕ
  sum : ℕ
  uses : List MsgUse

/-- Before the loop. -/
def SockFun.start (f : SockFun) (size : ℕ) : SockLoop := ⟨size, 0, if f.clears then [⟨none, 0, size⟩] else []⟩

/-- One round with the result `r` of its call; none when `left` is 0. The index `size-left` and both updates are
those of an `unsigned long`. -/
def SockFun.round (f : SockFun) (size : ℕ) (r : SysResult) (s : SockLoop) : SockLoop :=
  if s.left = 0 then s
  else ⟨(s.left + (2 ^ 64 - r.n)) % 2 ^ 64, (s.sum + r.n) % 2 ^ 64,
    s.uses ++ [⟨some (f.call, f.sock), (size + (2 ^ 64 - s.left)) % 2 ^ 64, s.left⟩]⟩

/-- The loop after `k` rounds, when call number `i` returns `rs i`. -/
def SockFun.after (f : SockFun) (size : ℕ) (rs : ℕ → SysResult) : ℕ → SockLoop
  | 0 => f.start size
  | k + 1 => f.round size (rs k) (f.after size rs k)

/-- The results are such as the calls may return: a count is at least 1 and at most the length asked for. -/
def SockFun.Admits (f : SockFun) (size : ℕ) (rs : ℕ → SysResult) : Prop :=
  ∀ k n, (f.after size rs k).left ≠ 0 → rs k = .count n → 1 ≤ n ∧ n ≤ (f.after size rs k).left

/-- The loop uses no byte outside the message, has never more bytes left than before, and comes to its end. -/
structure SockFun.Safe (f : SockFun) (size : ℕ) (rs : ℕ → SysResult) : Prop where
  inside : ∀ k, ∀ u ∈ (f.after size rs k).uses, u.index + u.length ≤ size
  left_le : ∀ k, (f.after size rs (k + 1)).left ≤ (f.after size rs k).left
  ends : ∃ k, (f.after size rs k).left = 0

/-- The first calls transfer the whole message, and none of them fails. -/
def Transfers (size : ℕ) (rs : ℕ → SysResult) : Prop :=
  ∃ k, (∀ i < k, rs i ≠ .error) ∧ ∑ i ∈ Finset.range k, (rs i).n = size

/-- The largest size there is, and a call that fails before any byte was transferred: `left` wraps to 0. -/
def Wraps (size : ℕ) (rs : ℕ → SysResult) : Prop :=
  size = 2 ^ 64 - 1 ∧ ∃ k, (∀ i < k, rs i = .eof) ∧ rs k = .error

/-! ## The variable `left` -/

section Left

variable {f : SockFun} {size : ℕ} {rs : ℕ → SysResult} {k : ℕ}

theorem after_succ_of_zero (h : (f.after size rs k).left = 0) : f.after size rs (k + 1) = f.after size rs k := if_pos h

theorem after_succ_of_ne (h : (f.after size rs k).left ≠ 0) : f.after size rs (k + 1) =
    ⟨((f.after size rs k).left + (2 ^ 64 - (rs k).n)) % 2 ^ 64, ((f.after size rs k).sum + (rs k).n) % 2 ^ 64,
      (f.after size rs k).uses ++
        [⟨some (f.call, f.sock), (size + (2 ^ 64 - (f.after size rs k).left)) % 2 ^ 64, (f.after size rs k).left⟩]⟩ := if_neg h

/-- A loop that is at its end stays there. -/
theorem after_of_zero (h : (f.after size rs k).left = 0) : ∀ {m : ℕ}, k ≤ m → f.after size rs m = f.after size rs k := by
  intro m hm
  induction m, hm using Nat.le_induction with
  | base => rfl
  | succ m _ ih => rw [after_succ_of_zero (by rw [ih]; exact h), ih]

/-- What holds at the start and is kept by every round with bytes left holds after all rounds. -/
theorem after_inv {p : SockLoop → Prop} (h0 : p (f.start size))
    (hround : ∀ k, (f.after size rs k).left ≠ 0 → p (f.after size rs k) → p (f.after size rs (k + 1))) (k : ℕ) :
    p (f.after size rs k) := by
  induction k with
  | zero => exact h0
  | succ k ih =>
    by_cases h : (f.after size rs k).left = 0
    · rwa [after_succ_of_zero h]
    · exact hround k h ih

theorem left_lt (hs : size < 2 ^ 64) : (f.after size rs k).left < 2 ^ 64 := by
  apply after_inv (p := fun s => s.left < 2 ^ 64)
  · exact hs
  · intro k h _
    rw [after_succ_of_ne h]
    exact Nat.mod_lt _ (by norm_num)

/-- A failed call adds one. -/
theorem left_of_error (h : (f.after size rs k).left ≠ 0) (hr : rs k = .error) :
    (f.after size rs (k + 1)).left = ((f.after size rs k).left + 1) % 2 ^ 64 := by
  rw [after_succ_of_ne h, hr]
  rfl

theorem sum_lt : (f.after size rs k).sum < 2 ^ 64 := by
  apply after_inv (p := fun s => s.sum < 2 ^ 64)
  · norm_num [SockFun.start]
  · intro k h _
    rw [after_succ_of_ne h]
    exact Nat.mod_lt _ (by norm_num)

section Admits

variable (hs : size < 2 ^ 64) (ha : f.Admits size rs)
include hs ha

theorem n_lt (h : (f.after size rs k).left ≠ 0) : (rs k).n < 2 ^ 64 := by
  cases hr : rs k with
  | count n => exact (ha k n h hr).2.trans_lt (left_lt hs)
  | eof => norm_num [SysResult.n]
  | error => norm_num [SysResult.n]

/-- A call that does not fail takes its count from `left`. -/
theorem left_of_ne_error (h : (f.after size rs k).left ≠ 0) (hr : rs k ≠ .error) :
    (f.after size rs (k + 1)).left + (rs k).n = (f.after size rs k).left := by
  have hlt : (f.after size rs k).left < 2 ^ 64 := left_lt hs
  rw [after_succ_of_ne h]
  simp only
  cases hk : rs k with
  | count n =>
    obtain ⟨h1, h2⟩ := ha k n h hk
    simp only [SysResult.n]
    omega
  | eof =>
    simp only [SysResult.n]
    omega
  | error => exact absurd hk hr

/-- What was counted and what is left make up the size, modulo 2^64. -/
theorem left_add_sum : ((f.after size rs k).left + (f.after size rs k).sum) % 2 ^ 64 = size := by
  apply after_inv (p := fun s => (s.left + s.sum) % 2 ^ 64 = size)
  · exact Nat.mod_eq_of_lt hs
  · intro k h ih
    have hn := n_lt hs ha h
    rw [after_succ_of_ne h]
    simp only
    omega

/-- A loop that comes to its end returns the size: its caller does not learn of a failure. -/
theorem sum_of_left_zero (h : (f.after size rs k).left = 0) : (f.after size rs k).sum = size := by
  have hsum := left_add_sum hs ha (k := k)
  rwa [h, zero_add, Nat.mod_eq_of_lt sum_lt] at hsum

/-- Without a failure the counts so far are what is no longer left. -/
theorem left_add_counts (hr : ∀ i < k, (f.after size rs i).left ≠ 0 ∧ rs i ≠ .error) :
    (f.after size rs k).left + ∑ i ∈ Finset.range k, (rs i).n = size := by
  induction k with
  | zero => rfl
  | succ k ih =>
    obtain ⟨h, hk⟩ := hr k (Nat.lt_succ_self k)
    have hstep := left_of_ne_error hs ha h hk
    have hbefore := ih fun i hi => hr i (by omega)
    rw [Finset.sum_range_succ]
    omega

end Admits

end Left

/-! ## When a loop is safe -/

section Safe

variable {f : SockFun} {size : ℕ} {rs : ℕ → SysResult}

/-- A loop whose `left` never grows uses the rest of the message in each round. -/
theorem uses_inside (hs : size < 2 ^ 64) (hle : ∀ k, (f.after size rs k).left ≤ size) :
    ∀ k, ∀ u ∈ (f.after size rs k).uses, u.index + u.length ≤ size := by
  apply after_inv (p := fun s => ∀ u ∈ s.uses, u.index + u.length ≤ size)
  · intro u hu
    simp only [SockFun.start] at hu
    split at hu
    · rw [List.mem_singleton.1 hu]
      exact (Nat.zero_add size).le
    · cases hu
  · intro k h ih u hu
    rw [after_succ_of_ne h, List.mem_append, List.mem_singleton] at hu
    rcases hu with hu | rfl
    · exact ih u hu
    · have hk := hle k
      simp only
      omega

theorem safe_of_left_le (hs : size < 2 ^ 64) (hle : ∀ k, (f.after size rs (k + 1)).left ≤ (f.after size rs k).left)
    (hend : ∃ k, (f.after size rs k).left = 0) : f.Safe size rs := by
  have hanti : Antitone fun k => (f.after size rs k).left := antitone_nat_of_succ_le hle
  exact ⟨uses_inside hs fun k => hanti (Nat.zero_le k), hle, hend⟩

variable (hs : size < 2 ^ 64) (ha : f.Admits size rs)
include hs ha

theorem safe_of_transfers (h : Transfers size rs) : f.Safe size rs := by
  obtain ⟨k, hne, hsum⟩ := h
  have hcounts : ∀ i, i ≤ k → (f.after size rs i).left + ∑ j ∈ Finset.range i, (rs j).n = size := by
    intro i
    induction i with
    | zero => intro _; rfl
    | succ i ih =>
      intro hi
      have hbefore := ih (by omega)
      have hle : ∑ j ∈ Finset.range (i + 1), (rs j).n ≤ size := by
        rw [← hsum]
        exact Finset.sum_le_sum_of_subset (Finset.range_subset_range.2 hi)
      rw [Finset.sum_range_succ] at hle ⊢
      by_cases h : (f.after size rs i).left = 0
      · -- the whole message was counted before, so the rest of the counts are 0
        rw [after_succ_of_zero h]
        omega
      · have hstep := left_of_ne_error hs ha h (hne i hi)
        omega
  have hend : (f.after size rs k).left = 0 := by
    have hk := hcounts k le_rfl
    omega
  -- until the end each count is taken off, after it nothing changes
  refine safe_of_left_le hs (fun i => ?_) ⟨k, hend⟩
  by_cases h : (f.after size rs i).left = 0
  · rw [after_succ_of_zero h]
  · have hik : i < k := by
      by_contra hik
      rw [after_of_zero hend (not_lt.1 hik)] at h
      exact h hend
    have hstep := left_of_ne_error hs ha h (hne i hik)
    omega

theorem safe_of_wraps (h : Wraps size rs) : f.Safe size rs := by
  obtain ⟨hsize, k, heof, herr⟩ := h
  have hleft : ∀ i, i ≤ k → (f.after size rs i).left = size := by
    intro i
    induction i with
    | zero => intro _; rfl
    | succ i ih =>
      intro hi
      have hbefore := ih (by omega)
      have hr := heof i hi
      have hstep := left_of_ne_error hs ha (k := i) (by omega) (by rw [hr]; decide)
      simp only [hr, SysResult.n] at hstep
      omega
  -- one more than the largest size is 0
  have hend : (f.after size rs (k + 1)).left = 0 := by
    have hk := hleft k le_rfl
    rw [left_of_error (by omega) herr, hk, hsize]
    norm_num
  refine safe_of_left_le hs (fun i => ?_) ⟨k + 1, hend⟩
  rcases Nat.lt_or_ge k i with hi | hi
  · rw [after_of_zero hend (by omega : k + 1 ≤ i + 1), after_of_zero hend hi]
  · rw [hleft i hi]
    rcases Nat.eq_or_lt_of_le hi with rfl | hlt
    · rw [hend]
      exact Nat.zero_le _
    · exact (hleft (i + 1) hlt).le

theorem transfers_or_wraps (h : f.Safe size rs) : Transfers size rs ∨ Wraps size rs := by
  have hanti : Antitone fun k => (f.after size rs k).left := antitone_nat_of_succ_le h.left_le
  by_cases herr : ∃ i, (f.after size rs i).left ≠ 0 ∧ rs i = .error
  · -- a failed call adds one to what is left, unless it wraps
    obtain ⟨i, hi, hr⟩ := herr
    have hstep := h.left_le i
    have hlt : (f.after size rs i).left < 2 ^ 64 := left_lt hs
    have h0 : (f.after size rs i).left ≤ size := hanti (Nat.zero_le i)
    rw [left_of_error hi hr] at hstep
    refine Or.inr ⟨by omega, i, fun j hj => ?_, hr⟩
    have h1 : (f.after size rs i).left ≤ (f.after size rs (j + 1)).left := hanti hj
    have h2 : (f.after size rs j).left ≤ size := hanti (Nat.zero_le j)
    have h3 := h.left_le j
    -- before the failed call nothing is taken off, or one more would not fill the word
    cases hrj : rs j with
    | eof => rfl
    | count n =>
      have hn := ha j n (by omega) hrj
      have hcount := left_of_ne_error hs ha (k := j) (by omega) (by simp [hrj])
      simp only [hrj, SysResult.n] at hcount
      omega
    | error =>
      have hzero : (f.after size rs (j + 1)).left = _ := left_of_error (by omega) hrj
      omega
  · -- no call failed while something was left, so the counts up to the end make up the message
    push Not at herr
    have hlive : ∀ i < Nat.find h.ends, (f.after size rs i).left ≠ 0 := fun i hi => Nat.find_min h.ends hi
    have hcounts := left_add_counts hs ha fun i hi => ⟨hlive i hi, herr i (hlive i hi)⟩
    rw [Nat.find_spec h.ends, zero_add] at hcounts
    exact Or.inl ⟨Nat.find h.ends, fun i hi => herr i (hlive i hi), hcounts⟩

end Safe

/-- Each of the eight loops, for every size and all results the calls may return: it is safe exactly when the calls
transfer the whole message before one fails (or the largest size wraps); and whenever it ends, it returns the
size, as if nothing had failed. -/
theorem loops_safe_iff {size : ℕ} (hs : size < 2 ^ 64) (rs : ℕ → SysResult) :
    ∀ f ∈ sockFuns, f.Admits size rs →
      (f.Safe size rs ↔ Transfers size rs ∨ Wraps size rs) ∧
      ∀ k, (f.after size rs k).left = 0 → (f.after size rs k).sum = size := by
  intro f _ ha
  refine ⟨⟨transfers_or_wraps hs ha, ?_⟩, fun k => sum_of_left_zero hs ha⟩
  rintro (h | h)
  · exact safe_of_transfers hs ha h
  · exact safe_of_wraps hs ha h

/-- Three bytes in two pieces, with an empty result between them. -/
theorem loops_safe_three :
    staticReadAsAReceiver.Safe 3 fun k => if k = 0 then .count 2 else if k = 2 then .count 1 else .eof := by
  have hs : 3 < 2 ^ 64 := by norm_num
  have hmem : staticReadAsAReceiver ∈ sockFuns := by simp [sockFuns]
  refine ((loops_safe_iff hs _ _ hmem fun k n _ hn => ?_).1).2 (Or.inl ⟨3, by decide, by decide⟩)
  by_cases h0 : k = 0
  · subst h0
    cases hn
    decide
  · by_cases h2 : k = 2
    · subst h2
      cases hn
      decide
    · simp [h0, h2] at hn

/-- A peer that has closed its end is read from for ever; a call that fails makes the rest of the message grow. -/
theorem not_loops_safe : ¬ (∀ rs, staticReadAsAReceiver.Admits 1 rs → staticReadAsAReceiver.Safe 1 rs) ∧
    ¬ staticReadAsAReceiver.Safe 1 (fun _ => .eof) ∧ ¬ staticReadAsAReceiver.Safe 1 (fun _ => .error) := by
  have heof : ∀ k, (staticReadAsAReceiver.after 1 (fun _ => .eof) k).left = 1 := by
    intro k
    induction k with
    | zero => rfl
    | succ k ih =>
      rw [after_succ_of_ne (by rw [ih]; decide)]
      simp only [ih]
      rfl
  have hclosed : ¬ staticReadAsAReceiver.Safe 1 (fun _ => .eof) := by
    intro h
    obtain ⟨k, hk⟩ := h.ends
    rw [heof k] at hk
    cases hk
  refine ⟨fun h => hclosed (h _ fun k n _ hn => by cases hn), hclosed, fun h => ?_⟩
  exact absurd (h.left_le 0) (by decide)

end Mpsi
