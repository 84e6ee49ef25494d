/-
How a step of the program can fail, and the reads it does not check. Arrays and vectors are lists,
`int` indices are integers.
-/
import Mpsi.Data.Block
import Mpsi.Lib.Swap

namespace Mpsi

/-- The ends of a run that are no return: a read outside an array, a division by zero, an array of
negative size, and `exit(1)`. -/
inductive Fault where
  | outOfRange
  | divByZero
  | badAlloc
  | exit (msg : String)
  deriving DecidableEq

/-- What lies outside the arrays, for each kind of element the program reads without a check. -/
structure Outside where
  ints : ℤ → ℤ
  blocks : ℤ → Block
  pairs : ℤ → Block × Block

/-- Memory that sends a read outside the arrays to the place before them, where the pair `(x, 0)` lies. -/
def Outside.filled (x : Block) : Outside := ⟨fun _ => -1, fun _ => 0, fun _ => (x, 0)⟩

/-- `xs[i]`, where `out` says what a read outside the array gives: nothing in a checked run (it is
reported), any value of the memory around the array otherwise. -/
def readAt {α : Type} (out : Option (ℤ → α)) (xs : List α) (i : ℤ) : Except Fault α :=
  match (if 0 ≤ i then xs[i.toNat]? else none), out with
  | some x, _ => .ok x
  | none, some f => .ok (f i)
  | none, none => .error .outOfRange

section ReadAt

variable {α β : Type} {xs : List α} {out : Option (ℤ → α)}

theorem readAt_nat (n : ℕ) (h : n < xs.length) : readAt out xs n = .ok xs[n] := by
  simp [readAt, List.getElem?_eq_getElem h]

theorem readAt_of_range {i : ℤ} (h₀ : 0 ≤ i) (h : i.toNat < xs.length) : readAt out xs i = .ok xs[i.toNat] := by
  simp [readAt, h₀, List.getElem?_eq_getElem h]

/-- A checked read succeeds exactly inside the array. -/
theorem readAt_none_ok {i : ℤ} {x : α} :
    readAt none xs i = .ok x ↔ ∃ n : ℕ, i = n ∧ xs[n]? = some x := by
  unfold readAt
  constructor
  · intro h
    split at h
    · rename_i y _ hy
      split at hy
      · cases h; exact ⟨i.toNat, by omega, hy⟩
      · cases hy
    · rename_i hn; cases hn
    · cases h
  · rintro ⟨n, rfl, hn⟩
    simp [hn]

/-- A checked read outside the array is reported. -/
theorem readAt_none_outside {i : ℤ} (h : ¬ (0 ≤ i ∧ i < xs.length)) : readAt none xs i = .error .outOfRange := by
  unfold readAt
  by_cases h0 : 0 ≤ i
  · rw [if_pos h0, List.getElem?_eq_none (by omega)]
  · rw [if_neg h0]

theorem readAt_outside {f : ℤ → α} {i : ℤ} (h : i < 0 ∨ (xs.length : ℤ) ≤ i) : readAt (some f) xs i = .ok (f i) := by
  unfold readAt
  rcases h with h | h
  · rw [if_neg (by omega)]
  · rw [if_pos (by omega), List.getElem?_eq_none (by omega)]

/-- The value an unchecked read finds. -/
def peek (f : ℤ → α) (xs : List α) (i : ℤ) : α := if 0 ≤ i then xs.getD i.toNat (f i) else f i

theorem readAt_peek (f : ℤ → α) (xs : List α) (i : ℤ) : readAt (some f) xs i = .ok (peek f xs i) := by
  unfold readAt peek
  by_cases hi : 0 ≤ i
  · simp only [if_pos hi, List.getD_eq_getElem?_getD]
    cases xs[i.toNat]? <;> rfl
  · simp only [if_neg hi]

theorem peek_nat {f : ℤ → α} {n : ℕ} (h : n < xs.length) : peek f xs n = xs[n] := by
  simp [peek, h]

/-- What a checked read gives, an unchecked one gives too. -/
theorem readAt_mono {i : ℤ} {x : α} (h : readAt none xs i = .ok x) : readAt out xs i = .ok x := by
  obtain ⟨n, rfl, hn⟩ := readAt_none_ok.1 h
  simp [readAt, hn]

end ReadAt

/-! ## Sequences that can fail -/

section Except

variable {ε α β : Type}

theorem bind_ok {x : Except ε α} {f : α → Except ε β} {b : β} (h : x >>= f = .ok b) :
    ∃ a, x = .ok a ∧ f a = .ok b := by
  cases x with
  | error e => cases h
  | ok a => exact ⟨a, rfl, h⟩

@[simp] theorem ok_bind (a : α) (f : α → Except ε β) : ((Except.ok a : Except ε α) >>= f) = f a := rfl

@[simp] theorem error_bind (e : ε) (f : α → Except ε β) : ((Except.error e : Except ε α) >>= f) = .error e := rfl

/-- A loop over the indices of a list that reads each element is a loop over the list. -/
theorem foldlM_readAt (out : Option (ℤ → α)) (xs : List α) {g : β → α → Except Fault β} {f : β → ℕ → Except Fault β}
    (hf : ∀ b (i : ℕ), f b i = readAt out xs i >>= g b) :
    ∀ (ys pre : List α) (b : β), xs = pre ++ ys → (List.range' pre.length ys.length).foldlM f b = ys.foldlM g b
  | [], pre, b, _ => rfl
  | y :: ys, pre, b, h => by
    have hy : readAt out xs pre.length = .ok y := by
      rw [readAt_nat _ (by simp [h])]; simp [h]
    simp only [List.length_cons, List.range'_succ, List.foldlM_cons, hf, hy, ok_bind]
    congr 1
    funext b'
    have := foldlM_readAt out xs hf ys (pre ++ [y]) b' (by simp [h])
    simpa using this

end Except

/-- Natural numbers as `int`s. -/
def ofNats (l : List ℕ) : List ℤ := l.map fun n : ℕ => (n : ℤ)

theorem mem_ofNats {l : List ℕ} {i : ℤ} : i ∈ ofNats l ↔ ∃ n ∈ l, (n : ℤ) = i := by simp [ofNats]

@[simp] theorem length_ofNats (l : List ℕ) : (ofNats l).length = l.length := by simp [ofNats]

/-- `new T[n]`: a negative size ends the run. -/
def newArray (n : ℤ) : Except Fault Unit := if n < 0 then .error .badAlloc else .ok ()

theorem newArray_ok {n : ℤ} : newArray n = .ok () ↔ 0 ≤ n := by
  unfold newArray; split <;> simp <;> omega

/-! ## Exchanging two elements -/

section SwapRef

variable {α : Type}

/-- `swap_(xs[i], xs[j])`. -/
def swapRef (xs : List α) (i j : ℤ) : Except Fault (List α) := do
  let a ← readAt none xs i
  let b ← readAt none xs j
  pure ((xs.set i.toNat b).set j.toNat a)

theorem swapRef_nat {xs : List α} {i j : ℕ} (hi : i < xs.length) (hj : j < xs.length) :
    swapRef xs i j = .ok (Swap.swapAt xs i j) := by
  simp only [swapRef, readAt_nat i hi, readAt_nat j hj, ok_bind, Int.toNat_natCast, Swap.swapAt_of_lt hi hj]
  rfl

end SwapRef

/-- What a security check of `Party` answers: the `int` it returns and the line it prints. -/
structure Verdict where
  code : ℕ
  msg : String

end Mpsi
