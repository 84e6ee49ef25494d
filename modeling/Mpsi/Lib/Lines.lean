/-
Texts as lists of lines. `getline` takes the next line off a text, up to the mark `eol` that ends it; a loop
takes lines until there is none (`whileGetline`). A text that ends without the mark has what follows its
last mark as its last line, unless nothing follows.
-/
import Mathlib.Tactic

namespace Lines

variable {α σ ε : Type} [DecidableEq α] (eol : α)

/-- The next line, and what follows its mark. -/
def getline : List α → Option (List α × List α)
  | [] => none
  | c :: text => some ((c :: text).takeWhile (· ≠ eol), ((c :: text).dropWhile (· ≠ eol)).tail)

variable {eol}

theorem getline_lt {text line rest : List α} (h : getline eol text = some (line, rest)) : rest.length < text.length := by
  cases text with
  | nil => cases h
  | cons c text =>
    cases h
    have hle := (List.dropWhile_suffix (l := c :: text) (· ≠ eol)).length_le
    simp only [List.length_tail, List.length_cons] at hle ⊢
    omega

variable (eol) in
/-- The lines of a text. -/
def lines (text : List α) : List (List α) :=
  match _h : getline eol text with
  | none => []
  | some (line, rest) => line :: lines rest
termination_by text.length
decreasing_by exact getline_lt _h

variable (eol) in
/-- `while (getline(file, line)) body` -/
def whileGetline (body : σ → List α → Except ε σ) (s : σ) (text : List α) : Except ε σ :=
  match _h : getline eol text with
  | none => .ok s
  | some (line, rest) => body s line >>= fun s => whileGetline body s rest
termination_by text.length
decreasing_by exact getline_lt _h

theorem lines_none {text : List α} (h : getline eol text = none) : lines eol text = [] := by
  unfold lines
  split
  · rfl
  · rename_i h'
    rw [h] at h'
    cases h'

theorem lines_some {text line rest : List α} (h : getline eol text = some (line, rest)) :
    lines eol text = line :: lines eol rest := by
  rw [lines]
  split
  · rename_i h'
    rw [h] at h'
    cases h'
  · rename_i h'
    rw [h] at h'
    cases h'
    rfl

/-- The loop runs over the lines. -/
theorem whileGetline_eq {body : σ → List α → Except ε σ} {s : σ} {text : List α} :
    whileGetline eol body s text = (lines eol text).foldlM body s := by
  induction hn : text.length using Nat.strong_induction_on generalizing s text with
  | _ n ih =>
    subst hn
    unfold whileGetline
    split
    · rename_i h
      rw [lines_none h]
      rfl
    · rename_i line rest h
      rw [lines_some h, List.foldlM_cons]
      exact congrArg _ (funext fun s => ih _ (getline_lt h) rfl)

theorem ne_of_line {line : List α} (h : eol ∉ line) : ∀ c ∈ line, decide (c ≠ eol) = true := by
  intro c hc
  rw [decide_eq_true_eq]
  rintro rfl
  exact h hc

/-- The next line of a text that begins with `line`, which has no mark. -/
theorem getline_append {line text : List α} (h : eol ∉ line) (hne : line ++ text ≠ []) : getline eol (line ++ text) =
    some (line ++ text.takeWhile (· ≠ eol), (text.dropWhile (· ≠ eol)).tail) := by
  cases hl : line ++ text with
  | nil => exact absurd hl hne
  | cons c rest =>
    rw [getline, ← hl, List.takeWhile_append_of_pos (ne_of_line h), List.dropWhile_append_of_pos (ne_of_line h)]

@[simp] theorem lines_nil : lines eol ([] : List α) = [] := lines_none rfl

/-- A line with its mark. -/
theorem lines_line {line : List α} (h : eol ∉ line) (rest : List α) : lines eol (line ++ eol :: rest) = line :: lines eol rest := by
  apply lines_some
  rw [getline_append h (by simp)]
  simp

/-- The last line, without a mark. -/
theorem lines_last {line : List α} (h : eol ∉ line) (hne : line ≠ []) : lines eol line = [line] := by
  have hget : getline eol (line ++ []) = _ := getline_append h (by simpa using hne)
  rw [List.append_nil] at hget
  rw [lines_some hget]
  simp

/-- Lines that all have their marks, and what follows. -/
theorem lines_flatMap {rest : List α} : ∀ {ls : List (List α)}, (∀ l ∈ ls, eol ∉ l) →
    lines eol ((ls.flatMap fun l => l ++ [eol]) ++ rest) = ls ++ lines eol rest
  | [], _ => rfl
  | l :: ls, h => by
    rw [List.flatMap_cons, List.append_assoc, List.append_assoc, List.singleton_append, lines_line (h l (by simp)),
      lines_flatMap fun l' hl' => h l' (List.mem_cons_of_mem _ hl'), List.cons_append]

end Lines
