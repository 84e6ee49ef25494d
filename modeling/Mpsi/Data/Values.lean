/-
The loader of the items. `get_values` cuts the file at its commas, whatever else there is, and takes the
number a piece begins with. So a piece that runs over the end of a row gives the last number of that row, and
the first number of the next row is lost (`getValues_write`). The items come back as they were written when they
are all in one row (`getValues_write_iff`); how the row ends makes no difference.
-/
import Mpsi.Data.Loaders

namespace Mpsi

open Lines

/-- The body of the loop of `get_values`. -/
def valuesLine (values : List ℤ) (intermediate : List Char) : Except LoadFault (List ℤ) := do
  let value ← stoi intermediate
  pure (values ++ [value])

/-- `functions::get_values`, where `file` is the text of the file if it can be opened. -/
def getValues (values : List ℤ) (file : Option (List Char)) : Except LoadFault (List ℤ) :=
  match file with
  | some text => whileGetline ',' valuesLine values text
  | none => .ok values

/-! ## Numbers -/

/-- A number as it is written. -/
def intText (x : ℤ) : List Char := if x < 0 then '-' :: Nat.toDigits 10 x.natAbs else Nat.toDigits 10 x.natAbs

/-- The values of an `int`. -/
def InInt (x : ℤ) : Prop := -2 ^ 31 ≤ x ∧ x < 2 ^ 31

instance (x : ℤ) : Decidable (InInt x) := inferInstanceAs (Decidable (_ ∧ _))

/-- What follows a number does not go on with it. -/
def NoDigit (text : List Char) : Prop := ∀ c, text.head? = some c → c.isDigit = false

theorem isDigit_toDigits {n : ℕ} {c : Char} (h : c ∈ Nat.toDigits 10 n) : c.isDigit = true :=
  Nat.isDigit_of_mem_toDigits (by decide) (by decide) h

theorem takeWhile_digits (n : ℕ) {text : List Char} (h : NoDigit text) :
    (Nat.toDigits 10 n ++ text).takeWhile Char.isDigit = Nat.toDigits 10 n := by
  rw [List.takeWhile_append_of_pos fun c hc => isDigit_toDigits hc]
  cases text with
  | nil => simp
  | cons c text => rw [List.takeWhile_cons_of_neg (by rw [h c rfl]; decide), List.append_nil]

/-- A number begins with a digit, so neither with white space nor with a sign. -/
theorem toDigits_head (n : ℕ) (text : List Char) : ∃ c l, Nat.toDigits 10 n ++ text = c :: l ∧ c.isDigit = true := by
  cases hl : Nat.toDigits 10 n with
  | nil => exact absurd hl Nat.toDigits_ne_nil
  | cons c l => exact ⟨c, l ++ text, rfl, isDigit_toDigits (by rw [hl]; exact List.mem_cons_self ..)⟩

/-- `stoi` of a number and what follows it. -/
theorem stoi_intText (x : ℤ) {text : List Char} (h : NoDigit text) :
    stoi (intText x ++ text) = if InInt x then .ok x else .error .outOfRange := by
  have hdigits := takeWhile_digits x.natAbs h
  have hnil : Nat.toDigits 10 x.natAbs ≠ [] := Nat.toDigits_ne_nil
  unfold intText stoi InInt
  split
  · have hspace : ('-' :: (Nat.toDigits 10 x.natAbs ++ text)).dropWhile isSpace = '-' :: (Nat.toDigits 10 x.natAbs ++ text) :=
      List.dropWhile_cons_of_neg (by decide)
    have hvalue : -(x.natAbs : ℤ) = x := by omega
    simp only [List.cons_append, hspace, List.head?_cons, true_or, if_true, List.tail_cons, hdigits, hnil, if_false,
      Nat.ofDigitChars_ten_toDigits, hvalue]
    rfl
  · obtain ⟨c, l, hl, hc⟩ := toDigits_head x.natAbs text
    have hspace : (Nat.toDigits 10 x.natAbs ++ text).dropWhile isSpace = Nat.toDigits 10 x.natAbs ++ text := by
      rw [hl]
      apply List.dropWhile_cons_of_neg
      intro hs
      rw [not_digit_of_space hs] at hc
      cases hc
    have hsign : ∀ d, d.isDigit = false → (Nat.toDigits 10 x.natAbs ++ text).head? ≠ some d := by
      intro d hd he
      rw [hl] at he
      cases he
      rw [hc] at hd
      cases hd
    have hvalue : (x.natAbs : ℤ) = x := by omega
    simp only [hspace, hsign '-' rfl, hsign '+' rfl, or_self, if_false, hdigits, hnil, Nat.ofDigitChars_ten_toDigits, hvalue]
    rfl

theorem comma_not_mem_intText (x : ℤ) : ',' ∉ intText x := by
  have hdigits : ',' ∉ Nat.toDigits 10 x.natAbs := fun h => absurd (isDigit_toDigits h) (by decide)
  unfold intText
  split
  · simp [hdigits]
  · exact hdigits

/-! ## Rows -/

/-- The numbers of a row, with commas between them. -/
def rowText (row : List ℤ) : List Char := [','].intercalate (row.map intText)

/-- What is left of a text behind its next comma. -/
def afterComma (text : List Char) : List Char := (text.dropWhile (· ≠ ',')).tail

/-- One more number in the vector. -/
def pushValue (values : List ℤ) (x : ℤ) : Except LoadFault (List ℤ) := if InInt x then .ok (values ++ [x]) else .error .outOfRange

theorem foldlM_pushValue : ∀ (row values : List ℤ), row.foldlM pushValue values =
    if ∀ x ∈ row, InInt x then .ok (values ++ row) else .error .outOfRange
  | [], values => by simp; rfl
  | x :: row, values => by
    rw [List.foldlM_cons, pushValue]
    by_cases hx : InInt x
    · rw [if_pos hx, ok_bind, foldlM_pushValue row]
      simp [hx]
    · rw [if_neg hx, if_neg fun h => hx (h x (List.mem_cons_self ..))]
      rfl

section Loop

variable {values : List ℤ} {text : List Char}

theorem rowText_cons (x y : ℤ) (row : List ℤ) : rowText (x :: y :: row) = intText x ++ ',' :: rowText (y :: row) := by
  simp [rowText, List.intercalate]

/-- The loop takes the next piece, up to a comma. -/
theorem whileGetline_cons {piece rest : List Char} (h : getline ',' text = some (piece, rest)) :
    whileGetline ',' valuesLine values text = valuesLine values piece >>= fun values => whileGetline ',' valuesLine values rest := by
  rw [whileGetline]
  split
  · rename_i h'
    rw [h] at h'
    cases h'
  · rename_i h'
    rw [h] at h'
    cases h'
    rfl

theorem noDigit_takeWhile (h : NoDigit text) : NoDigit (text.takeWhile (· ≠ ',')) := by
  cases text with
  | nil => exact h
  | cons c text =>
    intro d hd
    rw [List.takeWhile_cons] at hd
    split at hd
    · exact h d hd
    · cases hd

/-- One round of the loop, where the text begins with a number. -/
theorem whileGetline_intText (x : ℤ) (h : NoDigit text) : whileGetline ',' valuesLine values (intText x ++ text) =
    pushValue values x >>= fun values => whileGetline ',' valuesLine values (afterComma text) := by
  have hne : intText x ++ text ≠ [] := by
    unfold intText
    split <;> simp
  rw [whileGetline_cons (getline_append (comma_not_mem_intText x) hne), valuesLine, stoi_intText x (noDigit_takeWhile h), pushValue]
  split <;> rfl

theorem afterComma_comma (text : List Char) : afterComma (',' :: text) = text := rfl

/-- The loop over the numbers of a row. -/
theorem whileGetline_row (h : NoDigit text) : ∀ (row : List ℤ) (values : List ℤ), row ≠ [] →
    whileGetline ',' valuesLine values (rowText row ++ text) =
      row.foldlM pushValue values >>= fun values => whileGetline ',' valuesLine values (afterComma text)
  | [x], values, _ => by
    simp only [List.foldlM_cons, List.foldlM_nil, bind_pure]
    simpa [rowText, List.intercalate] using whileGetline_intText x h
  | x :: y :: row, values, _ => by
    rw [rowText_cons, List.append_assoc, List.cons_append, whileGetline_intText x fun c hc => by cases hc; rfl, List.foldlM_cons,
      bind_assoc]
    apply congrArg _
    funext values
    rw [afterComma_comma]
    exact whileGetline_row h (y :: row) values (List.cons_ne_nil _ _)

end Loop

/-! ## Files -/

section Files

variable {c : Convention} {text : List Char}

/-- What follows the first row of a file: the other rows, each after an end of line, and the ends of line at the end. -/
def restText (c : Convention) (rows : List (List ℤ)) : List Char :=
  (rows.flatMap fun row => c.eol.chars ++ rowText row) ++ (List.replicate c.ends c.eol.chars).flatten

theorem intercalate_cons (sep l : List Char) : ∀ ls : List (List Char), sep.intercalate (l :: ls) = l ++ ls.flatMap fun l => sep ++ l
  | [] => by simp [List.intercalate]
  | l' :: ls => by
    have ih := intercalate_cons sep l' ls
    simp only [List.intercalate, List.intersperse, List.flatten_cons] at ih ⊢
    rw [ih, List.flatMap_cons, List.append_assoc]

theorem write_rows (row : List ℤ) (rows : List (List ℤ)) : c.write ((row :: rows).map rowText) = rowText row ++ restText c rows := by
  have hends : (if c.final then c.eol.chars else []) ++ (List.replicate c.blank c.eol.chars).flatten =
      (List.replicate c.ends c.eol.chars).flatten := by
    cases hf : c.final with
    | false => simp [Convention.ends, hf]
    | true => simp [Convention.ends, hf, Nat.add_comm 1, List.replicate_succ]
  rw [Convention.write, List.append_assoc, hends, List.map_cons, intercalate_cons, List.flatMap_map, List.append_assoc]
  rfl

theorem noDigit_chars (eol : Eol) : ∃ ch l, eol.chars = ch :: l ∧ ch.isDigit = false := by
  cases eol with
  | lf => exact ⟨'\n', [], rfl, rfl⟩
  | crlf => exact ⟨'\r', ['\n'], rfl, rfl⟩

theorem noDigit_restText (rows : List (List ℤ)) : NoDigit (restText c rows) := by
  obtain ⟨ch, l, hch, hd⟩ := noDigit_chars c.eol
  intro d h
  unfold restText at h
  cases rows with
  | cons row rows =>
    rw [List.flatMap_cons, hch] at h
    cases h
    exact hd
  | nil =>
    cases hends : c.ends with
    | zero => rw [hends] at h; cases h
    | succ m =>
      rw [hends, List.replicate_succ, List.flatten_cons, hch] at h
      cases h
      exact hd

theorem afterComma_append {l : List Char} (h : ',' ∉ l) : afterComma (l ++ text) = afterComma text := by
  unfold afterComma
  rw [List.dropWhile_append_of_pos (ne_of_line h)]

theorem comma_not_mem_chars (eol : Eol) : ',' ∉ eol.chars := by
  cases eol <;> decide

/-- Behind a row the first number of the next one is lost. -/
theorem whileGetline_restText : ∀ (rows : List (List ℤ)) (values : List ℤ), (∀ row ∈ rows, row ≠ []) →
    whileGetline ',' valuesLine values (afterComma (restText c rows)) = (rows.flatMap List.tail).foldlM pushValue values
  | [], values, _ => by
    have hends : ',' ∉ (List.replicate c.ends c.eol.chars).flatten := by
      rw [List.mem_flatten]
      rintro ⟨l, hl, hm⟩
      rw [List.eq_of_mem_replicate hl] at hm
      exact comma_not_mem_chars _ hm
    have hnil : afterComma (restText c []) = [] := by
      unfold restText
      rw [List.flatMap_nil, List.nil_append, ← List.append_nil (List.flatten _), afterComma_append hends]
      rfl
    rw [hnil, whileGetline]
    rfl
  | [] :: rows, values, h => absurd rfl (h [] (List.mem_cons_self ..))
  | [x] :: rows, values, h => by
    have htext : restText c ([x] :: rows) = c.eol.chars ++ (intText x ++ restText c rows) := by
      simp [restText, rowText, List.intercalate]
    rw [htext, afterComma_append (comma_not_mem_chars _), afterComma_append (comma_not_mem_intText x),
      whileGetline_restText rows values fun r hr => h r (List.mem_cons_of_mem _ hr)]
    rfl
  | (x :: y :: row) :: rows, values, h => by
    have htext : restText c ((x :: y :: row) :: rows) =
        c.eol.chars ++ (intText x ++ ',' :: (rowText (y :: row) ++ restText c rows)) := by
      simp [restText, rowText_cons]
    have ih := fun values => whileGetline_restText rows values fun r hr => h r (List.mem_cons_of_mem _ hr)
    rw [htext, afterComma_append (comma_not_mem_chars _), afterComma_append (comma_not_mem_intText x), afterComma_comma,
      whileGetline_row (noDigit_restText rows) _ _ (List.cons_ne_nil y row), List.flatMap_cons, List.foldlM_append]
    exact congrArg _ (funext ih)

/-- The numbers `get_values` reads from a file of rows. -/
def readValues : List (List ℤ) → List ℤ
  | [] => []
  | row :: rows => row ++ rows.flatMap List.tail

theorem getValues_write (c : Convention) {rows : List (List ℤ)} (hne : rows ≠ []) (hrows : ∀ row ∈ rows, row ≠ []) :
    getValues [] (some (c.write (rows.map rowText))) =
      if ∀ x ∈ readValues rows, InInt x then .ok (readValues rows) else .error .outOfRange := by
  obtain ⟨row, rows, rfl⟩ := List.exists_cons_of_ne_nil hne
  have hrest := fun values => whileGetline_restText (c := c) rows values fun r hr => hrows r (List.mem_cons_of_mem _ hr)
  rw [getValues, write_rows, whileGetline_row (noDigit_restText rows) row [] (hrows row (List.mem_cons_self ..)), funext hrest,
    ← List.foldlM_append]
  exact foldlM_pushValue _ []

theorem length_flatMap_tail : ∀ {rows : List (List ℤ)}, (∀ row ∈ rows, row ≠ []) →
    (rows.flatMap List.tail).length + rows.length = rows.flatten.length
  | [], _ => rfl
  | row :: rows, h => by
    have ih := length_flatMap_tail fun r hr => h r (List.mem_cons_of_mem _ hr)
    have hpos := List.length_pos_of_ne_nil (h row (List.mem_cons_self ..))
    rw [List.flatMap_cons, List.flatten_cons, List.length_append, List.length_append, List.length_tail, List.length_cons]
    omega

/-- The items come back as they were written when they are in one row and each of them is an `int`. -/
theorem getValues_write_iff (c : Convention) {rows : List (List ℤ)} (hne : rows ≠ []) (hrows : ∀ row ∈ rows, row ≠ []) :
    getValues [] (some (c.write (rows.map rowText))) = .ok rows.flatten ↔ rows.length = 1 ∧ ∀ x ∈ rows.flatten, InInt x := by
  rw [getValues_write c hne hrows]
  obtain ⟨row, rows, rfl⟩ := List.exists_cons_of_ne_nil hne
  have hlen := length_flatMap_tail fun r hr => hrows r (List.mem_cons_of_mem row hr)
  constructor
  · intro h
    split at h
    · rename_i hin
      have heq : readValues (row :: rows) = (row :: rows).flatten := Except.ok.inj h
      have hlen' := congrArg List.length heq
      rw [readValues, List.flatten_cons, List.length_append, List.length_append] at hlen'
      refine ⟨?_, heq ▸ hin⟩
      rw [List.length_cons]
      omega
    · cases h
  · rintro ⟨h1, hin⟩
    obtain rfl : rows = [] := List.length_eq_zero_iff.1 (Nat.succ.inj h1)
    have heq : readValues [row] = [row].flatten := by simp [readValues]
    rw [heq, if_pos hin]

/-- Two rows as one. -/
theorem getValues_write_rows : getValues [] (some ((⟨.lf, true, 0⟩ : Convention).write [rowText [1, 2, -450]])) = .ok [1, 2, -450] ∧
    getValues [] (some ((⟨.crlf, false, 2⟩ : Convention).write [rowText [1, 2], rowText [-450]])) ≠ .ok [1, 2, -450] := by
  have hone := @getValues_write_iff ⟨.lf, true, 0⟩ [[1, 2, -450]] (by decide) (by decide)
  have htwo := @getValues_write_iff ⟨.crlf, false, 2⟩ [[1, 2], [-450]] (by decide) (by decide)
  exact ⟨hone.2 ⟨rfl, by decide⟩, fun h => absurd (htwo.1 h).1 (by decide)⟩

end Files

end Mpsi
