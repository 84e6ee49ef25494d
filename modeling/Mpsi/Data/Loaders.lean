/-
The two loaders of text files. `set_ips` takes the last character off every line, whatever it is; so it needs
the `\r` of a CRLF file, after the last line too. `read_protocol_parameters` keeps the line as it is, and
writes each line after the eighth behind its array. A file is written with a `Convention`: its ends of line,
whether the last line has one, and blank lines at the end.

Each loader recovers what was written in files of one kind (`setIps_write_iff`,
`readProtocolParameters_write_iff`), and no file is of both kinds.
-/
import Mathlib.Data.List.GetD
import Mathlib.Data.List.TakeWhile
import Mpsi.Data.Fault
import Mpsi.Lib.Lines

namespace Mpsi

open Lines

/-! ## The loaders -/

/-- How a loader can fail: the `length_error` of `resize`, the `invalid_argument` and `out_of_range` of `stoi`,
and a write behind `values`. -/
inductive LoadFault where
  | lengthError
  | invalidArgument
  | outOfRange
  | overrun
  deriving DecidableEq

/-- The body of the loop of `set_ips`. For an empty line `size()-1` is the largest `size_t`. -/
def setIpsLine (ips : List (List Char)) (line : List Char) : Except LoadFault (List (List Char)) :=
  if line.length = 0 then .error .lengthError else .ok (ips ++ [line.take (line.length - 1)])

/-- `functions::set_ips`, where `file` is the text of the file if it can be opened: the vector, and its size as
an `int`. -/
def setIps (ips : List (List Char)) (file : Option (List Char)) : Except LoadFault (List (List Char) × ℤ) := do
  let ips ← match file with
    | some text => whileGetline '\n' setIpsLine ips text
    | none => pure ips
  pure (ips, (BitVec.ofNat 32 ips.length).toInt)

/-- `line.substr(line.find("=") + 1)`. Without a "=" `find` is `npos`, and one more is 0. -/
def valueOf (line : List Char) : List Char :=
  match line.findIdx? (· = '=') with
  | some delimiterPos => line.drop (delimiterPos + 1)
  | none => line

/-- The body of the loop of `read_protocol_parameters`, over `values` and `counter`. -/
def readLine (s : (Fin 8 → List Char) × ℕ) (line : List Char) : Except LoadFault ((Fin 8 → List Char) × ℕ) :=
  if h : s.2 < 8 then .ok (Function.update s.1 ⟨s.2, h⟩ (valueOf line), s.2 + 1) else .error .overrun

/-- `isspace`. -/
def isSpace (c : Char) : Bool := c ∈ [' ', '\t', '\n', '\x0b', '\x0c', '\r']

/-- `stoi`: white space, a sign, and digits up to the first other character. -/
def stoi (str : List Char) : Except LoadFault ℤ :=
  let str := str.dropWhile isSpace
  let digits := (if str.head? = some '-' ∨ str.head? = some '+' then str.tail else str).takeWhile Char.isDigit
  let value : ℤ := if str.head? = some '-' then -Nat.ofDigitChars 10 digits 0 else Nat.ofDigitChars 10 digits 0
  if digits = [] then .error .invalidArgument
  else if -2 ^ 31 ≤ value ∧ value < 2 ^ 31 then .ok value
  else .error .outOfRange

/-- The parameters of the protocol, with the types `main` declares them with. -/
structure Parameters where
  seeds : BitVec 32
  Nbf : BitVec 32
  Not : BitVec 64
  numOfOnes : BitVec 32
  Nc : BitVec 32
  Nr : BitVec 32
  data : List Char
  ip : List Char

/-- What `read_protocol_parameters` does with its array. -/
def parametersOf (values : Fin 8 → List Char) : Except LoadFault Parameters := do
  let seeds ← stoi (values 0)
  let Nbf ← stoi (values 1)
  let Not ← stoi (values 2)
  let numOfOnes ← stoi (values 3)
  let Nc ← stoi (values 4)
  let Nr ← stoi (values 5)
  pure {
    seeds := BitVec.ofInt 32 seeds
    Nbf := BitVec.ofInt 32 Nbf
    Not := BitVec.ofInt 64 Not
    numOfOnes := BitVec.ofInt 32 numOfOnes
    Nc := BitVec.ofInt 32 Nc
    Nr := BitVec.ofInt 32 Nr
    data := values 6
    ip := values 7 }

/-- `functions::read_protocol_parameters`. -/
def readProtocolParameters (file : Option (List Char)) : Except LoadFault Parameters := do
  let s ← match file with
    | some text => whileGetline '\n' readLine (fun _ => [], 0) text
    | none => pure (fun _ => [], 0)
  parametersOf s.1

/-! ## Files -/

/-- The ends of line of a file. -/
inductive Eol where
  | lf
  | crlf
  deriving DecidableEq

/-- What stands before the `\n`. -/
def Eol.cr : Eol → List Char
  | .lf => []
  | .crlf => ['\r']

def Eol.chars (eol : Eol) : List Char := eol.cr ++ ['\n']

/-- How a file is written. -/
structure Convention where
  eol : Eol
  /-- Whether there is an end of line after the last line. -/
  final : Bool
  /-- The number of blank lines at the end. -/
  blank : ℕ
  deriving DecidableEq

namespace Convention

/-- The file of the lines `ls`. -/
def write (c : Convention) (ls : List (List Char)) : List Char :=
  c.eol.chars.intercalate ls ++ (if c.final then c.eol.chars else []) ++ (List.replicate c.blank c.eol.chars).flatten

/-- The number of ends of line after the last line. -/
def ends (c : Convention) : ℕ := (if c.final then 1 else 0) + c.blank

end Convention

/-- An address. -/
structure Address where
  chars : List Char
  ne_nil : chars ≠ []
  line : '\n' ∉ chars

/-- Parameters that can be written in a file. -/
structure Config extends Parameters where
  data_line : '\n' ∉ data
  ip_line : '\n' ∉ ip

def nameValue (name : String) (value : List Char) : List Char := name.toList ++ '=' :: value

/-- The lines of the parameters, in the order of `cfg.txt`. -/
def Parameters.lines (p : Parameters) : List (List Char) :=
  [nameValue "seeds" (Nat.toDigits 10 p.seeds.toNat), nameValue "Nbf" (Nat.toDigits 10 p.Nbf.toNat),
    nameValue "Not" (Nat.toDigits 10 p.Not.toNat), nameValue "NumOfOnes" (Nat.toDigits 10 p.numOfOnes.toNat),
    nameValue "Nc" (Nat.toDigits 10 p.Nc.toNat), nameValue "Nr" (Nat.toDigits 10 p.Nr.toNat),
    nameValue "Data_file" p.data, nameValue "IP_file" p.ip]

def Parameters.numbers (p : Parameters) : List ℕ :=
  [p.seeds.toNat, p.Nbf.toNat, p.Not.toNat, p.numOfOnes.toNat, p.Nc.toNat, p.Nr.toNat]

/-! ## The lines of a file -/

theorem intercalate_concat (sep : List Char) (last : List Char) : ∀ init : List (List Char),
    sep.intercalate (init ++ [last]) = (init.flatMap fun l => l ++ sep) ++ last
  | [] => by simp [List.intercalate]
  | [l] => by simp [List.intercalate]
  | l :: l' :: init => by
    have ih := intercalate_concat sep last (l' :: init)
    simp only [List.intercalate, List.cons_append, List.intersperse, List.flatten_cons] at ih ⊢
    rw [ih]
    simp only [List.flatMap_cons, List.append_assoc]

theorem Eol.not_mem_cr (eol : Eol) : '\n' ∉ eol.cr := by
  cases eol <;> decide

namespace Convention

variable {c : Convention} {init : List (List Char)} {last : List Char}

theorem write_eq : c.write (init ++ [last]) =
    (init.flatMap fun l => l ++ c.eol.chars) ++ last ++ (List.replicate c.ends c.eol.chars).flatten := by
  unfold write
  rw [intercalate_concat, List.append_assoc]
  apply congrArg _
  cases hf : c.final with
  | false => simp [ends, hf]
  | true => simp [ends, hf, Nat.add_comm 1, List.replicate_succ]

/-- Lines that end with `eol` are lines that end with `\n`, after what else there is in `eol`. -/
theorem flatMap_chars (ls : List (List Char)) :
    (ls.flatMap fun l => l ++ c.eol.chars) = (ls.map (· ++ c.eol.cr)).flatMap fun l => l ++ ['\n'] := by
  rw [List.flatMap_map]
  simp [Eol.chars]

theorem replicate_chars (m : ℕ) :
    (List.replicate m c.eol.chars).flatten = (List.replicate m c.eol.cr).flatMap fun l => l ++ ['\n'] := by
  rw [List.flatMap_replicate]
  rfl

theorem line_append (h : '\n' ∉ last) : '\n' ∉ last ++ c.eol.cr := by
  rw [List.mem_append]
  rintro (hm | hm)
  · exact h hm
  · exact c.eol.not_mem_cr hm

/-- The last line has no end of line: it is read as it is. -/
theorem lines_write_zero (h : ∀ l ∈ init, '\n' ∉ l) (hl : '\n' ∉ last) (hne : last ≠ []) (h0 : c.ends = 0) :
    lines '\n' (c.write (init ++ [last])) = init.map (· ++ c.eol.cr) ++ [last] := by
  rw [write_eq, h0, List.replicate_zero, List.flatten_nil, List.append_nil, flatMap_chars, lines_flatMap, lines_last hl hne]
  simp only [List.mem_map]
  rintro _ ⟨l, hm, rfl⟩
  exact line_append (h l hm)

/-- It has one: there is a line for each end of line. -/
theorem lines_write_succ (h : ∀ l ∈ init, '\n' ∉ l) (hl : '\n' ∉ last) {m : ℕ} (hm : c.ends = m + 1) :
    lines '\n' (c.write (init ++ [last])) = (init ++ [last]).map (· ++ c.eol.cr) ++ List.replicate m c.eol.cr := by
  have htext : c.write (init ++ [last]) =
      (((init ++ [last]).map (· ++ c.eol.cr) ++ List.replicate m c.eol.cr).flatMap fun l => l ++ ['\n']) ++ [] := by
    rw [write_eq, hm, List.replicate_succ, List.flatten_cons, List.flatMap_append, ← flatMap_chars, ← replicate_chars]
    simp [Eol.chars]
  rw [htext, lines_flatMap, lines_nil, List.append_nil]
  intro l hmem
  rcases List.mem_append.1 hmem with hmem | hmem
  · obtain ⟨l', hl', rfl⟩ := List.mem_map.1 hmem
    rcases List.mem_append.1 hl' with hl' | hl'
    · exact line_append (h l' hl')
    · rw [List.mem_singleton.1 hl']
      exact line_append hl
  · rw [List.eq_of_mem_replicate hmem]
    exact c.eol.not_mem_cr

end Convention

/-! ## Addresses -/

theorem foldlM_setIpsLine : ∀ (ls ips : List (List Char)), ls.foldlM setIpsLine ips =
    if [] ∈ ls then .error .lengthError else .ok (ips ++ ls.map List.dropLast)
  | [], ips => by simp; rfl
  | line :: ls, ips => by
    rw [List.foldlM_cons, setIpsLine]
    by_cases h : line.length = 0
    · obtain rfl := List.eq_nil_of_length_eq_zero h
      rw [if_pos h, if_pos (List.mem_cons_self ..)]
      rfl
    · have hne : ¬ [] = line := fun he => h (by rw [← he]; rfl)
      rw [if_neg h, ok_bind, foldlM_setIpsLine ls]
      simp only [List.mem_cons, hne, false_or, List.map_cons, List.dropLast_eq_take, List.append_assoc, List.singleton_append]

theorem setIps_eq {text : List Char} {ips : List (List Char)} {n : ℤ} : setIps [] (some text) = .ok (ips, n) ↔
    [] ∉ lines '\n' text ∧ (lines '\n' text).map List.dropLast = ips ∧ (BitVec.ofNat 32 ips.length).toInt = n := by
  unfold setIps
  dsimp only
  rw [whileGetline_eq, foldlM_setIpsLine]
  constructor
  · intro h
    split at h
    · cases h
    · rename_i hno
      obtain ⟨rfl, rfl⟩ := Prod.mk.inj (Except.ok.inj h)
      exact ⟨hno, rfl, rfl⟩
  · rintro ⟨hno, rfl, rfl⟩
    rw [if_neg hno]
    rfl

/-- The size of a vector is an `int` below `2^31`. -/
theorem toInt_length {n : ℕ} : (BitVec.ofNat 32 n).toInt = n ↔ n < 2 ^ 31 := by
  rw [BitVec.toInt_ofNat', Int.bmod]
  constructor
  · intro h
    split at h <;> omega
  · intro h
    rw [if_pos (by omega)]
    omega

theorem dropLast_ne {l : List Char} (h : l ≠ []) : l.dropLast ≠ l := by
  intro he
  have hlen := congrArg List.length he
  rw [List.length_dropLast] at hlen
  have hpos := List.length_pos_of_ne_nil h
  omega

/-- `set_ips` recovers the addresses exactly from CRLF files with one end of line after the last address, as many as
an `int` can count. -/
theorem setIps_write_iff (c : Convention) {addrs : List Address} (hne : addrs ≠ []) :
    setIps [] (some (c.write (addrs.map Address.chars))) = .ok (addrs.map Address.chars, (addrs.length : ℤ)) ↔
      c.eol = .crlf ∧ c.ends = 1 ∧ addrs.length < 2 ^ 31 := by
  obtain ⟨init, last, rfl⟩ := (List.eq_nil_or_concat' addrs).resolve_left hne
  have hinit : ∀ l ∈ init.map Address.chars, '\n' ∉ l := by
    intro l hl
    obtain ⟨a, _, rfl⟩ := List.mem_map.1 hl
    exact a.line
  rw [setIps_eq, List.length_map, toInt_length]
  simp only [List.map_append, List.map_cons, List.map_nil]
  cases hm : c.ends with
  | zero =>
    -- the last address loses a character
    rw [Convention.lines_write_zero hinit last.line last.ne_nil hm]
    constructor
    · rintro ⟨_, h, _⟩
      rw [List.map_append] at h
      have hl := (List.append_inj' h rfl).2
      exact absurd (List.cons.inj hl).1 (dropLast_ne last.ne_nil)
    · rintro ⟨_, h, _⟩
      cases h
  | succ m =>
    rw [Convention.lines_write_succ hinit last.line hm]
    cases m with
    | zero =>
      cases he : c.eol with
      | lf =>
        constructor
        · rintro ⟨_, h, _⟩
          simp only [Eol.cr, List.append_nil, List.map_id', List.replicate_zero, List.map_append, List.map_cons, List.map_nil] at h
          have hl := (List.append_inj' h rfl).2
          exact absurd (List.cons.inj hl).1 (dropLast_ne last.ne_nil)
        · rintro ⟨h, _⟩
          cases h
      | crlf =>
        have hdrop : ∀ l : List Char, (l ++ ['\r']).dropLast = l := fun l => List.dropLast_concat
        simp [Eol.cr, hdrop]
    | succ m =>
      -- a blank line is an address, or the end of the run
      constructor
      · rintro ⟨_, h, _⟩
        have hlen := congrArg List.length h
        simp only [List.length_map, List.length_append, List.length_replicate] at hlen
        omega
      · rintro ⟨_, h, _⟩
        omega

/-! ## Parameters -/

theorem not_digit_of_space {c : Char} (h : isSpace c = true) : c.isDigit = false := by
  simp only [isSpace, List.mem_cons, List.not_mem_nil, or_false, decide_eq_true_eq] at h
  rcases h with rfl | rfl | rfl | rfl | rfl | rfl <;> rfl

/-- `stoi` of a number as it is written. -/
theorem stoi_toDigits (n : ℕ) : stoi (Nat.toDigits 10 n) = if n < 2 ^ 31 then .ok (n : ℤ) else .error .outOfRange := by
  have hdigit : ∀ c ∈ Nat.toDigits 10 n, c.isDigit = true := fun c hc => Nat.isDigit_of_mem_toDigits (by decide) (by decide) hc
  have hspace : (Nat.toDigits 10 n).dropWhile isSpace = Nat.toDigits 10 n := by
    cases hl : Nat.toDigits 10 n with
    | nil => rfl
    | cons c l =>
      apply List.dropWhile_cons_of_neg
      intro hc
      have hd := hdigit c (by rw [hl]; exact List.mem_cons_self ..)
      rw [not_digit_of_space hc] at hd
      cases hd
  -- neither sign is a digit
  have hsign : ∀ c, c.isDigit = false → (Nat.toDigits 10 n).head? ≠ some c := by
    intro c hc he
    have hd := hdigit c (List.mem_of_mem_head? he)
    rw [hc] at hd
    cases hd
  have hminus := hsign '-' rfl
  have hplus := hsign '+' rfl
  have hnil : Nat.toDigits 10 n ≠ [] := Nat.toDigits_ne_nil
  simp only [stoi, hspace, hminus, hplus, or_self, if_false, List.takeWhile_eq_self_iff.2 hdigit, hnil, Nat.ofDigitChars_ten_toDigits]
  by_cases hn : n < 2 ^ 31
  · rw [if_pos hn, if_pos (by constructor <;> omega)]
  · rw [if_neg hn, if_neg (by omega)]

/-- The value of a line is what stands behind its first "=". -/
theorem valueOf_append {name : List Char} (h : '=' ∉ name) (value : List Char) : valueOf (name ++ '=' :: value) = value := by
  have hname : ∀ c ∈ name, decide (c = '=') = false := by
    intro c hc
    rw [decide_eq_false_iff_not]
    rintro rfl
    exact h hc
  have hfind : (name ++ '=' :: value).findIdx? (· = '=') = some name.length := by
    rw [List.findIdx?_append, List.findIdx?_eq_none_iff.2 hname, List.findIdx?_cons]
    simp
  unfold valueOf
  rw [hfind]
  dsimp only
  rw [List.drop_append, List.drop_eq_nil_of_le (by omega)]
  simp

/-- The loop fills the array from `counter` on. -/
theorem foldlM_readLine : ∀ (ls : List (List Char)) (values : Fin 8 → List Char) (counter : ℕ), counter + ls.length ≤ 8 →
    ∃ values', ls.foldlM readLine (values, counter) = .ok (values', counter + ls.length) ∧
      (∀ i : Fin 8, i < counter → values' i = values i) ∧
      ∀ k (hk : k < ls.length) (h8 : counter + k < 8), values' ⟨counter + k, h8⟩ = valueOf ls[k]
  | [], values, counter, _ => ⟨values, rfl, fun _ _ => rfl, nofun⟩
  | line :: ls, values, counter, h => by
    rw [List.length_cons] at h
    have hlt : counter < 8 := by omega
    obtain ⟨values', hfold, hold, hnew⟩ := foldlM_readLine ls (Function.update values ⟨counter, hlt⟩ (valueOf line)) (counter + 1) (by omega)
    refine ⟨values', ?_, fun i hi => ?_, fun k hk h8 => ?_⟩
    · rw [List.foldlM_cons, readLine, dif_pos hlt, ok_bind, hfold, List.length_cons, Nat.add_assoc, Nat.add_comm 1]
    · rw [hold i (by omega), Function.update_of_ne]
      rintro rfl
      exact lt_irrefl _ hi
    · cases k with
      | zero =>
        rw [hold ⟨counter + 0, h8⟩ (by simp)]
        exact Function.update_self ..
      | succ k =>
        have := hnew k (by simpa using hk) (by omega)
        simpa [Nat.add_assoc, Nat.add_comm 1] using this

/-- A line more than there are places is written behind the array. -/
theorem foldlM_overrun : ∀ (ls : List (List Char)) (values : Fin 8 → List Char) (counter : ℕ), counter ≤ 8 →
    8 < counter + ls.length → ls.foldlM readLine (values, counter) = .error .overrun
  | [], _, _, h, h' => by
    rw [List.length_nil] at h'
    omega
  | line :: ls, values, counter, h, h' => by
    rw [List.foldlM_cons, readLine]
    by_cases hlt : counter < 8
    · rw [dif_pos hlt, ok_bind]
      exact foldlM_overrun ls _ _ (by omega) (by rw [List.length_cons] at h'; omega)
    · rw [dif_neg hlt]
      rfl

theorem readProtocolParameters_of_lines {text : List Char} (h : (lines '\n' text).length = 8) :
    readProtocolParameters (some text) = parametersOf fun i => valueOf ((lines '\n' text).getD i []) := by
  obtain ⟨values, hfold, _, hnew⟩ := foldlM_readLine (lines '\n' text) (fun _ => []) 0 (by omega)
  unfold readProtocolParameters
  dsimp only
  rw [whileGetline_eq, hfold, ok_bind]
  refine congrArg parametersOf (funext fun i => ?_)
  have hi : (i : ℕ) < (lines '\n' text).length := by
    rw [h]
    exact i.isLt
  have := hnew i hi (by omega)
  rw [List.getD_eq_getElem _ _ hi, ← this]
  simp

theorem readProtocolParameters_overrun {text : List Char} (h : 8 < (lines '\n' text).length) :
    readProtocolParameters (some text) = .error .overrun := by
  unfold readProtocolParameters
  dsimp only
  rw [whileGetline_eq, foldlM_overrun _ _ 0 (by omega) (by omega)]
  rfl

/-- What the values give, if the numbers can be read. -/
theorem parametersOf_ok {values : Fin 8 → List Char} {p : Parameters} (h : parametersOf values = .ok p) :
    (∀ i : Fin 8, i < 6 → ∃ n, stoi (values i) = .ok n) ∧ p.data = values 6 := by
  obtain ⟨a, ha, h⟩ := bind_ok h
  obtain ⟨b, hb, h⟩ := bind_ok h
  obtain ⟨c, hc, h⟩ := bind_ok h
  obtain ⟨d, hd, h⟩ := bind_ok h
  obtain ⟨f, hf, h⟩ := bind_ok h
  obtain ⟨g, hg, h⟩ := bind_ok h
  cases h
  refine ⟨fun i hi => ?_, rfl⟩
  have hcases : i = 0 ∨ i = 1 ∨ i = 2 ∨ i = 3 ∨ i = 4 ∨ i = 5 := by omega
  rcases hcases with rfl | rfl | rfl | rfl | rfl | rfl
  · exact ⟨a, ha⟩
  · exact ⟨b, hb⟩
  · exact ⟨c, hc⟩
  · exact ⟨d, hd⟩
  · exact ⟨f, hf⟩
  · exact ⟨g, hg⟩

theorem parametersOf_of_ok {values : Fin 8 → List Char} {seeds Nbf Not numOfOnes Nc Nr : ℤ} (h0 : stoi (values 0) = .ok seeds)
    (h1 : stoi (values 1) = .ok Nbf) (h2 : stoi (values 2) = .ok Not) (h3 : stoi (values 3) = .ok numOfOnes)
    (h4 : stoi (values 4) = .ok Nc) (h5 : stoi (values 5) = .ok Nr) : parametersOf values =
      .ok ⟨BitVec.ofInt 32 seeds, BitVec.ofInt 32 Nbf, BitVec.ofInt 64 Not, BitVec.ofInt 32 numOfOnes, BitVec.ofInt 32 Nc,
        BitVec.ofInt 32 Nr, values 6, values 7⟩ := by
  unfold parametersOf
  rw [h0, ok_bind, h1, ok_bind, h2, ok_bind, h3, ok_bind, h4, ok_bind, h5, ok_bind]
  rfl

theorem stoi_toDigits_ok {n : ℕ} : (∃ m, stoi (Nat.toDigits 10 n) = .ok m) ↔ n < 2 ^ 31 := by
  rw [stoi_toDigits]
  constructor
  · rintro ⟨m, h⟩
    by_contra hn
    rw [if_neg hn] at h
    cases h
  · intro hn
    rw [if_pos hn]
    exact ⟨n, rfl⟩

theorem valueOf_nameValue {name : String} (h : '=' ∉ name.toList) (value rest : List Char) :
    valueOf (nameValue name value ++ rest) = value ++ rest := by
  unfold nameValue
  rw [List.append_assoc, List.cons_append, valueOf_append h]

section Config

variable {p : Config}

/-- The values of the lines as they were written. -/
theorem valueOf_lines : (fun i : Fin 8 => valueOf (p.lines.getD i [])) =
    ![Nat.toDigits 10 p.seeds.toNat, Nat.toDigits 10 p.Nbf.toNat, Nat.toDigits 10 p.Not.toNat, Nat.toDigits 10 p.numOfOnes.toNat,
      Nat.toDigits 10 p.Nc.toNat, Nat.toDigits 10 p.Nr.toNat, p.data, p.ip] := by
  have hname : ∀ (name : String) (value : List Char), '=' ∉ name.toList → valueOf (nameValue name value) = value := by
    intro name value h
    have := valueOf_nameValue h value []
    rwa [List.append_nil, List.append_nil] at this
  funext i
  fin_cases i
  all_goals exact hname _ _ (by decide)

theorem parametersOf_lines : parametersOf (fun i => valueOf (p.lines.getD i [])) = .ok p.toParameters ↔
    ∀ n ∈ p.numbers, n < 2 ^ 31 := by
  rw [valueOf_lines]
  constructor
  · intro h
    have hok := (parametersOf_ok h).1
    have hseeds := stoi_toDigits_ok.1 (hok 0 (by decide))
    have hNbf := stoi_toDigits_ok.1 (hok 1 (by decide))
    have hNot := stoi_toDigits_ok.1 (hok 2 (by decide))
    have hones := stoi_toDigits_ok.1 (hok 3 (by decide))
    have hNc := stoi_toDigits_ok.1 (hok 4 (by decide))
    have hNr := stoi_toDigits_ok.1 (hok 5 (by decide))
    simp only [Parameters.numbers, List.mem_cons, List.not_mem_nil, or_false]
    rintro n (rfl | rfl | rfl | rfl | rfl | rfl)
    · exact hseeds
    · exact hNbf
    · exact hNot
    · exact hones
    · exact hNc
    · exact hNr
  · intro h
    simp only [Parameters.numbers, List.forall_mem_cons] at h
    obtain ⟨hseeds, hNbf, hNot, hones, hNc, hNr, _⟩ := h
    have hread : ∀ {n : ℕ}, n < 2 ^ 31 → stoi (Nat.toDigits 10 n) = .ok (n : ℤ) := fun hn => by rw [stoi_toDigits, if_pos hn]
    rw [parametersOf_of_ok (hread hseeds) (hread hNbf) (hread hNot) (hread hones) (hread hNc) (hread hNr)]
    simp

theorem nameValue_line {name : String} {value : List Char} (hn : '\n' ∉ name.toList) (hv : '\n' ∉ value) : '\n' ∉ nameValue name value := by
  simp only [nameValue, List.mem_append, List.mem_cons, not_or]
  exact ⟨hn, by decide, hv⟩

theorem toDigits_line (n : ℕ) : '\n' ∉ Nat.toDigits 10 n := by
  intro h
  have := Nat.isDigit_of_mem_toDigits (by decide) (by decide) h
  cases this

theorem lines_line_of_config : ∀ l ∈ p.lines, '\n' ∉ l := by
  simp only [Parameters.lines, List.forall_mem_cons]
  refine ⟨?_, ?_, ?_, ?_, ?_, ?_, ?_, ?_, nofun⟩
  all_goals refine nameValue_line (by decide) ?_
  · exact toDigits_line _
  · exact toDigits_line _
  · exact toDigits_line _
  · exact toDigits_line _
  · exact toDigits_line _
  · exact toDigits_line _
  · exact p.data_line
  · exact p.ip_line

/-- Of the lines none has an end of line in it, neither the first seven nor the last. -/
theorem lines_init_last : (∀ l ∈ p.lines.take 7, '\n' ∉ l) ∧ '\n' ∉ nameValue "IP_file" p.ip := by
  constructor
  · intro l hl
    exact lines_line_of_config l (List.mem_of_mem_take hl)
  · exact nameValue_line (by decide) p.ip_line

/-- The lines of a file without blank lines: all but the last end as the convention says. -/
theorem lines_config {c : Convention} (h : c.ends ≤ 1) : ∃ cr, (c.eol = .lf → cr = []) ∧
    lines '\n' (c.write p.lines) = (p.lines.take 7).map (· ++ c.eol.cr) ++ [nameValue "IP_file" p.ip ++ cr] := by
  have hsplit : c.write p.lines = c.write (p.lines.take 7 ++ [nameValue "IP_file" p.ip]) := rfl
  obtain ⟨hinit, hlast⟩ := lines_init_last (p := p)
  cases hm : c.ends with
  | zero =>
    refine ⟨[], fun _ => rfl, ?_⟩
    rw [hsplit, Convention.lines_write_zero hinit hlast (by simp [nameValue]) hm, List.append_nil]
  | succ m =>
    obtain rfl : m = 0 := by omega
    refine ⟨c.eol.cr, fun he => by rw [he]; rfl, ?_⟩
    rw [hsplit, Convention.lines_write_succ hinit hlast hm, List.replicate_zero, List.append_nil, List.map_append]
    rfl

theorem lines_overrun {c : Convention} (h : 1 < c.ends) : 8 < (lines '\n' (c.write p.lines)).length := by
  have hsplit : c.write p.lines = c.write (p.lines.take 7 ++ [nameValue "IP_file" p.ip]) := rfl
  obtain ⟨hinit, hlast⟩ := lines_init_last (p := p)
  obtain ⟨m, hm⟩ : ∃ m, c.ends = m + 1 := ⟨c.ends - 1, by omega⟩
  rw [hsplit, Convention.lines_write_succ hinit hlast hm, List.length_append, List.length_replicate]
  change 8 < 8 + m
  omega

end Config

/-- `read_protocol_parameters` recovers the values exactly from LF files with at most one end of line after the last
value, when `stoi` can read the numbers. -/
theorem readProtocolParameters_write_iff (c : Convention) (p : Config) :
    readProtocolParameters (some (c.write p.lines)) = .ok p.toParameters ↔
      c.eol = .lf ∧ c.ends ≤ 1 ∧ ∀ n ∈ p.numbers, n < 2 ^ 31 := by
  by_cases hm : c.ends ≤ 1
  · obtain ⟨cr, hcr, hlines⟩ := lines_config (p := p) hm
    rw [readProtocolParameters_of_lines (by rw [hlines]; rfl), hlines]
    cases he : c.eol with
    | lf =>
      have hsame : (p.lines.take 7).map (· ++ Eol.lf.cr) ++ [nameValue "IP_file" p.ip ++ cr] = p.lines := by
        rw [hcr he]
        simp only [Eol.cr, List.append_nil, List.map_id']
        rfl
      rw [hsame, parametersOf_lines]
      constructor
      · exact fun h => ⟨rfl, hm, h⟩
      · exact fun h => h.2.2
    | crlf =>
      constructor
      · intro h
        have hdata : p.data = valueOf (nameValue "Data_file" p.data ++ ['\r']) := (parametersOf_ok h).2
        -- the name of the data file has the `\r` in it
        rw [valueOf_nameValue (by decide)] at hdata
        have hlen := congrArg List.length hdata
        rw [List.length_append, List.length_singleton] at hlen
        omega
      · rintro ⟨h, _⟩
        cases h
  · rw [readProtocolParameters_overrun (lines_overrun (by omega))]
    constructor
    · intro h
      cases h
    · rintro ⟨_, h, _⟩
      exact absurd h hm

/-! ## One convention for both files -/

/-- Both loaders return what was written. -/
structure Recovered (c : Convention) (p : Config) (addrs : List Address) : Prop where
  parameters : readProtocolParameters (some (c.write p.lines)) = .ok p.toParameters
  ips : setIps [] (some (c.write (addrs.map Address.chars))) = .ok (addrs.map Address.chars, (addrs.length : ℤ))

/-- For all parameters, all addresses and every convention: the loaders do not both recover what was written. One needs
LF, at most one end of line after the last value and numbers below `2^31`, the other CRLF and one end of line after
the last address. -/
theorem not_recovered (c : Convention) (p : Config) {addrs : List Address} (hne : addrs ≠ []) :
    ¬ Recovered c p addrs ∧
    (readProtocolParameters (some (c.write p.lines)) = .ok p.toParameters ↔
      c.eol = .lf ∧ c.ends ≤ 1 ∧ ∀ n ∈ p.numbers, n < 2 ^ 31) ∧
    (setIps [] (some (c.write (addrs.map Address.chars))) = .ok (addrs.map Address.chars, (addrs.length : ℤ)) ↔
      c.eol = .crlf ∧ c.ends = 1 ∧ addrs.length < 2 ^ 31) := by
  refine ⟨fun h => ?_, readProtocolParameters_write_iff c p, setIps_write_iff c hne⟩
  have hlf := ((readProtocolParameters_write_iff c p).1 h.parameters).1
  have hcrlf := ((setIps_write_iff c hne).1 h.ips).1
  rw [hlf] at hcrlf
  cases hcrlf

/-- The address of the machine itself, and the parameters of `cfg.txt`. -/
def localhost : Address := ⟨['1', '2', '7', '.', '0', '.', '0', '.', '1'], by decide, by decide⟩

def cfg : Config where
  seeds := 147
  Nbf := 64733
  Not := 74379
  numOfOnes := 32886
  Nc := 7473
  Nr := 3627
  data := ['d', 'a', 't', 'a', '.', 't', 'x', 't']
  ip := ['i', 'p', '.', 't', 'x', 't']
  data_line := by decide
  ip_line := by decide

/-- The two addresses of `ip.txt`, in the convention of `cfg.txt`. -/
theorem not_recovered_localhost : ¬ Recovered ⟨.lf, false, 0⟩ cfg [localhost, localhost] :=
  (not_recovered ⟨.lf, false, 0⟩ cfg (List.cons_ne_nil _ _)).1

/-- And with CRLF the last address loses its last character. -/
theorem ips_cut : ¬ Recovered ⟨.crlf, false, 0⟩ cfg [localhost, localhost] := by
  intro h
  obtain ⟨_, hends, _⟩ := (setIps_write_iff ⟨.crlf, false, 0⟩ (List.cons_ne_nil _ _)).1 h.ips
  exact absurd hends (by decide)

end Mpsi
