/-
`arrange_the_indexes`: one thread serves the first half of the Bloom filter from the front of the
two index vectors, the other one the second half from their back; the function sent to the other
party is what they wrote.

`served_of_ok` says which entry of which vector serves each cell (`slot`); different cells of one bit
are served by different entries (`slot_inj`), and enough entries suffice (`arrange_total`).
-/
import Mpsi.Data.Fault

namespace Mpsi

/-! ## The two threads -/

/-- What lies around the two index vectors and the index array. -/
structure Around where
  zero_indexes : ℤ → ℤ
  one_indexes : ℤ → ℤ
  indexes : ℤ → ℤ

/-- The two vectors' surroundings as one family. -/
def Around.vector (v : Bool) (a : Around) : ℤ → ℤ := if v then a.one_indexes else a.zero_indexes

@[simp] theorem Around.vector_false : Around.vector false = Around.zero_indexes := rfl
@[simp] theorem Around.vector_true : Around.vector true = Around.one_indexes := rfl

/-- `functions::arrange_indexes_thread` on the bits of its half: `δ` is 1 for the thread that starts
from the beginning and -1 for the other. Returns what it wrote and its two places. The vectors are
read with `[]`, so the `catch` of the source never applies. -/
def arrangeIndexesThread (out : Option Around) (current_indexes one_indexes zero_indexes : List ℤ) (δ : ℤ) :
    List Bool → ℤ → ℤ → Except Fault (List ℤ × ℤ × ℤ)
  | [], place_0, place_1 => .ok ([], place_0, place_1)
  | false :: bits, place_0, place_1 => do
    let k ← readAt (out.map Around.zero_indexes) zero_indexes place_0
    let v ← readAt (out.map Around.indexes) current_indexes k
    let (vs, places) ← arrangeIndexesThread out current_indexes one_indexes zero_indexes δ bits (place_0 + δ) place_1
    pure (v :: vs, places)
  | true :: bits, place_0, place_1 => do
    let k ← readAt (out.map Around.one_indexes) one_indexes place_1
    let v ← readAt (out.map Around.indexes) current_indexes k
    let (vs, places) ← arrangeIndexesThread out current_indexes one_indexes zero_indexes δ bits place_0 (place_1 + δ)
    pure (v :: vs, places)

/-- `functions::arrange_the_indexes`: both halves, then the test whether the two threads met. -/
def arrangeTheIndexes (out : Option Around) (BF : List Bool) (zero_indexes one_indexes indexes : List ℤ) :
    Except Fault (List ℤ) := do
  let half := BF.length / 2
  let (front, place_0_begin, place_1_begin) ←
    arrangeIndexesThread out indexes one_indexes zero_indexes 1 (BF.take half) 0 0
  let (back, place_0_end, place_1_end) ←
    arrangeIndexesThread out indexes one_indexes zero_indexes (-1) (BF.drop half)
      (zero_indexes.length - 1) (one_indexes.length - 1)
  if place_0_begin - 1 ≥ place_0_end + 1 ∨ place_1_begin - 1 ≥ place_1_end + 1 then
    .error (.exit "Not enough o's/1's - problem!")
  else
    pure (front ++ back)

/-! ## Which entry serves which cell -/

section Thread

variable {out : Option Around} {current : List ℤ} {L : Bool → List ℤ} {δ : ℤ}

/-- A thread's reads for the cell with bit `v` after `n` cells of the same bit. -/
def serve (out : Option Around) (current : List ℤ) (L : Bool → List ℤ) (v : Bool) (place : ℤ) : Except Fault ℤ := do
  let k ← readAt (out.map (Around.vector v)) (L v) place
  readAt (out.map Around.indexes) current k

/-- One round of the thread, for either bit. -/
theorem thread_cons (v : Bool) (bits : List Bool) (p : Bool → ℤ) :
    arrangeIndexesThread out current (L true) (L false) δ (v :: bits) (p false) (p true) = (do
      let x ← serve out current L v (p v)
      let q := Function.update p v (p v + δ)
      let (vs, places) ← arrangeIndexesThread out current (L true) (L false) δ bits (q false) (q true)
      pure (x :: vs, places)) := by
  cases v <;> simp [arrangeIndexesThread, serve]

/-- The place for bit `u` after a round that served `v`. -/
theorem place_cons (p : Bool → ℤ) (u v : Bool) (bits : List Bool) :
    Function.update p v (p v + δ) u + δ * bits.count u = p u + δ * (v :: bits).count u := by
  by_cases hv : u = v
  · subst hv
    rw [Function.update_self, List.count_cons_self]
    push_cast; ring
  · rw [Function.update_of_ne hv, List.count_cons_of_ne (Ne.symm hv)]

/-- What a thread that ends has written, and where its places stand. -/
theorem thread_ok : ∀ (bits : List Bool) (p : Bool → ℤ) {vs : List ℤ} {q₀ q₁ : ℤ},
    arrangeIndexesThread out current (L true) (L false) δ bits (p false) (p true) = .ok (vs, q₀, q₁) →
    q₀ = p false + δ * bits.count false ∧ q₁ = p true + δ * bits.count true ∧ vs.length = bits.length ∧
      ∀ i (h : i < bits.length), ∃ x, vs[i]? = some x ∧
        serve out current L bits[i] (p bits[i] + δ * (bits.take i).count bits[i]) = .ok x
  | [], p, vs, q₀, q₁, h => by
    cases h
    simp
  | v :: bits, p, vs, q₀, q₁, h => by
    rw [thread_cons] at h
    obtain ⟨x, hx, h⟩ := bind_ok h
    obtain ⟨⟨vs', places⟩, h', h⟩ := bind_ok h
    cases h
    obtain ⟨h0, h1, hl, hi⟩ := thread_ok bits _ h'
    refine ⟨by rw [h0, place_cons], by rw [h1, place_cons], by simp [hl], ?_⟩
    rintro (_ | i) hi'
    · exact ⟨x, rfl, by simpa using hx⟩
    · obtain ⟨y, hy, hs⟩ := hi i (by simpa using hi')
      rw [place_cons] at hs
      exact ⟨y, by simpa using hy, by simpa using hs⟩

/-- A thread ends when each of its reads does. -/
theorem thread_total : ∀ (bits : List Bool) (p : Bool → ℤ),
    (∀ i (h : i < bits.length), ∃ x, serve out current L bits[i] (p bits[i] + δ * (bits.take i).count bits[i]) = .ok x) →
    ∃ r, arrangeIndexesThread out current (L true) (L false) δ bits (p false) (p true) = .ok r
  | [], p, _ => ⟨_, rfl⟩
  | v :: bits, p, h => by
    obtain ⟨x, hx⟩ := h 0 (by simp)
    obtain ⟨⟨vs, places⟩, hr⟩ := thread_total bits (Function.update p v (p v + δ)) fun i hi => by
      obtain ⟨y, hy⟩ := h (i + 1) (by simpa using hi)
      refine ⟨y, ?_⟩
      rw [place_cons]
      simpa using hy
    refine ⟨(x :: vs, places), ?_⟩
    have hx' : serve out current L v (p v) = .ok x := by simpa using hx
    rw [thread_cons, hx', ok_bind]
    simp only [hr, ok_bind]
    rfl

end Thread

/-! ## Slots -/

/-- Which entry of the vector of its bit `v` serves cell `i`, the vectors having `n v` entries. -/
def slot (BF : List Bool) (n : Bool → ℕ) (i : ℕ) (v : Bool) : ℕ :=
  if i < BF.length / 2 then (BF.take i).count v
  else n v - 1 - ((BF.drop (BF.length / 2)).take (i - BF.length / 2)).count v

/-- Before a later cell there is one more cell of the bit of `i`. -/
theorem count_take_lt {l : List Bool} {i j : ℕ} (hi : i < l.length) (hij : i < j) :
    (l.take i).count l[i] < (l.take j).count l[i] := by
  have hle : (l.take (i + 1)).count l[i] ≤ (l.take j).count l[i] :=
    (List.take_prefix_take_left hij).sublist.count_le _
  rw [List.take_succ_eq_append_getElem hi, List.count_append] at hle
  simp at hle
  omega

theorem count_halves (BF : List Bool) (v : Bool) :
    (BF.take (BF.length / 2)).count v + (BF.drop (BF.length / 2)).count v = BF.count v := by
  rw [← List.count_append, List.take_append_drop]

theorem count_take_half_lt {BF : List Bool} {i : ℕ} (hi : i < BF.length / 2) (hlt : i < BF.length) :
    (BF.take i).count BF[i] < (BF.take (BF.length / 2)).count BF[i] :=
  count_take_lt hlt hi

theorem count_drop_half_lt {BF : List Bool} {i : ℕ} (h : BF.length / 2 ≤ i) (hi : i < BF.length) :
    ((BF.drop (BF.length / 2)).take (i - BF.length / 2)).count BF[i] < (BF.drop (BF.length / 2)).count BF[i] := by
  have hi' : i - BF.length / 2 < (BF.drop (BF.length / 2)).length := by simp; omega
  have hget : (BF.drop (BF.length / 2))[i - BF.length / 2] = BF[i] := by
    rw [List.getElem_drop]; congr 1; omega
  have := count_take_lt hi' hi'
  rwa [hget, List.take_length] at this

section Slot

variable {BF : List Bool} {n : Bool → ℕ} (hn : ∀ v, BF.count v ≤ n v)

include hn

theorem slot_lt {i : ℕ} (hi : i < BF.length) : slot BF n i BF[i] < n BF[i] := by
  have h1 := count_halves BF BF[i]
  have h2 := hn BF[i]
  unfold slot
  split
  · rename_i h
    have := count_take_half_lt h hi
    omega
  · rename_i h
    have := count_drop_half_lt (not_lt.1 h) hi
    omega

/-- Different cells of one bit are served by different entries. -/
theorem slot_ne {i j : ℕ} (hi : i < BF.length) (hj : j < BF.length) (hij : i < j) (hv : BF[i] = BF[j]) :
    slot BF n i BF[i] ≠ slot BF n j BF[j] := by
  have h1 := count_halves BF BF[j]
  have h2 := hn BF[j]
  unfold slot
  by_cases h : i < BF.length / 2
  · -- a front entry lies before every back entry, since the vector is long enough
    have hci := count_take_half_lt h hi
    by_cases h' : j < BF.length / 2
    · rw [if_pos h, if_pos h']
      have := count_take_lt hi hij
      rw [hv] at this ⊢
      omega
    · rw [if_pos h, if_neg h']
      have hcj := count_drop_half_lt (not_lt.1 h') hj
      rw [hv] at hci ⊢
      omega
  · have h' : ¬ j < BF.length / 2 := by omega
    rw [if_neg h, if_neg h']
    have hcj := count_drop_half_lt (not_lt.1 h') hj
    have hi' : i - BF.length / 2 < (BF.drop (BF.length / 2)).length := by simp; omega
    have hget : (BF.drop (BF.length / 2))[i - BF.length / 2] = BF[i] := by
      rw [List.getElem_drop]; congr 1; omega
    have := count_take_lt hi' (by omega : i - BF.length / 2 < j - BF.length / 2)
    rw [hget, hv] at this
    rw [hv]
    omega

theorem slot_inj {i j : ℕ} (hi : i < BF.length) (hj : j < BF.length) (hv : BF[i] = BF[j])
    (h : slot BF n i BF[i] = slot BF n j BF[j]) : i = j := by
  rcases lt_trichotomy i j with hij | rfl | hij
  · exact absurd h (slot_ne hn hi hj hij hv)
  · rfl
  · exact absurd h.symm (slot_ne hn hj hi hij hv.symm)

end Slot

/-- The cell in the middle takes the last entry of the vector of its bit. -/
theorem slot_half (BF : List Bool) (n : Bool → ℕ) (v : Bool) : slot BF n (BF.length / 2) v = n v - 1 := by
  simp [slot]

/-! ## What `arrange_the_indexes` writes -/

/-- The function `f` serves every cell from its slot in the vector of its bit. -/
structure Served (current : List ℤ) (L : Bool → List ℤ) (BF : List Bool) (f : List ℤ) : Prop where
  enough : ∀ v, BF.count v ≤ (L v).length
  length : f.length = BF.length
  entry : ∀ i (h : i < BF.length), ∃ k : ℕ,
    (L BF[i])[slot BF (fun v => (L v).length) i BF[i]]? = some (k : ℤ) ∧ k < current.length ∧ f[i]? = current[k]?

theorem serve_ok {current : List ℤ} {L : Bool → List ℤ} {v : Bool} {s : ℕ} {x : ℤ} :
    serve none current L v s = .ok x ↔ ∃ k : ℕ, (L v)[s]? = some (k : ℤ) ∧ current[k]? = some x := by
  constructor
  · intro h
    obtain ⟨k, hk, hx⟩ := bind_ok h
    obtain ⟨s', hs, hks⟩ := readAt_none_ok.1 hk
    obtain ⟨k', rfl, hxk⟩ := readAt_none_ok.1 hx
    cases Nat.cast_injective hs
    exact ⟨k', hks, hxk⟩
  · rintro ⟨k, hk, hx⟩
    unfold serve
    rw [Option.map_none, readAt_none_ok.2 ⟨s, rfl, hk⟩, ok_bind, Option.map_none, readAt_none_ok.2 ⟨k, rfl, hx⟩]

section Arrange

variable {current : List ℤ} {L : Bool → List ℤ} {BF : List Bool} {f : List ℤ}

/-- The place of the front thread for a cell of the first half. -/
theorem slot_front {n : Bool → ℕ} {i : ℕ} (hi : i < BF.length / 2) (v : Bool) :
    (0 : ℤ) + 1 * (((BF.take (BF.length / 2)).take i).count v : ℕ) = (slot BF n i v : ℕ) := by
  unfold slot
  rw [if_pos hi, List.take_take, min_eq_left hi.le]
  simp

/-- The place of the back thread for a cell of the second half. -/
theorem slot_back {n : Bool → ℕ} {i : ℕ} (h : BF.length / 2 ≤ i) (hi : i < BF.length)
    (hn : (BF.drop (BF.length / 2)).count BF[i] ≤ n BF[i]) :
    (n BF[i] : ℤ) - 1 + -1 * (((BF.drop (BF.length / 2)).take (i - BF.length / 2)).count BF[i] : ℕ) =
      (slot BF n i BF[i] : ℕ) := by
  have h3 := count_drop_half_lt h hi
  unfold slot
  rw [if_neg (not_lt.2 h)]
  omega

/-- The back half has no more cells of a bit than the whole filter. -/
theorem count_back_le {n : Bool → ℕ} (hn : ∀ v, BF.count v ≤ n v) (v : Bool) : (BF.drop (BF.length / 2)).count v ≤ n v :=
  ((List.drop_sublist _ _).count_le v).trans (hn v)

/-- When both threads have ended, the places of a bit have met if the filter has more cells of it than
there are entries. -/
theorem arrange_of_ends {out : Option Around} {front back : List ℤ} {b₀ b₁ e₀ e₁ : ℤ}
    (hf : arrangeIndexesThread out current (L true) (L false) 1 (BF.take (BF.length / 2)) 0 0 = .ok (front, b₀, b₁))
    (hb : arrangeIndexesThread out current (L true) (L false) (-1) (BF.drop (BF.length / 2)) ((L false).length - 1)
      ((L true).length - 1) = .ok (back, e₀, e₁)) :
    arrangeTheIndexes out BF (L false) (L true) current =
      if ∃ v, (L v).length < BF.count v then .error (.exit "Not enough o's/1's - problem!") else .ok (front ++ back) := by
  obtain ⟨hb0, hb1, _⟩ := thread_ok _ (fun _ => 0) hf
  obtain ⟨he0, he1, _⟩ := thread_ok _ (fun v => ((L v).length : ℤ) - 1) hb
  have h0 := count_halves BF false
  have h1 := count_halves BF true
  have hmet : b₀ - 1 ≥ e₀ + 1 ∨ b₁ - 1 ≥ e₁ + 1 ↔ ∃ v, (L v).length < BF.count v := by
    rw [Bool.exists_bool]
    omega
  simp only [arrangeTheIndexes, hf, hb, ok_bind, hmet]
  rfl

theorem served_of_ok (h : arrangeTheIndexes none BF (L false) (L true) current = .ok f) : Served current L BF f := by
  obtain ⟨⟨front, b₀, b₁⟩, hf, h'⟩ := bind_ok h
  obtain ⟨⟨back, e₀, e₁⟩, hb, _⟩ := bind_ok h'
  obtain ⟨_, _, hfl, hfi⟩ := thread_ok (BF.take (BF.length / 2)) (fun _ => 0) hf
  obtain ⟨_, _, hbl, hbi⟩ := thread_ok (BF.drop (BF.length / 2)) (fun v => ((L v).length : ℤ) - 1) hb
  rw [arrange_of_ends hf hb] at h
  by_cases hmet : ∃ v, (L v).length < BF.count v
  · rw [if_pos hmet] at h
    cases h
  rw [if_neg hmet] at h
  cases h
  have hen : ∀ v, BF.count v ≤ (L v).length := fun v => not_lt.1 fun hv => hmet ⟨v, hv⟩
  have hfl' : front.length = BF.length / 2 := by rw [hfl, List.length_take]; omega
  refine ⟨hen, by rw [List.length_append, hfl, hbl, ← List.length_append, List.take_append_drop], fun i hi => ?_⟩
  -- the front thread has written the first half of the cells, the back thread the second
  by_cases h : i < BF.length / 2
  · obtain ⟨x, hx, hs⟩ := hfi i (by simp; omega)
    rw [List.getElem_take, slot_front h] at hs
    obtain ⟨k, hk, hc⟩ := serve_ok.1 hs
    refine ⟨k, hk, (List.getElem?_eq_some_iff.1 hc).1, ?_⟩
    rw [List.getElem?_append_left (by omega), hx, hc]
  · obtain ⟨x, hx, hs⟩ := hbi (i - BF.length / 2) (by simp; omega)
    have hlt : i - BF.length / 2 < (BF.drop (BF.length / 2)).length := by simp; omega
    have hget : (BF.drop (BF.length / 2))[i - BF.length / 2] = BF[i] := by
      rw [List.getElem_drop]; congr 1; omega
    rw [hget, slot_back (n := fun v => (L v).length) (not_lt.1 h) hi (count_back_le hen _)] at hs
    obtain ⟨k, hk, hc⟩ := serve_ok.1 hs
    refine ⟨k, hk, (List.getElem?_eq_some_iff.1 hc).1, ?_⟩
    rw [List.getElem?_append_right (by omega), hfl', hx, hc]

/-- The threads end when the entries of all cells are there. -/
theorem threads_end {out : Option Around} (hback : ∀ v, (BF.drop (BF.length / 2)).count v ≤ (L v).length)
    (hslot : ∀ i (hi : i < BF.length), ∃ x, serve out current L BF[i] (slot BF (fun v => (L v).length) i BF[i] : ℕ) = .ok x) :
    (∃ r, arrangeIndexesThread out current (L true) (L false) 1 (BF.take (BF.length / 2)) 0 0 = .ok r) ∧
      ∃ r, arrangeIndexesThread out current (L true) (L false) (-1) (BF.drop (BF.length / 2)) ((L false).length - 1)
        ((L true).length - 1) = .ok r := by
  refine ⟨thread_total _ (fun _ => 0) fun i hi => ?_, thread_total _ (fun v => ((L v).length : ℤ) - 1) fun i hi => ?_⟩
  · have hi' : i < BF.length / 2 := by simp at hi; omega
    rw [List.getElem_take, slot_front hi']
    exact hslot i (by omega)
  · have hi' : BF.length / 2 + i < BF.length := by simp at hi; omega
    have hs := slot_back (n := fun v => (L v).length) (Nat.le_add_right (BF.length / 2) i) hi' (hback _)
    rw [Nat.add_sub_cancel_left] at hs
    rw [List.getElem_drop, hs]
    exact hslot _ hi'

/-- With enough entries for each bit, all of them places of the index array, both threads end without
meeting. -/
theorem arrange_total (hen : ∀ v, BF.count v ≤ (L v).length)
    (hL : ∀ v, ∀ k ∈ L v, ∃ n : ℕ, n < current.length ∧ k = n) :
    ∃ f, arrangeTheIndexes none BF (L false) (L true) current = .ok f := by
  have hserve : ∀ (v : Bool) (s : ℕ), s < (L v).length → ∃ x, serve none current L v s = .ok x := by
    intro v s hs
    obtain ⟨n, hn, hk⟩ := hL v _ (List.getElem_mem hs)
    exact ⟨current[n], serve_ok.2 ⟨n, by rw [List.getElem?_eq_getElem hs, hk], List.getElem?_eq_getElem hn⟩⟩
  obtain ⟨⟨⟨front, b₀, b₁⟩, hf⟩, ⟨back, e₀, e₁⟩, hb⟩ :=
    threads_end (count_back_le hen) fun i hi => hserve _ _ (slot_lt hen hi)
  refine ⟨front ++ back, ?_⟩
  rw [arrange_of_ends hf hb, if_neg fun ⟨v, hv⟩ => absurd (hen v) (not_le.2 hv)]

/-! ## Whatever lies around the arrays -/

theorem serve_some (a : Around) (v : Bool) (p : ℤ) : ∃ x, serve (some a) current L v p = .ok x :=
  ⟨_, by simp only [serve, Option.map_some, readAt_peek, ok_bind]; rfl⟩

/-- The threads always end, and the test after them finds the filter that has more cells of one bit
than the vector of this bit has entries. -/
theorem arrange_exit_iff (a : Around) :
    arrangeTheIndexes (some a) BF (L false) (L true) current = .error (.exit "Not enough o's/1's - problem!") ↔
      ∃ v, (L v).length < BF.count v := by
  obtain ⟨⟨front, b₀, b₁⟩, hf⟩ : ∃ r, arrangeIndexesThread (some a) current (L true) (L false) 1
      (BF.take (BF.length / 2)) 0 0 = .ok r :=
    thread_total _ (fun _ => 0) fun i _ => serve_some a _ _
  obtain ⟨⟨back, e₀, e₁⟩, hb⟩ : ∃ r, arrangeIndexesThread (some a) current (L true) (L false) (-1)
      (BF.drop (BF.length / 2)) ((L false).length - 1) ((L true).length - 1) = .ok r :=
    thread_total _ (fun v => ((L v).length : ℤ) - 1) fun i _ => serve_some a _ _
  rw [arrange_of_ends hf hb]
  by_cases hm : ∃ v, (L v).length < BF.count v
  · rw [if_pos hm]
    exact ⟨fun _ => hm, fun _ => rfl⟩
  · rw [if_neg hm]
    exact ⟨fun h => (nomatch h), fun h => absurd h hm⟩

theorem serve_mono {out : Option Around} {v : Bool} {p x : ℤ} (h : serve none current L v p = .ok x) :
    serve out current L v p = .ok x := by
  obtain ⟨k, hk, hx⟩ := bind_ok h
  unfold serve
  rw [readAt_mono hk, ok_bind, readAt_mono hx]

/-- What a thread does without a read outside the arrays does not depend on what lies there. -/
theorem thread_mono (out : Option Around) {δ : ℤ} : ∀ (bits : List Bool) (p : Bool → ℤ) {r : List ℤ × ℤ × ℤ},
    arrangeIndexesThread none current (L true) (L false) δ bits (p false) (p true) = .ok r →
    arrangeIndexesThread out current (L true) (L false) δ bits (p false) (p true) = .ok r
  | [], _, _, h => h
  | v :: bits, p, r, h => by
    rw [thread_cons] at h ⊢
    obtain ⟨x, hx, h⟩ := bind_ok h
    obtain ⟨⟨vs, places⟩, h', h⟩ := bind_ok h
    rw [serve_mono hx, ok_bind]
    simp only [thread_mono out bits _ h', ok_bind]
    exact h

theorem arrange_mono (out : Option Around) (h : arrangeTheIndexes none BF (L false) (L true) current = .ok f) :
    arrangeTheIndexes out BF (L false) (L true) current = .ok f := by
  obtain ⟨⟨front, b₀, b₁⟩, hf, h⟩ := bind_ok h
  obtain ⟨⟨back, e₀, e₁⟩, hb, h⟩ := bind_ok h
  have hf' := thread_mono out _ (fun _ => 0) hf
  have hb' := thread_mono out _ (fun v => ((L v).length : ℤ) - 1) hb
  simp only [arrangeTheIndexes, hf', hb', ok_bind]
  exact h

/-- The vectors and the filter determine the function. -/
theorem Served.unique {f' : List ℤ} (h : Served current L BF f) (h' : Served current L BF f') : f = f' := by
  apply List.ext_getElem?
  intro i
  by_cases hi : i < BF.length
  · obtain ⟨k, hk, _, hf⟩ := h.entry i hi
    obtain ⟨k', hk', _, hf'⟩ := h'.entry i hi
    rw [hk] at hk'
    cases Nat.cast_injective (Option.some_injective _ hk')
    rw [hf, hf']
  · rw [List.getElem?_eq_none (by rw [h.length]; omega), List.getElem?_eq_none (by rw [h'.length]; omega)]

end Arrange

end Mpsi
