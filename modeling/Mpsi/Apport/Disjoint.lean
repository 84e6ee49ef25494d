/-
`functions::if_disjoint_sets`: the entries of one array are marked in a `Bitstring`, those of the other
are looked up there, up to the first that is marked. It answers 1 for disjoint arrays and 0 for others, which is
what its caller and its tests take it for; the comment above it names the answers the other way round.

Every entry is used as a place unseen: `ifDisjointSets_run` has the answer for arrays with any entries, and a read
outside the `Bitstring` where there is one.
-/
import Mathlib.Data.List.TakeWhile
import Mpsi.Data.Bitstring

namespace Mpsi

/-- The first loop of `if_disjoint_sets`. -/
def markLoop (cc : List ℤ) (Ncc : ℤ) (counter : List UInt8) : Except Fault (List UInt8) :=
  (List.range Ncc.toNat).foldlM (fun counter (i : ℕ) => do
    let place ← readAt none cc i
    setBit counter place 1) counter

/-- Its second loop, with `n` rounds to go from `i` on: it returns at the first entry that is marked. -/
def searchLoop (counter : List UInt8) (indexes : List ℤ) : ℕ → ℕ → Except Fault ℤ
  | 0, _ => .ok 1
  | n + 1, i => do
    let place ← readAt none indexes i
    let bit ← getBit counter place
    if bit = 1 then .ok 0 else searchLoop counter indexes n (i + 1)

/-- `functions::if_disjoint_sets`. -/
def ifDisjointSets (cc : List ℤ) (Ncc : ℤ) (indexes : List ℤ) (Nbf Not : ℤ) : Except Fault ℤ := do
  let counter ← bitstring Not 0 fun _ => 0
  let counter ← markLoop cc Ncc counter
  searchLoop counter indexes Nbf.toNat 0

/-- A place of a `Bitstring` of length `n`. -/
def InPlaces (n : ℕ) (k : ℤ) : Prop := 0 ≤ k ∧ k < n

instance (n : ℕ) (k : ℤ) : Decidable (InPlaces n k) := inferInstanceAs (Decidable (_ ∧ _))

/-- The places that the entries of an array name. -/
def placesIn (n : ℕ) (cc : List ℤ) : Finset (Fin n) := Finset.univ.filter fun t => ((t : ℕ) : ℤ) ∈ cc

section Places

variable {n : ℕ} {cc : List ℤ} {k : ℤ}

theorem InPlaces.exists_fin (h : InPlaces n k) : ∃ t : Fin n, ((t : ℕ) : ℤ) = k := by
  obtain ⟨h0, hlt⟩ := h
  exact ⟨⟨k.toNat, by omega⟩, Int.toNat_of_nonneg h0⟩

@[simp] theorem mem_placesIn {t : Fin n} : t ∈ placesIn n cc ↔ ((t : ℕ) : ℤ) ∈ cc := by simp [placesIn]

@[simp] theorem placesIn_nil : placesIn n [] = ∅ := by ext t; simp

theorem placesIn_snoc (t : Fin n) : placesIn n (cc ++ [((t : ℕ) : ℤ)]) = insert t (placesIn n cc) := by
  ext u
  rw [mem_placesIn, Finset.mem_insert, mem_placesIn, List.mem_append, List.mem_singleton, or_comm]
  simp [Fin.ext_iff]

theorem setBit_outside {arr : List UInt8} {v : ℤ} (h : ¬ InPlaces arr.length k) : setBit arr k v = .error .outOfRange := by
  unfold setBit
  rw [readAt_none_outside h]
  rfl

theorem getBit_outside {arr : List UInt8} (h : ¬ InPlaces arr.length k) : getBit arr k = .error .outOfRange := by
  unfold getBit
  rw [readAt_none_outside h]
  rfl

/-- A place is marked when an entry names it. -/
theorem getBit_placesIn (h : InPlaces n k) : getBit (vectorOf (placesIn n cc)) k = .ok (if k ∈ cc then 1 else 0) := by
  obtain ⟨t, rfl⟩ := h.exists_fin
  rw [getBit_vectorOf]
  simp only [mem_placesIn]

end Places

/-! ## The marks -/

section Marks

variable {n : ℕ} {cc : List ℤ}

theorem markLoop_eq_foldlM (cc : List ℤ) (counter : List UInt8) :
    markLoop cc cc.length counter = cc.foldlM (fun counter place => setBit counter place 1) counter := by
  unfold markLoop
  rw [Int.toNat_natCast, List.range_eq_range']
  exact foldlM_readAt none cc (fun _ _ => rfl) cc [] counter rfl

/-- After the entries of `done` their places are marked, and so on with those to come. -/
theorem foldlM_setBit : ∀ (cc done : List ℤ), (∀ c ∈ cc, InPlaces n c) →
    cc.foldlM (fun counter place => setBit counter place 1) (vectorOf (placesIn n done)) = .ok (vectorOf (placesIn n (done ++ cc)))
  | [], done, _ => by
    rw [List.append_nil]
    rfl
  | c :: cc, done, h => by
    obtain ⟨t, rfl⟩ := (h c (List.mem_cons_self ..)).exists_fin
    rw [List.foldlM_cons, setBit_vectorOf, ok_bind, ← placesIn_snoc,
      foldlM_setBit cc _ fun c hc => h c (List.mem_cons_of_mem _ hc), List.append_assoc, List.singleton_append]

/-- An entry that names no place is reported, after whichever marks. -/
theorem foldlM_setBit_outside : ∀ (cc done : List ℤ), (¬ ∀ c ∈ cc, InPlaces n c) →
    cc.foldlM (fun counter place => setBit counter place 1) (vectorOf (placesIn n done)) = .error .outOfRange
  | [], _, h => absurd (fun c hc => (nomatch hc)) h
  | c :: cc, done, h => by
    rw [List.foldlM_cons]
    by_cases hc : InPlaces n c
    · obtain ⟨t, rfl⟩ := hc.exists_fin
      rw [setBit_vectorOf, ok_bind, ← placesIn_snoc]
      apply foldlM_setBit_outside
      intro hcc
      exact h (List.forall_mem_cons.2 ⟨hc, hcc⟩)
    · rw [setBit_outside (by rwa [length_vectorOf])]
      rfl

theorem markLoop_eq (h : ∀ c ∈ cc, InPlaces n c) :
    markLoop cc cc.length (vectorOf (∅ : Finset (Fin n))) = .ok (vectorOf (placesIn n cc)) := by
  rw [markLoop_eq_foldlM, ← placesIn_nil, foldlM_setBit cc [] h, List.nil_append]

theorem markLoop_outside (h : ¬ ∀ c ∈ cc, InPlaces n c) :
    markLoop cc cc.length (vectorOf (∅ : Finset (Fin n))) = .error .outOfRange := by
  rw [markLoop_eq_foldlM, ← placesIn_nil, foldlM_setBit_outside cc [] h]

end Marks

/-! ## The search -/

section Search

variable {n : ℕ} {cc : List ℤ}

/-- One round, after the entries of `done`. -/
theorem searchLoop_cons (counter : List UInt8) (done : List ℤ) (k : ℤ) (ks : List ℤ) :
    searchLoop counter (done ++ k :: ks) (k :: ks).length done.length = (do
      let bit ← getBit counter k
      if bit = 1 then .ok 0 else searchLoop counter ((done ++ [k]) ++ ks) ks.length (done ++ [k]).length) := by
  have hread : readAt none (done ++ k :: ks) done.length = .ok k := by
    rw [readAt_nat _ (by simp)]
    simp
  rw [List.length_cons, searchLoop, hread, ok_bind, List.append_assoc, List.singleton_append, List.length_append,
    List.length_singleton]

/-- The search uses the entries before the first marked one, and that one. -/
theorem searchLoop_eq (hcc : ∀ c ∈ cc, InPlaces n c) : ∀ ks done : List ℤ,
    searchLoop (vectorOf (placesIn n cc)) (done ++ ks) ks.length done.length =
      if ∀ k ∈ ks.takeWhile (· ∉ cc), InPlaces n k then .ok (if ∃ k ∈ ks, k ∈ cc then 0 else 1) else .error .outOfRange
  | [], done => by simp [searchLoop]
  | k :: ks, done => by
    rw [searchLoop_cons]
    by_cases hk : k ∈ cc
    · rw [getBit_placesIn (hcc k hk)]
      simp [hk]
    · by_cases hin : InPlaces n k
      · rw [getBit_placesIn hin, ok_bind, if_neg (by simp [hk]), searchLoop_eq hcc ks]
        simp [hk, hin]
      · rw [getBit_outside (by rwa [length_vectorOf])]
        simp [hk, hin]

end Search

/-! ## The answer -/

section Answer

variable {Not : ℕ} {cc indexes : List ℤ}

/-- For any two arrays: every entry of the first one is used, of the second one those up to the first common one. -/
theorem ifDisjointSets_run (Not : ℕ) (cc indexes : List ℤ) : ifDisjointSets cc cc.length indexes indexes.length Not =
    if (∀ c ∈ cc, InPlaces Not c) ∧ ∀ k ∈ indexes.takeWhile (· ∉ cc), InPlaces Not k then
      .ok (if ∃ k ∈ indexes, k ∈ cc then 0 else 1) else .error .outOfRange := by
  unfold ifDisjointSets
  rw [bitstring_zeros, ok_bind, Int.toNat_natCast]
  by_cases hcc : ∀ c ∈ cc, InPlaces Not c
  · rw [markLoop_eq hcc, ok_bind]
    have hsearch := searchLoop_eq hcc indexes []
    rw [List.nil_append, List.length_nil] at hsearch
    rw [hsearch]
    exact if_congr (and_iff_right hcc).symm rfl rfl
  · rw [markLoop_outside hcc, if_neg fun h => hcc h.1]
    rfl

/-- With entries in the range the answer is 0 exactly for a common entry. -/
theorem ifDisjointSets_eq (hcc : ∀ c ∈ cc, InPlaces Not c) (hindexes : ∀ k ∈ indexes, InPlaces Not k) :
    ifDisjointSets cc cc.length indexes indexes.length Not = .ok (if ∃ k ∈ indexes, k ∈ cc then 0 else 1) := by
  rw [ifDisjointSets_run, if_pos]
  exact ⟨hcc, fun k hk => hindexes k (List.takeWhile_subset _ hk)⟩

-- the first two arrays of the tests, which differ in two entries
example : ifDisjointSets [6, 8, 2, 11, 24, 15, 38, 31, 12, 14] 10
    [5, 10, 16, 18, 19, 3, 21, 22, 17, 33, 1, 28, 0, 39, 10, 22, 9, 35, 30, 27] 20 40 = .ok 1 := rfl

example : ifDisjointSets [6, 8, 9, 11, 24, 15, 38, 31, 12, 19] 10
    [5, 10, 16, 18, 19, 3, 21, 22, 17, 33, 1, 28, 0, 39, 10, 22, 9, 35, 30, 27] 20 40 = .ok 0 := rfl

/-- The answer 1, whatever the entries are: then all of them were looked at. -/
theorem ifDisjointSets_one_iff : ifDisjointSets cc cc.length indexes indexes.length Not = .ok 1 ↔
    (∀ c ∈ cc, InPlaces Not c) ∧ ∀ k ∈ indexes, InPlaces Not k ∧ k ∉ cc := by
  constructor
  · intro h
    rw [ifDisjointSets_run] at h
    split at h
    · rename_i hin
      have hno : ∀ k ∈ indexes, k ∉ cc := by
        intro k hk hmem
        rw [if_pos ⟨k, hk, hmem⟩] at h
        cases h
      rw [List.takeWhile_eq_self_iff.2 (by simpa using hno)] at hin
      exact ⟨hin.1, fun k hk => ⟨hin.2 k hk, hno k hk⟩⟩
    · cases h
  · rintro ⟨hcc, h⟩
    rw [ifDisjointSets_eq hcc fun k hk => (h k hk).1, if_neg]
    rintro ⟨k, hk, hmem⟩
    exact (h k hk).2 hmem

end Answer

end Mpsi
