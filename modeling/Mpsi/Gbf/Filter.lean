/-
The filter that the threads of `create_BF_threads` make together is that of a plain loop over the items and
their hash values, in every order of the threads' actions, and the threads always come to their end
(`parallel_bloom`).
-/
import Mpsi.Gbf.Bloom
import Mpsi.Lib.Sim

namespace Mpsi

open Thread Stream Relation

/-! ## The hash values of an item -/

/-- Hash value number `k` of an item: each AES output gives two, the low half first. -/
def hashValue (aes : Block → Block → Block) (seed : Block) (Nbf : ℕ) (item : ℤ) (k : ℕ) : ℕ :=
  (if k % 2 = 0 then (hashBlock aes seed item (k / 2)).low else (hashBlock aes seed item (k / 2)).high) % Nbf

theorem map_range_pairs {β : Type} (f : ℕ → β) (m : ℕ) :
    (List.range (2 * m)).map f = (List.range m).flatMap fun j => [f (2 * j), f (2 * j + 1)] := by
  induction m with
  | zero => rfl
  | succ m ih =>
    rw [show 2 * (m + 1) = 2 * m + 1 + 1 by ring, List.range_succ, List.range_succ, List.range_succ]
    simp [ih]

section HashValue

variable {aes : Block → Block → Block} {seed : Block} {Nbf seeds_num : ℕ} {item : ℤ}

theorem hashValue_even (j : ℕ) : hashValue aes seed Nbf item (2 * j) = (hashBlock aes seed item j).low % Nbf := by
  unfold hashValue
  rw [if_pos (by omega), show 2 * j / 2 = j by omega]

theorem hashValue_odd (j : ℕ) : hashValue aes seed Nbf item (2 * j + 1) = (hashBlock aes seed item j).high % Nbf := by
  unfold hashValue
  rw [if_neg (by omega), show (2 * j + 1) / 2 = j by omega]

/-- The packing of two values to an output loses none, nor does the odd tail. -/
theorem hashes_eq : hashes aes seed Nbf seeds_num item = (List.range seeds_num).map (hashValue aes seed Nbf item) := by
  have hpairs : (List.range (seeds_num / 2)).flatMap (fun j =>
      [(hashBlock aes seed item j).low % Nbf, (hashBlock aes seed item j).high % Nbf]) =
      (List.range (2 * (seeds_num / 2))).map (hashValue aes seed Nbf item) := by
    simp only [map_range_pairs, hashValue_even, hashValue_odd]
  unfold hashes
  rw [hpairs]
  split
  · rename_i hodd
    conv_rhs => rw [show seeds_num = 2 * (seeds_num / 2) + 1 by omega, List.range_succ, List.map_append]
    simp [hashValue_even]
  · rename_i heven
    conv_rhs => rw [show seeds_num = 2 * (seeds_num / 2) by omega]
    rw [List.append_nil]

theorem mem_hashes {c : ℕ} : c ∈ hashes aes seed Nbf seeds_num item ↔ ∃ k < seeds_num, hashValue aes seed Nbf item k = c := by
  simp [hashes_eq]

end HashValue

/-! ## What each thread inserts -/

/-- The hash that a write puts into the set of item number `t`. -/
def BloomOp.insertOf (t : ℕ) : BloomOp → Option ℕ
  | .setBit _ => none
  | .insert i h => if i = t then some h else none

@[simp] theorem BloomOp.insertOf_setBit (t h : ℕ) : BloomOp.insertOf t (.setBit h) = none := rfl

@[simp] theorem BloomOp.insertOf_insert (t i h : ℕ) : BloomOp.insertOf t (.insert i h) = if i = t then some h else none := rfl

/-- The hashes that a list of writes puts into the set of item number `t`, in order. -/
def insertsOf (t : ℕ) (os : List BloomOp) : List ℕ := os.filterMap (BloomOp.insertOf t)

section Inserts

variable {K : Type} {T : K → Type} {aes : Block → Block → Block} {seed : Block} {Nbf seeds_num : ℕ} {items : List ℤ}

theorem insertsOf_itemOps (t i : ℕ) (item : ℤ) :
    insertsOf t (itemOps aes seed Nbf seeds_num i item) = if i = t then hashes aes seed Nbf seeds_num item else [] := by
  by_cases hi : i = t
  · subst hi
    unfold insertsOf
    rw [itemOps, hashes, if_pos rfl, List.filterMap_append, List.filterMap_flatMap]
    congr 1
    · simp [List.filterMap_cons]
    · split <;> simp [List.filterMap_cons]
  · have hno : ∀ d ∈ itemOps aes seed Nbf seeds_num i item, BloomOp.insertOf t d = none := by
      intro d hd
      rcases mem_itemOps.1 hd with ⟨h, _, rfl | rfl⟩
      · rfl
      · exact if_neg hi
    rw [if_neg hi]
    exact List.filterMap_eq_nil_iff.2 hno

/-- A loop that collects something in the round `t` only. -/
theorem flatMap_single {β : Type} {t : ℕ} {H : List β} : ∀ {l : List ℕ}, l.Nodup →
    l.flatMap (fun i => if i = t then H else []) = if t ∈ l then H else []
  | [], _ => rfl
  | i :: l, h => by
    obtain ⟨hi, hl⟩ := List.nodup_cons.1 h
    rw [List.flatMap_cons, flatMap_single hl]
    by_cases hit : i = t
    · subst hit; simp [hi]
    · simp [hit, Ne.symm hit]

/-- A thread inserts the hashes of its items once each, in order, and no others. -/
theorem insertsOf_bfThread {start stop t : ℕ} {es : List (Event T BloomOp BloomMem)}
    (h : Ends (bfThread aes seed Nbf seeds_num items start stop) es ()) :
    insertsOf t (ops es) =
      if start ≤ t ∧ t < stop then items[t]?.elim [] (hashes aes seed Nbf seeds_num) else [] := by
  -- only the round of item `t` inserts to its set
  have hround : ∀ i, insertsOf t (items[i]?.elim [] (itemOps aes seed Nbf seeds_num i)) =
      if i = t then items[t]?.elim [] (hashes aes seed Nbf seeds_num) else [] := by
    intro i
    cases hi : items[i]? with
    | none =>
      by_cases hit : i = t
      · subst hit; simp [hi, insertsOf]
      · simp [hit, insertsOf]
    | some item =>
      rw [Option.elim_some, insertsOf_itemOps]
      by_cases hit : i = t
      · subst hit; simp [hi]
      · simp [hit]
  have hrange : t ∈ List.range' start (stop - start) ↔ start ≤ t ∧ t < stop := by
    rw [List.mem_range'_1]
    omega
  have hflat : insertsOf t (ops es) = (List.range' start (stop - start)).flatMap fun i =>
      insertsOf t (items[i]?.elim [] (itemOps aes seed Nbf seeds_num i)) := by
    rw [ops_bfThread h, insertsOf, List.filterMap_flatMap]
    rfl
  simp only [hflat, hround, flatMap_single List.nodup_range', hrange]

end Inserts

/-! ## The threads together -/

section Parallel

variable {K : Type} {T : K → Type} {χ : Type} [DecidableEq χ] {aes : Block → Block → Block} {seed : Block}
  {Nbf seeds_num : ℕ} {items : List ℤ} {s : Alone χ (Msg T) (Pool T BloomOp BloomMem Fault fun _ : Fin 37 => Unit)}

theorem bloom_inv (h : AloneReaches (bloomStage χ aes seed Nbf seeds_num items).Step
    (bloomStage χ aes seed Nbf seeds_num items).start s) :
    (bloomStage χ aes seed Nbf seeds_num items).Inv (fun _ => False) (fun _ => False) (fun _ => []) (fun _ => []) s.proc
      s.wrote s.read :=
  inv_of_alone_stage bloomStage_ported h

/-- Once all threads have returned, one thread has inserted the hashes of an item, each once, and the others none. -/
theorem exists_owner (h : AloneReaches (bloomStage χ aes seed Nbf seeds_num items).Step
    (bloomStage χ aes seed Nbf seeds_num items).start s) (hj : s.proc.Joined fun _ => ()) {t : ℕ} {item : ℤ}
    (ht : items[t]? = some item) :
    ∃ a, insertsOf t (ops (s.proc.hist a)) = (List.range seeds_num).map (hashValue aes seed Nbf item) ∧
      ∀ b, b ≠ a → insertsOf t (ops (s.proc.hist b)) = [] := by
  have hends := (bloom_inv h).ends hj
  obtain ⟨a, h1, h2⟩ := exists_bf_thread (List.getElem?_eq_some_iff.1 ht).1
  refine ⟨a, ?_, fun b hb => ?_⟩
  · rw [insertsOf_bfThread (hends a), if_pos ⟨h1, h2⟩, ht, Option.elim_some, hashes_eq]
  · rw [insertsOf_bfThread (hends b), if_neg]
    rintro ⟨h3, h4⟩
    exact hb (bf_thread_unique h3 h4 h1 h2)

/-- The filter and the sets that they leave. -/
theorem bloom_joined (h : AloneReaches (bloomStage χ aes seed Nbf seeds_num items).Step
    (bloomStage χ aes seed Nbf seeds_num items).start s) (hj : s.proc.Joined fun _ => ()) :
    s.proc.mem.bits = bloomBits aes seed Nbf seeds_num items ∧ s.proc.mem.h_kokhav = bloomSets aes seed Nbf seeds_num items :=
  bloom_mem_eq (bloom_inv h).mem (bloom_all_ops ((bloom_inv h).ends hj))

variable (T χ aes seed seeds_num items) in
/-- The threads follow one script each in every order of their actions. -/
theorem exists_bloom_plan (hN : Nbf ≠ 0) : ∃ sc, (bloomStage (T := T) χ aes seed Nbf seeds_num items).Script
      (fun _ => []) (fun _ => []) (fun _ => []) (fun _ => []) sc (fun _ => ()) ∧
    ∀ s, AloneReaches (bloomStage χ aes seed Nbf seeds_num items).Step (bloomStage χ aes seed Nbf seeds_num items).start s →
      ∀ a, s.proc.hist a <+: sc a := by
  obtain ⟨sc, S⟩ : ∃ sc, (bloomStage (T := T) χ aes seed Nbf seeds_num items).Script (fun _ => []) (fun _ => [])
      (fun _ => []) (fun _ => []) sc (fun _ => ()) := exists_bloom_script fun _ _ _ => hN
  exact ⟨sc, S, fun s h => S.on_script (bloom_inv h) bloomStage_ported fun _ hc => hc.elim⟩

/-- From every state the threads can go on until all have returned. -/
theorem exists_joined (hN : Nbf ≠ 0) (h : AloneReaches (bloomStage (T := T) χ aes seed Nbf seeds_num items).Step
    (bloomStage χ aes seed Nbf seeds_num items).start s) :
    ∃ t, ReflTransGen (AloneStep (bloomStage χ aes seed Nbf seeds_num items).Step) s t ∧ t.proc.Joined fun _ => () := by
  obtain ⟨sc, S, _⟩ := exists_bloom_plan T χ aes seed seeds_num items hN
  obtain ⟨t, hst, _, hj, _⟩ := S.exists_run bloomStage_ported (A := Finset.univ) (fun a ha => absurd (Finset.mem_univ a) ha)
    (bloom_inv h) fun _ hc => hc.elim
  exact ⟨t, hst, hj⟩

/-- For every list of items, in every order of the 37 threads' actions: no thread ends the run, the threads can
always go on until all have returned, and then the set of each item holds exactly its hash values, each of
them a place of the filter and inserted once, by one thread, and the bits of the filter are the members of the
sets. -/
theorem parallel_bloom (aes : Block → Block → Block) (seed : Block) (items : List ℤ) (hN : 1 ≤ Nbf) (hseeds : 1 ≤ seeds_num) :
    ∀ s, AloneReaches (bloomStage (T := T) χ aes seed Nbf seeds_num items).Step
      (bloomStage χ aes seed Nbf seeds_num items).start s →
    (∀ f, ¬ (bloomStage χ aes seed Nbf seeds_num items).Faults s.proc f) ∧
    (∃ t, ReflTransGen (AloneStep (bloomStage χ aes seed Nbf seeds_num items).Step) s t ∧ t.proc.Joined fun _ => ()) ∧
    ((s.proc.Joined fun _ => ()) →
      (∀ t item, items[t]? = some item →
        (∀ c, c ∈ (s.proc.mem.h_kokhav t).elems ↔ ∃ k < seeds_num, hashValue aes seed Nbf item k = c) ∧
        (∀ c ∈ (s.proc.mem.h_kokhav t).elems, c < Nbf) ∧
        ∃! a, insertsOf t (ops (s.proc.hist a)) = (List.range seeds_num).map (hashValue aes seed Nbf item) ∧
          ∀ b, b ≠ a → insertsOf t (ops (s.proc.hist b)) = []) ∧
      ∀ j, s.proc.mem.bits j = true ↔ ∃ t < items.length, j ∈ (s.proc.mem.h_kokhav t).elems) := by
  intro s h
  have hN0 : Nbf ≠ 0 := by omega
  refine ⟨fun f => ?_, exists_joined hN0 h, fun hj => ⟨fun t item ht => ⟨fun c => ?_, fun c hc => ?_, ?_⟩, fun j => ?_⟩⟩
  · obtain ⟨sc, S, hpre⟩ := exists_bloom_plan T χ aes seed seeds_num items hN0
    exact S.no_fault (bloom_inv h) (hpre s h) f
  · rw [(bloom_joined h hj).2, bloomSets, ht, ← mem_hashes]
    exact mem_hStar
  · rw [(bloom_joined h hj).2, bloomSets, ht] at hc
    exact hashes_lt hN (mem_hStar.1 hc)
  · obtain ⟨a, ha, hrest⟩ := exists_owner h hj ht
    refine ⟨a, ⟨ha, hrest⟩, fun b hb => ?_⟩
    -- another thread inserts nothing, and an item has a hash
    by_contra hne
    have hnil := hb.1.symm.trans (hrest b hne)
    rw [List.map_eq_nil_iff, List.range_eq_nil] at hnil
    omega
  · rw [(bloom_joined h hj).1, (bloom_joined h hj).2, bloomBits, decide_eq_true_iff]
    constructor
    · rintro ⟨item, hi, hm⟩
      obtain ⟨t, ht, rfl⟩ := List.getElem_of_mem hi
      refine ⟨t, ht, ?_⟩
      unfold bloomSets
      rw [List.getElem?_eq_getElem ht]
      exact mem_hStar.2 hm
    · rintro ⟨t, ht, hm⟩
      unfold bloomSets at hm
      rw [List.getElem?_eq_getElem ht] at hm
      exact ⟨items[t], List.getElem_mem ht, mem_hStar.1 hm⟩

end Parallel

/-- Two items with three hashes each in a filter of four places. -/
theorem parallel_bloom_two : ∃ s, AloneReaches (bloomStage (T := fun _ : Unit => ℕ) ℕ (fun key x => key ^^^ x) 0 4 3 [5, 7]).Step
      (bloomStage ℕ (fun key x => key ^^^ x) 0 4 3 [5, 7]).start s ∧
    ∀ c, c ∈ (s.proc.mem.h_kokhav 1).elems ↔ ∃ k < 3, hashValue (fun key x => key ^^^ x) 0 4 7 k = c := by
  have hN : 1 ≤ 4 := by decide
  have hseeds : 1 ≤ 3 := by decide
  obtain ⟨_, ⟨t, hst, hj⟩, _⟩ := parallel_bloom (T := fun _ : Unit => ℕ) (χ := ℕ) (fun key x => key ^^^ x) 0 [5, 7] hN hseeds _ .refl
  obtain ⟨_, _, hend⟩ := parallel_bloom (fun key x => key ^^^ x) 0 [5, 7] hN hseeds t hst
  exact ⟨t, hst, ((hend hj).1 1 7 rfl).1⟩

end Mpsi
