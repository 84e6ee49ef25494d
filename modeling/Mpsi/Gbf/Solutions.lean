/-
Which arrays `re_randomization` can return. As long as no block drawn or stored is zero, the cells it
draws for can be read off the index sets alone (`drawnCells`): of the cells an item has and no earlier
item, all but the first. Every solution of the items' equations without a zero block is therefore
reached, by drawing its own blocks for these cells (`NonZero.of_solution`).

An item whose cells are all taken gets no equation of its own, and a zero block is taken for an empty
cell and written again: `exists_solution_iff` says when neither costs an item.
-/
import Mpsi.Gbf.Rerandomize

namespace Mpsi

/-! ## Where the blocks drawn for an item go -/

/-- The cells of a list that hold the zero block. -/
def emptyCells (G : ℕ → Block) (cells : List ℕ) : List ℕ := cells.filter fun j => G j = 0

theorem mem_emptyCells {G : ℕ → Block} {cells : List ℕ} {j : ℕ} : j ∈ emptyCells G cells ↔ j ∈ cells ∧ G j = 0 := by
  simp [emptyCells]

section Item

variable {draws : ℕ → Block} {st : Fill} {y : Block} {cells : List ℕ}

/-- The loop over the cells keeps the first empty cell and draws for the others, in order. -/
structure CellShape (draws : ℕ → Block) (st : Fill) (E : List ℕ) (c : CellFill) : Prop where
  final : c.finalInd = E.head?
  drawn : c.drawn = st.drawn + E.tail.length
  get : ∀ k j : ℕ, E.tail[k]? = some j → c.GBF j = draws (st.drawn + k)
  kept : ∀ j, j ∉ E.tail → c.GBF j = st.GBF j

theorem cellShape_step {E : List ℕ} {c : CellFill} (h : CellShape draws st E c) {j : ℕ} (hj : j ∉ E) :
    CellShape draws st (E ++ emptyCells st.GBF [j]) (fillCell draws c j) := by
  have hG : c.GBF j = st.GBF j := h.kept j fun hm => hj (List.mem_of_mem_tail hm)
  unfold fillCell
  rw [toBlock_zero, hG]
  by_cases h0 : st.GBF j = 0
  · have hE : emptyCells st.GBF [j] = [j] := by simp [emptyCells, h0]
    rw [if_pos h0, hE, h.final]
    cases E with
    | nil => exact ⟨rfl, h.drawn, h.get, h.kept⟩
    | cons f t =>
      have hne : ∀ i, i ∈ t → i ≠ j := fun i hi he => hj (he ▸ List.mem_cons_of_mem f hi)
      refine ⟨rfl, ?_, fun k i hk => ?_, fun i hi => ?_⟩
      · simp [h.drawn, add_assoc]
      · change (t ++ [j])[k]? = some i at hk
        change Function.update c.GBF j (draws c.drawn) i = _
        rcases lt_trichotomy k t.length with hlt | rfl | hgt
        · rw [List.getElem?_append_left hlt] at hk
          rw [Function.update_of_ne (hne i (List.mem_of_getElem? hk))]
          exact h.get k i hk
        · simp only [List.getElem?_concat_length, Option.some.injEq] at hk
          subst hk
          rw [Function.update_self, h.drawn, List.tail_cons]
        · rw [List.getElem?_eq_none (by simp; omega)] at hk
          cases hk
      · change i ∉ t ++ [j] at hi
        change Function.update c.GBF j (draws c.drawn) i = _
        rw [List.mem_append, List.mem_singleton, not_or] at hi
        rw [Function.update_of_ne hi.2]
        exact h.kept i hi.1
  · have hE : emptyCells st.GBF [j] = [] := by simp [emptyCells, h0]
    rw [if_neg h0, hE, List.append_nil]
    exact ⟨h.final, h.drawn, h.get, h.kept⟩

theorem cellShape_fillCells (draws : ℕ → Block) (st : Fill) (y : Block) (hnd : cells.Nodup) :
    CellShape draws st (emptyCells st.GBF cells) (fillCells draws st cells y) := by
  induction cells using List.reverseRecOn with
  | nil => exact ⟨rfl, rfl, fun k j h => by simp [emptyCells] at h, fun _ _ => rfl⟩
  | append_singleton l j ih =>
    have hl := List.nodup_append.1 hnd
    have hj : j ∉ emptyCells st.GBF l := fun hm => hl.2.2 j (mem_emptyCells.1 hm).1 j (by simp) rfl
    unfold fillCells
    rw [List.foldl_append, emptyCells, List.filter_append]
    exact cellShape_step (ih hl.1) hj

/-- What an item changes, by the cells it finds empty. -/
structure ItemShape (draws : ℕ → Block) (st : Fill) (cells : List ℕ) (y : Block) (E : List ℕ) (st' : Fill) : Prop where
  drawn : st'.drawn = st.drawn + E.tail.length
  get : ∀ k j : ℕ, E.tail[k]? = some j → st'.GBF j = draws (st.drawn + k)
  kept : ∀ j, j ∉ E → st'.GBF j = st.GBF j
  none : E = [] → st'.stored = st.stored
  some : ∀ f, E.head? = some f → st'.stored = st.stored ++ [st'.GBF f] ∧ (cells.map st'.GBF).sum = y

theorem itemShape_fillItem (draws : ℕ → Block) (st : Fill) (y : Block) (hnd : cells.Nodup) :
    ItemShape draws st cells y (emptyCells st.GBF cells) (fillItem draws st cells y) := by
  have hs := cellShape_fillCells draws st y hnd
  have hEnd : (emptyCells st.GBF cells).Nodup := hnd.filter _
  cases hf : (fillCells draws st cells y).finalInd with
  | none =>
    have hnil : emptyCells st.GBF cells = [] := List.head?_eq_none_iff.1 (hs.final.symm.trans hf)
    unfold fillItem
    simp only [hf]
    refine ⟨hs.drawn, hs.get, fun j hj => hs.kept j fun hm => hj (List.mem_of_mem_tail hm), fun _ => rfl, ?_⟩
    intro f hf'
    rw [hnil] at hf'
    cases hf'
  | some f =>
    have hhead : (emptyCells st.GBF cells).head? = some f := hs.final.symm.trans hf
    have hitem := fillItem_some hf
    have hsum := fillItem_sum hnd hf
    rw [hitem] at hsum ⊢
    refine ⟨hs.drawn, fun k j hk => ?_, fun j hj => ?_, fun hnil => ?_, fun f' hf' => ?_⟩
    · -- the blocks drawn lie behind the first empty cell
      obtain ⟨t, ht⟩ := List.head?_eq_some_iff.1 hhead
      have hjf : j ≠ f := by
        rintro rfl
        rw [ht] at hEnd hk
        exact (List.nodup_cons.1 hEnd).1 (List.mem_of_getElem? hk)
      change Function.update _ f _ j = _
      rw [Function.update_of_ne hjf]
      exact hs.get k j hk
    · have hjf : j ≠ f := by rintro rfl; exact hj (List.mem_of_mem_head? hhead)
      change Function.update _ f _ j = _
      rw [Function.update_of_ne hjf]
      exact hs.kept j fun hm => hj (List.mem_of_mem_tail hm)
    · rw [hnil] at hhead
      cases hhead
    · rw [hhead] at hf'
      cases hf'
      exact ⟨by simp, hsum⟩

end Item

/-- The cells of item `i` that no earlier item has. -/
def freshCells (h_kokhav : ℕ → OrdSet ℕ) (i : ℕ) : List ℕ :=
  (h_kokhav i).elems.filter fun j => ∀ k < i, j ∉ (h_kokhav k).elems

/-- The cells the loop over `n` items draws a block for, in the order of the draws. -/
def drawnCells (h_kokhav : ℕ → OrdSet ℕ) (n : ℕ) : List ℕ :=
  (List.range n).flatMap fun i => (freshCells h_kokhav i).tail

/-- The filled cells are those of the items so far, and the blocks drawn lie in the drawn cells. -/
structure ItemsShape (draws : ℕ → Block) (h_kokhav : ℕ → OrdSet ℕ) (n : ℕ) (st : Fill) : Prop where
  cells : ∀ j, st.GBF j ≠ 0 ↔ ∃ i, i < n ∧ j ∈ (h_kokhav i).elems
  drawn : st.drawn = (drawnCells h_kokhav n).length
  get : ∀ k j : ℕ, (drawnCells h_kokhav n)[k]? = some j → st.GBF j = draws k

section Items

variable {draws : ℕ → Block} {h_kokhav : ℕ → OrdSet ℕ} {M1 : ℕ → Block} {n Nbf : ℕ} {st : Fill}

theorem mem_freshCells {i j : ℕ} :
    j ∈ freshCells h_kokhav i ↔ j ∈ (h_kokhav i).elems ∧ ∀ k < i, j ∉ (h_kokhav k).elems := by
  simp [freshCells]

theorem drawnCells_succ : drawnCells h_kokhav (n + 1) = drawnCells h_kokhav n ++ (freshCells h_kokhav n).tail := by
  simp [drawnCells, List.range_succ]

theorem exists_item_of_mem_drawnCells {j : ℕ} (h : j ∈ drawnCells h_kokhav n) : ∃ i, i < n ∧ j ∈ (h_kokhav i).elems := by
  obtain ⟨i, hi, hj⟩ := List.mem_flatMap.1 h
  exact ⟨i, List.mem_range.1 hi, (mem_freshCells.1 (List.mem_of_mem_tail hj)).1⟩

/-- The cells found empty are those no item before had. -/
theorem ItemsShape.emptyCells_filter (hs : ItemsShape draws h_kokhav n st) (cells : List ℕ) :
    emptyCells st.GBF cells = cells.filter fun j => ∀ i < n, j ∉ (h_kokhav i).elems := by
  apply List.filter_congr
  intro j _
  have h := hs.cells j
  rw [decide_eq_decide, ← not_iff_not, ← Ne, h]
  push Not
  rfl

/-- The cells an item finds empty are its fresh ones. -/
theorem ItemsShape.emptyCells_eq (hs : ItemsShape draws h_kokhav n st) :
    emptyCells st.GBF (h_kokhav n).elems = freshCells h_kokhav n := hs.emptyCells_filter _

theorem ItemsShape.step {st' : Fill} {y : Block} (hs : ItemsShape draws h_kokhav n st)
    (hit : ItemShape draws st (h_kokhav n).elems y (freshCells h_kokhav n) st') (hnz : st'.NonZero draws) :
    ItemsShape draws h_kokhav (n + 1) st' := by
  have htail : ∀ k j : ℕ, (freshCells h_kokhav n).tail[k]? = some j → st'.GBF j ≠ 0 := by
    intro k j hk
    rw [hit.get k j hk]
    apply hnz.drawn _
    have := (List.getElem?_eq_some_iff.1 hk).1
    rw [hit.drawn]
    omega
  refine ⟨fun j => ?_, by rw [hit.drawn, hs.drawn, drawnCells_succ, List.length_append], fun k j hk => ?_⟩
  · rw [exists_item_succ, ← hs.cells]
    by_cases hj : j ∈ freshCells h_kokhav n
    · -- a fresh cell has a draw, or is the one that stores the share
      have hne : st'.GBF j ≠ 0 := by
        cases hE : freshCells h_kokhav n with
        | nil => rw [hE] at hj; cases hj
        | cons f t =>
          rw [hE] at hj hit htail
          rcases List.mem_cons.1 hj with rfl | hj
          · apply hnz.stored _
            rw [(hit.some j rfl).1]
            simp
          · obtain ⟨k, hk⟩ := List.mem_iff_getElem?.1 hj
            exact htail k j hk
      exact ⟨fun _ => Or.inr (mem_freshCells.1 hj).1, fun _ => hne⟩
    · rw [hit.kept j hj]
      refine ⟨Or.inl, ?_⟩
      rintro (h | h)
      · exact h
      · rw [mem_freshCells] at hj
        push Not at hj
        exact (hs.cells j).2 (hj h)
  · rw [drawnCells_succ] at hk
    by_cases hlt : k < (drawnCells h_kokhav n).length
    · rw [List.getElem?_append_left hlt] at hk
      have hpast := exists_item_of_mem_drawnCells (List.mem_of_getElem? hk)
      have hj : j ∉ freshCells h_kokhav n := by
        obtain ⟨i, hi, hm⟩ := hpast
        exact fun h => (mem_freshCells.1 h).2 i hi hm
      rw [hit.kept j hj]
      exact hs.get k j hk
    · rw [List.getElem?_append_right (not_lt.1 hlt)] at hk
      rw [hit.get _ j hk, hs.drawn, Nat.add_sub_cancel' (not_lt.1 hlt)]

theorem itemsShape_zero : ItemsShape draws h_kokhav 0 (fillItems draws h_kokhav M1 0) := by
  refine ⟨fun j => ?_, rfl, fun k j hk => ?_⟩
  · simp [fillItems]
  · unfold drawnCells at hk
    rw [List.range_zero, List.flatMap_nil, List.getElem?_nil] at hk
    cases hk

theorem ItemsShape.item (hs : ItemsShape draws h_kokhav n (fillItems draws h_kokhav M1 n)) :
    ItemShape draws (fillItems draws h_kokhav M1 n) (h_kokhav n).elems (getY h_kokhav M1 n) (freshCells h_kokhav n)
      (fillItems draws h_kokhav M1 (n + 1)) := by
  rw [← hs.emptyCells_eq, fillItems_succ]
  exact itemShape_fillItem draws _ _ (h_kokhav n).nodup

theorem nonZero_of_succ (hnz : (fillItems draws h_kokhav M1 (n + 1)).NonZero draws) :
    (fillItems draws h_kokhav M1 n).NonZero draws := by
  rw [fillItems_succ] at hnz
  exact hnz.mono (fillItem_drawn (h_kokhav n).nodup) (fillItem_stored _)

theorem itemsShape_fillItems (hnz : (fillItems draws h_kokhav M1 n).NonZero draws) :
    ItemsShape draws h_kokhav n (fillItems draws h_kokhav M1 n) := by
  induction n with
  | zero => exact itemsShape_zero
  | succ n ih =>
    have hs := ih (nonZero_of_succ hnz)
    exact hs.step hs.item hnz

/-! ## Draws that belong to a solution -/

/-- Nonzero blocks on the cells of the items, with the exclusive or of every item, of which the draws
are those at the drawn cells. -/
structure Solution (draws : ℕ → Block) (h_kokhav : ℕ → OrdSet ℕ) (M1 : ℕ → Block) (n : ℕ) (G : ℕ → Block) : Prop where
  nonzero : ∀ i < n, ∀ j ∈ (h_kokhav i).elems, G j ≠ 0
  sum : ∀ i < n, ((h_kokhav i).elems.map G).sum = getY h_kokhav M1 i
  draws : ∀ k j : ℕ, (drawnCells h_kokhav n)[k]? = some j → draws k = G j

theorem Solution.pred {G : ℕ → Block} (h : Solution draws h_kokhav M1 (n + 1) G) : Solution draws h_kokhav M1 n G := by
  refine ⟨fun i hi => h.nonzero i (by omega), fun i hi => h.sum i (by omega), fun k j hk => h.draws k j ?_⟩
  rw [drawnCells_succ, List.getElem?_append_left (List.getElem?_eq_some_iff.1 hk).1, hk]

/-- Arrays with one sum that differ at most at `f` are the same there. -/
theorem eq_of_sum_eq {G G' : ℕ → Block} {l : List ℕ} (hnd : l.Nodup) {f : ℕ} (hf : f ∈ l)
    (hsum : (l.map G).sum = (l.map G').sum) (h : ∀ j ∈ l, j ≠ f → G j = G' j) : G f = G' f := by
  rw [← List.sum_toFinset _ hnd, ← List.sum_toFinset _ hnd, ← Finset.add_sum_erase _ G (List.mem_toFinset.2 hf),
    ← Finset.add_sum_erase _ G' (List.mem_toFinset.2 hf)] at hsum
  have herase : ∑ j ∈ l.toFinset.erase f, G j = ∑ j ∈ l.toFinset.erase f, G' j := by
    apply Finset.sum_congr rfl
    intro j hj
    obtain ⟨hne, hm⟩ := Finset.mem_erase.1 hj
    exact h j (List.mem_toFinset.1 hm) hne
  rw [herase] at hsum
  exact add_right_cancel hsum

/-- The next item gets the blocks of the solution, if the items before it have. -/
theorem ItemsShape.agrees_succ {G : ℕ → Block} (hs : ItemsShape draws h_kokhav n (fillItems draws h_kokhav M1 n))
    (h : Solution draws h_kokhav M1 (n + 1) G)
    (hG : ∀ i < n, ∀ j ∈ (h_kokhav i).elems, (fillItems draws h_kokhav M1 n).GBF j = G j) :
    ∀ i < n + 1, ∀ j ∈ (h_kokhav i).elems, (fillItems draws h_kokhav M1 (n + 1)).GBF j = G j := by
  have hit := hs.item
  set st' := fillItems draws h_kokhav M1 (n + 1)
  have hpast : ∀ j, (∃ i, i < n ∧ j ∈ (h_kokhav i).elems) → st'.GBF j = G j := by
    rintro j ⟨i, hi, hm⟩
    rw [hit.kept j fun hf => (mem_freshCells.1 hf).2 i hi hm]
    exact hG i hi j hm
  have hold : ∀ j ∈ (h_kokhav n).elems, j ∉ freshCells h_kokhav n → st'.GBF j = G j := by
    intro j hj hfresh
    apply hpast j
    rw [mem_freshCells] at hfresh
    push Not at hfresh
    exact hfresh hj
  have htail : ∀ j ∈ (freshCells h_kokhav n).tail, st'.GBF j = G j := by
    intro j hj
    obtain ⟨k, hk⟩ := List.mem_iff_getElem?.1 hj
    rw [hit.get k j hk, hs.drawn]
    apply h.draws _ j
    rw [drawnCells_succ, List.getElem?_append_right (Nat.le_add_right _ _), Nat.add_sub_cancel_left, hk]
  -- the first fresh cell is not drawn: the exclusive or of the item fixes it
  have hhead : ∀ f t, freshCells h_kokhav n = f :: t → st'.GBF f = G f := by
    intro f t ht
    have hmem : f ∈ freshCells h_kokhav n := by rw [ht]; exact List.mem_cons_self ..
    refine eq_of_sum_eq (h_kokhav n).nodup (mem_freshCells.1 hmem).1 ?_ fun j hj hjf => ?_
    · rw [(hit.some f (by rw [ht]; rfl)).2, h.sum n (Nat.lt_succ_self n)]
    · by_cases hfresh : j ∈ freshCells h_kokhav n
      · apply htail j
        rw [ht] at hfresh ⊢
        exact (List.mem_cons.1 hfresh).resolve_left hjf
      · exact hold j hj hfresh
  intro i hi j hj
  rcases Nat.lt_succ_iff_lt_or_eq.1 hi with hi | rfl
  · exact hpast j ⟨i, hi, hj⟩
  · by_cases hfresh : j ∈ freshCells h_kokhav i
    · obtain ⟨f, t, ht⟩ := List.exists_cons_of_ne_nil (List.ne_nil_of_mem hfresh)
      rcases List.mem_cons.1 (ht ▸ hfresh) with rfl | hjt
      · exact hhead j t ht
      · exact htail j (by rw [ht]; exact hjt)
    · exact hold j hj hfresh

/-- Draws of a solution fill the cells of the items with it, and nothing is zero. -/
theorem nonZero_of_solution {G : ℕ → Block} (h : Solution draws h_kokhav M1 n G) :
    (fillItems draws h_kokhav M1 n).NonZero draws ∧
      ∀ i < n, ∀ j ∈ (h_kokhav i).elems, (fillItems draws h_kokhav M1 n).GBF j = G j := by
  induction n with
  | zero => exact ⟨⟨fun k hk => absurd hk (Nat.not_lt_zero k), fun b hb => (nomatch hb)⟩, fun i hi => absurd hi (Nat.not_lt_zero i)⟩
  | succ n ih =>
    obtain ⟨hnz, hG⟩ := ih h.pred
    have hs := itemsShape_fillItems hnz
    have hit := hs.item
    have hG' := hs.agrees_succ h hG
    refine ⟨⟨fun k hk => ?_, fun b hb => ?_⟩, hG'⟩
    · rw [hit.drawn, hs.drawn, ← List.length_append, ← drawnCells_succ] at hk
      have hget := List.getElem?_eq_getElem hk
      obtain ⟨i, hi, hm⟩ := exists_item_of_mem_drawnCells (List.mem_of_getElem? hget)
      rw [h.draws k _ hget]
      exact h.nonzero i hi _ hm
    · cases hf : (freshCells h_kokhav n).head? with
      | none =>
        rw [hit.none (List.head?_eq_none_iff.1 hf)] at hb
        exact hnz.stored b hb
      | some f =>
        rw [(hit.some f hf).1] at hb
        rcases List.mem_append.1 hb with hb | hb
        · exact hnz.stored b hb
        · have hmem := (mem_freshCells.1 (List.mem_of_head? hf)).1
          rw [List.mem_singleton.1 hb, hG' n (Nat.lt_succ_self n) f hmem]
          exact h.nonzero n (Nat.lt_succ_self n) f hmem

/-! ## The last loop -/

/-- The cells the last loop draws for. -/
theorem fillEmpty_shape (draws : ℕ → Block) (Nbf : ℕ) (st : Fill) :
    (fillEmpty draws Nbf st).drawn = st.drawn + (emptyCells st.GBF (List.range Nbf)).length ∧
      (∀ k j : ℕ, (emptyCells st.GBF (List.range Nbf))[k]? = some j → (fillEmpty draws Nbf st).GBF j = draws (st.drawn + k)) ∧
      ∀ j, j ∉ emptyCells st.GBF (List.range Nbf) → (fillEmpty draws Nbf st).GBF j = st.GBF j := by
  induction Nbf with
  | zero => exact ⟨rfl, fun k j hk => by simp [emptyCells] at hk, fun _ _ => rfl⟩
  | succ N ih =>
    obtain ⟨hdrawn, hget, hkept⟩ := ih
    have hN : N ∉ emptyCells st.GBF (List.range N) := fun h => by simpa using (mem_emptyCells.1 h).1
    have hsplit : emptyCells st.GBF (List.range (N + 1)) = emptyCells st.GBF (List.range N) ++ emptyCells st.GBF [N] := by
      rw [emptyCells, List.range_succ, List.filter_append]
      rfl
    have hstep : fillEmpty draws (N + 1) st = if (fillEmpty draws N st).GBF N = toBlock 0 0 then
        ⟨Function.update (fillEmpty draws N st).GBF N (draws (fillEmpty draws N st).drawn), (fillEmpty draws N st).drawn + 1,
          (fillEmpty draws N st).stored⟩ else fillEmpty draws N st := by
      unfold fillEmpty
      rw [List.range_succ, List.foldl_append]
      rfl
    rw [hstep, hsplit, toBlock_zero, hkept N hN]
    by_cases h0 : st.GBF N = 0
    · have hE : emptyCells st.GBF [N] = [N] := by simp [emptyCells, h0]
      rw [if_pos h0, hE]
      refine ⟨?_, fun k j hk => ?_, fun j hj => ?_⟩
      · rw [hdrawn, List.length_append, List.length_singleton, add_assoc]
      · by_cases hlt : k < (emptyCells st.GBF (List.range N)).length
        · rw [List.getElem?_append_left hlt] at hk
          -- a cell drawn for before
          have hjN : j ≠ N := by rintro rfl; exact hN (List.mem_of_getElem? hk)
          change Function.update _ N _ j = _
          rw [Function.update_of_ne hjN]
          exact hget k j hk
        · rw [List.getElem?_append_right (not_lt.1 hlt), List.getElem?_singleton] at hk
          split at hk
          · rename_i hk0
            cases hk
            change Function.update _ N _ N = _
            rw [Function.update_self, hdrawn, show k = (emptyCells st.GBF (List.range N)).length by omega]
          · cases hk
      · rw [List.mem_append, List.mem_singleton, not_or] at hj
        change Function.update _ N _ j = _
        rw [Function.update_of_ne hj.2]
        exact hkept j hj.1
    · have hE : emptyCells st.GBF [N] = [] := by simp [emptyCells, h0]
      rw [if_neg h0, hE, List.append_nil]
      exact ⟨hdrawn, hget, hkept⟩

/-- The last loop keeps the cells of the items. -/
theorem reRandomization_item (hs : ItemsShape draws h_kokhav n (fillItems draws h_kokhav M1 n)) {i : ℕ} (hi : i < n)
    {j : ℕ} (hj : j ∈ (h_kokhav i).elems) :
    (reRandomization draws h_kokhav n Nbf M1).GBF j = (fillItems draws h_kokhav M1 n).GBF j :=
  fillEmpty_kept ((hs.cells j).2 ⟨i, hi, hj⟩)

/-! ## The solution set -/

/-- The cells no item has. -/
def leftCells (h_kokhav : ℕ → OrdSet ℕ) (n Nbf : ℕ) : List ℕ :=
  (List.range Nbf).filter fun j => ∀ i < n, j ∉ (h_kokhav i).elems

theorem emptyCells_eq_leftCells (hs : ItemsShape draws h_kokhav n st) :
    emptyCells st.GBF (List.range Nbf) = leftCells h_kokhav n Nbf := hs.emptyCells_filter _

/-- The draws that make `G`. -/
def drawsOf (h_kokhav : ℕ → OrdSet ℕ) (n Nbf : ℕ) (G : ℕ → Block) (k : ℕ) : Block :=
  ((drawnCells h_kokhav n ++ leftCells h_kokhav n Nbf).map G).getD k (toBlock 0 1)

theorem drawsOf_get {G : ℕ → Block} {k j : ℕ} (h : (drawnCells h_kokhav n ++ leftCells h_kokhav n Nbf)[k]? = some j) :
    drawsOf h_kokhav n Nbf G k = G j := by
  simp only [drawsOf, List.getD_eq_getElem?_getD, List.getElem?_map, h, Option.map_some, Option.getD_some]

theorem drawsOf_ne_zero {G : ℕ → Block} (hin : ∀ i < n, ∀ j ∈ (h_kokhav i).elems, j < Nbf) (hG : ∀ j < Nbf, G j ≠ 0) (k : ℕ) :
    drawsOf h_kokhav n Nbf G k ≠ 0 := by
  cases hk : (drawnCells h_kokhav n ++ leftCells h_kokhav n Nbf)[k]? with
  | none =>
    simp only [drawsOf, List.getD_eq_getElem?_getD, List.getElem?_map, hk, Option.map_none, Option.getD_none]
    decide
  | some j =>
    rw [drawsOf_get hk]
    apply hG j
    rcases List.mem_append.1 (List.mem_of_getElem? hk) with hj | hj
    · obtain ⟨i, hi, hm⟩ := exists_item_of_mem_drawnCells hj
      exact hin i hi j hm
    · exact List.mem_range.1 (List.mem_filter.1 hj).1

/-- Nonzero draws leave no cell zero. -/
theorem reRandomization_ne_zero (hd : ∀ k, draws k ≠ 0) {j : ℕ} (hj : j < Nbf) : (reRandomization draws h_kokhav n Nbf M1).GBF j ≠ 0 := by
  obtain ⟨_, hget, hkept⟩ := fillEmpty_shape draws Nbf (fillItems draws h_kokhav M1 n)
  by_cases hm : j ∈ emptyCells (fillItems draws h_kokhav M1 n).GBF (List.range Nbf)
  · obtain ⟨k, hk⟩ := List.mem_iff_getElem?.1 hm
    unfold reRandomization
    rw [hget k j hk]
    exact hd _
  · unfold reRandomization
    rw [hkept j hm]
    exact fun h0 => hm (mem_emptyCells.2 ⟨List.mem_range.2 hj, h0⟩)

/-- An array of nonzero blocks with the exclusive or of every item is the one its own draws make. -/
theorem reRandomization_drawsOf {G : ℕ → Block} (hin : ∀ i < n, ∀ j ∈ (h_kokhav i).elems, j < Nbf) (hne : ∀ j < Nbf, G j ≠ 0)
    (hsum : ∀ i < n, ((h_kokhav i).elems.map G).sum = ((h_kokhav i).elems.map M1).sum) :
    (∀ b ∈ (reRandomization (drawsOf h_kokhav n Nbf G) h_kokhav n Nbf M1).stored, b ≠ 0) ∧
      ∀ j < Nbf, (reRandomization (drawsOf h_kokhav n Nbf G) h_kokhav n Nbf M1).GBF j = G j := by
  have hsol : Solution (drawsOf h_kokhav n Nbf G) h_kokhav M1 n G := by
    refine ⟨fun i hi j hj => hne j (hin i hi j hj), fun i hi => by rw [getY_eq]; exact hsum i hi, fun k j hk => ?_⟩
    apply drawsOf_get
    rw [List.getElem?_append_left (List.getElem?_eq_some_iff.1 hk).1, hk]
  obtain ⟨hnz, hitems⟩ := nonZero_of_solution hsol
  have hs := itemsShape_fillItems hnz
  obtain ⟨_, hget, hkept⟩ := fillEmpty_shape (drawsOf h_kokhav n Nbf G) Nbf
    (fillItems (drawsOf h_kokhav n Nbf G) h_kokhav M1 n)
  rw [emptyCells_eq_leftCells hs] at hget hkept
  constructor
  · intro b hb
    -- the last loop stores nothing
    unfold reRandomization at hb
    rw [(fillEmpty_grows _ _ _).2] at hb
    exact hnz.stored b hb
  · intro j hj
    by_cases hm : j ∈ leftCells h_kokhav n Nbf
    · obtain ⟨k, hk⟩ := List.mem_iff_getElem?.1 hm
      unfold reRandomization
      rw [hget k j hk, hs.drawn]
      apply drawsOf_get
      rw [List.getElem?_append_right (Nat.le_add_right _ _), Nat.add_sub_cancel_left, hk]
    · unfold reRandomization
      rw [hkept j hm]
      simp only [leftCells, List.mem_filter, List.mem_range, hj, true_and, decide_eq_true_eq] at hm
      push Not at hm
      obtain ⟨i, hi, hmem⟩ := hm
      exact hitems i hi j hmem

/-- With a fresh cell for each item, the arrays returned over all nonzero draws that leave no share
zero are the arrays of nonzero blocks with the exclusive or of every item. -/
theorem reRandomization_solutions (hin : ∀ i < n, ∀ j ∈ (h_kokhav i).elems, j < Nbf)
    (hfresh : ∀ i, i < n → ∃ c ∈ (h_kokhav i).elems, ∀ k, k < i → c ∉ (h_kokhav k).elems) (G : ℕ → Block) :
    (∃ draws : ℕ → Block, (∀ k, draws k ≠ 0) ∧ (∀ b ∈ (reRandomization draws h_kokhav n Nbf M1).stored, b ≠ 0) ∧
        ∀ j < Nbf, (reRandomization draws h_kokhav n Nbf M1).GBF j = G j) ↔
      (∀ j < Nbf, G j ≠ 0) ∧ ∀ i < n, ((h_kokhav i).elems.map G).sum = ((h_kokhav i).elems.map M1).sum := by
  constructor
  · rintro ⟨draws, hd, hst, hG⟩
    have hnz : (reRandomization draws h_kokhav n Nbf M1).NonZero draws := ⟨fun k _ => hd k, hst⟩
    constructor
    · intro j hj
      rw [← hG j hj]
      exact reRandomization_ne_zero hd hj
    · intro i hi
      rw [← reRandomization_sum hfresh hnz hi]
      exact sum_map_congr fun j hj => (hG j (hin i hi j hj)).symm
  · rintro ⟨hne, hsum⟩
    exact ⟨drawsOf h_kokhav n Nbf G, drawsOf_ne_zero hin hne, reRandomization_drawsOf hin hne hsum⟩

/-- Item `i` with the cells `i` and `i + 1`. -/
def neighbours (i : ℕ) : OrdSet ℕ := ⟨[i, i + 1], by simp⟩

theorem neighbours_lt : ∀ i < 2, ∀ j ∈ (neighbours i).elems, j < 4 := by decide

theorem neighbours_fresh : ∀ i, i < 2 → ∃ c ∈ (neighbours i).elems, ∀ k, k < i → c ∉ (neighbours k).elems := by
  intro i _
  exact ⟨i + 1, by simp [neighbours], fun k hk => by simp [neighbours]; omega⟩

/-- Two such items in a filter of four cells, with the exclusive ors 1 and 3: the blocks 4, 5, 6 and 7 can be returned. -/
theorem reRandomization_solutions_four : ∃ draws : ℕ → Block, (∀ k, draws k ≠ 0) ∧
    (∀ b ∈ (reRandomization draws neighbours 2 4 fun j => toBlock 0 j).stored, b ≠ 0) ∧
    ∀ j < 4, (reRandomization draws neighbours 2 4 fun j => toBlock 0 j).GBF j = toBlock 0 (4 + j) :=
  (reRandomization_solutions neighbours_lt neighbours_fresh fun j => toBlock 0 (4 + j)).2 ⟨by decide, by decide⟩

/-! ## When no item is lost -/

/-- The draws belong to a solution exactly when the array returned has every item's exclusive or and
no zero block was drawn or stored for an item. -/
theorem exists_solution_iff (draws : ℕ → Block) (h_kokhav : ℕ → OrdSet ℕ) (n Nbf : ℕ) (M1 : ℕ → Block) :
    (∃ G, Solution draws h_kokhav M1 n G) ↔
      (∀ i < n, ((h_kokhav i).elems.map (reRandomization draws h_kokhav n Nbf M1).GBF).sum =
          ((h_kokhav i).elems.map M1).sum) ∧
        (fillItems draws h_kokhav M1 n).NonZero draws := by
  constructor
  · rintro ⟨G, h⟩
    obtain ⟨hnz, hG⟩ := nonZero_of_solution h
    have hs := itemsShape_fillItems hnz
    refine ⟨fun i hi => ?_, hnz⟩
    rw [← getY_eq h_kokhav M1, ← h.sum i hi]
    exact sum_map_congr fun j hj => by rw [reRandomization_item hs hi hj, hG i hi j hj]
  · rintro ⟨hsum, hnz⟩
    have hs := itemsShape_fillItems hnz
    refine ⟨(reRandomization draws h_kokhav n Nbf M1).GBF, fun i hi j hj => ?_, fun i hi => ?_, fun k j hk => ?_⟩
    · rw [reRandomization_item hs hi hj]
      exact (hs.cells j).2 ⟨i, hi, hj⟩
    · rw [getY_eq]
      exact hsum i hi
    · obtain ⟨i, hi, hj⟩ := exists_item_of_mem_drawnCells (List.mem_of_getElem? hk)
      rw [reRandomization_item hs hi hj]
      exact (hs.get k j hk).symm

/-- The draws of a solution for two items that share a cell, and draws of none: the second item has no cell of its own. -/
theorem exists_solution_iff_four : (∃ G, Solution (fun _ => toBlock 0 8) neighbours (fun j => toBlock 0 j) 2 G) ∧
    ¬ ∃ G, Solution (fun _ => toBlock 0 1) (fun i => if i = 0 then ⟨[0, 1], by decide⟩ else ⟨[0], by decide⟩) (fun _ => 0) 2 G := by
  constructor
  · exact (exists_solution_iff _ _ _ 4 _).2 ⟨by decide, fun _ _ => by decide, by decide⟩
  · intro h
    exact absurd (((exists_solution_iff _ _ _ 2 _).1 h).1 1 (by decide)) (by decide)

/-- An item is lost when an earlier item has all its cells, and also when its share is the zero block. -/
theorem reRandomization_loses :
    (∃ (draws : ℕ → Block) (h : ℕ → OrdSet ℕ) (M1 : ℕ → Block), (∀ k, draws k ≠ 0) ∧
      ((h 1).elems.map (reRandomization draws h 2 2 M1).GBF).sum ≠ ((h 1).elems.map M1).sum) ∧
    ∃ (draws : ℕ → Block) (h : ℕ → OrdSet ℕ) (M1 : ℕ → Block), (∀ k, draws k ≠ 0) ∧
      ((h 0).elems.map (reRandomization draws h 1 1 M1).GBF).sum ≠ ((h 0).elems.map M1).sum := by
  have hone : toBlock 0 1 ≠ 0 := by decide
  constructor
  · exact ⟨fun _ => toBlock 0 1, fun i => if i = 0 then ⟨[0, 1], by decide⟩ else ⟨[0], by decide⟩, fun _ => 0,
      fun _ => hone, by decide⟩
  · exact ⟨fun _ => toBlock 0 1, fun _ => ⟨[0], by decide⟩, fun _ => 0, fun _ => hone, by decide⟩

end Items

end Mpsi
