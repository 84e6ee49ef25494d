/-
How the array of `re_randomization` is distributed. Without a zero block a run draws one block for each cell
but one of each item's (`drawn_of_nonZero`), and the blocks drawn can be read off the array: over these runs
the array is a bijective function of the draws, onto all arrays of nonzero blocks with the exclusive or of
every item (`reRandomization_bijOn`). So uniform draws give each of these arrays with the same chance, and
the array tells no more of the GBF it comes from than these exclusive ors.

`re_randomization_zero` does the same with zero for each item (`reRandomizationZero_eq`).
-/
import Mpsi.Data.Fault
import Mpsi.Gbf.Solutions

namespace Mpsi

section Uniform

variable {draws : ℕ → Block} {h_kokhav : ℕ → OrdSet ℕ} {M1 : ℕ → Block} {n Nbf : ℕ}

/-! ## The number of draws -/

theorem mem_leftCells {j : ℕ} : j ∈ leftCells h_kokhav n Nbf ↔ j < Nbf ∧ ∀ i < n, j ∉ (h_kokhav i).elems := by
  simp [leftCells]

/-- An item takes its fresh cells from those that were left. -/
theorem length_leftCells_succ (hin : ∀ j ∈ (h_kokhav n).elems, j < Nbf) : (leftCells h_kokhav n Nbf).length =
    (leftCells h_kokhav (n + 1) Nbf).length + (freshCells h_kokhav n).length := by
  rw [← List.length_append]
  refine ((List.perm_ext_iff_of_nodup (List.nodup_range.filter _) (List.nodup_append.2
    ⟨List.nodup_range.filter _, (h_kokhav n).nodup.filter _, fun a ha b hb hab => ?_⟩)).2 fun j => ?_).length_eq
  · subst hab
    exact (mem_leftCells.1 ha).2 n (Nat.lt_succ_self n) (mem_freshCells.1 hb).1
  · change j ∈ leftCells h_kokhav n Nbf ↔ j ∈ leftCells h_kokhav (n + 1) Nbf ++ freshCells h_kokhav n
    rw [List.mem_append, mem_leftCells, mem_leftCells, mem_freshCells]
    constructor
    · rintro ⟨hj, hno⟩
      by_cases hm : j ∈ (h_kokhav n).elems
      · exact Or.inr ⟨hm, hno⟩
      · refine Or.inl ⟨hj, fun i hi => ?_⟩
        rcases Nat.lt_succ_iff_lt_or_eq.1 hi with hi | rfl
        · exact hno i hi
        · exact hm
    · rintro (⟨hj, hno⟩ | ⟨hm, hno⟩)
      · exact ⟨hj, fun i hi => hno i (by omega)⟩
      · exact ⟨hin j hm, hno⟩

/-- Every cell is drawn for, or left to the last loop, or the first fresh one of an item. -/
theorem length_cells (hin : ∀ i < n, ∀ j ∈ (h_kokhav i).elems, j < Nbf)
    (hfresh : ∀ i, i < n → ∃ c ∈ (h_kokhav i).elems, ∀ k, k < i → c ∉ (h_kokhav k).elems) :
    (drawnCells h_kokhav n ++ leftCells h_kokhav n Nbf).length = Nbf - n ∧ n ≤ Nbf := by
  suffices h : (drawnCells h_kokhav n).length + (leftCells h_kokhav n Nbf).length + n = Nbf by
    rw [List.length_append]
    omega
  induction n with
  | zero => simp [drawnCells, leftCells]
  | succ n ih =>
    have hprev := ih (fun i hi => hin i (by omega)) fun i hi => hfresh i (by omega)
    have hleft := length_leftCells_succ (hin n (Nat.lt_succ_self n))
    -- the fresh cell of the hypothesis
    obtain ⟨c, hc, hno⟩ := hfresh n (Nat.lt_succ_self n)
    have hpos : 0 < (freshCells h_kokhav n).length := List.length_pos_of_mem (mem_freshCells.2 ⟨hc, hno⟩)
    rw [drawnCells_succ, List.length_append, List.length_tail]
    omega

/-- The cells of a run in the order of its draws. -/
theorem shape_of_nonZero (hnz : (reRandomization draws h_kokhav n Nbf M1).NonZero draws) :
    (reRandomization draws h_kokhav n Nbf M1).drawn = (drawnCells h_kokhav n ++ leftCells h_kokhav n Nbf).length ∧
      ∀ k j : ℕ, (drawnCells h_kokhav n ++ leftCells h_kokhav n Nbf)[k]? = some j →
        (reRandomization draws h_kokhav n Nbf M1).GBF j = draws k := by
  have hgrows := fillEmpty_grows draws Nbf (fillItems draws h_kokhav M1 n)
  have hs : ItemsShape draws h_kokhav n (fillItems draws h_kokhav M1 n) :=
    itemsShape_fillItems (hnz.mono hgrows.1 (by rw [reRandomization, hgrows.2]))
  obtain ⟨hdrawn, hget, _⟩ := fillEmpty_shape draws Nbf (fillItems draws h_kokhav M1 n)
  rw [emptyCells_eq_leftCells hs] at hdrawn hget
  refine ⟨by rw [reRandomization, hdrawn, hs.drawn, List.length_append], fun k j hk => ?_⟩
  by_cases hlt : k < (drawnCells h_kokhav n).length
  · rw [List.getElem?_append_left hlt] at hk
    obtain ⟨i, hi, hj⟩ := exists_item_of_mem_drawnCells (List.mem_of_getElem? hk)
    rw [reRandomization_item hs hi hj]
    exact hs.get k j hk
  · rw [List.getElem?_append_right (not_lt.1 hlt)] at hk
    rw [reRandomization, hget _ j hk, hs.drawn, Nat.add_sub_cancel' (not_lt.1 hlt)]

/-! ## The distribution -/

/-- Finitely many blocks as the values of a generator, or as an array. -/
def blocksOf {m : ℕ} (d : Block) (v : Fin m → Block) (k : ℕ) : Block := if h : k < m then v ⟨k, h⟩ else d

theorem blocksOf_lt {m : ℕ} {d : Block} {v : Fin m → Block} {k : ℕ} (h : k < m) : blocksOf d v k = v ⟨k, h⟩ := dif_pos h

/-- Draws without a zero block that leave no share zero. -/
def goodDraws (h_kokhav : ℕ → OrdSet ℕ) (n Nbf : ℕ) (M1 : ℕ → Block) : Set (Fin (Nbf - n) → Block) :=
  {v | (∀ k, v k ≠ 0) ∧ ∀ b ∈ (reRandomization (blocksOf (toBlock 0 1) v) h_kokhav n Nbf M1).stored, b ≠ 0}

/-- Arrays of nonzero blocks with the exclusive or of every item. -/
def codewords (h_kokhav : ℕ → OrdSet ℕ) (n Nbf : ℕ) (M1 : ℕ → Block) : Set (Fin Nbf → Block) :=
  {G | (∀ c, G c ≠ 0) ∧ ∀ i < n, ((h_kokhav i).elems.map (blocksOf 0 G)).sum = ((h_kokhav i).elems.map M1).sum}

theorem blocksOf_ne_zero {m : ℕ} {v : Fin m → Block} (h : ∀ k, v k ≠ 0) (k : ℕ) : blocksOf (toBlock 0 1) v k ≠ 0 := by
  unfold blocksOf
  split
  · exact h _
  · decide

theorem lt_of_mem_cells (hin : ∀ i < n, ∀ j ∈ (h_kokhav i).elems, j < Nbf) {j : ℕ}
    (h : j ∈ drawnCells h_kokhav n ++ leftCells h_kokhav n Nbf) : j < Nbf := by
  rcases List.mem_append.1 h with h | h
  · obtain ⟨i, hi, hj⟩ := exists_item_of_mem_drawnCells h
    exact hin i hi j hj
  · exact (mem_leftCells.1 h).1

theorem blocksOf_drawsOf {G : ℕ → Block} {m : ℕ} (h : (drawnCells h_kokhav n ++ leftCells h_kokhav n Nbf).length = m) :
    blocksOf (toBlock 0 1) (fun k : Fin m => drawsOf h_kokhav n Nbf G k) = drawsOf h_kokhav n Nbf G := by
  funext k
  unfold blocksOf
  split
  · rfl
  · unfold drawsOf
    rw [List.getD_eq_getElem?_getD, List.getElem?_eq_none (by rw [List.length_map]; omega)]
    rfl

theorem nonZero_of_good {v : Fin (Nbf - n) → Block} (h : v ∈ goodDraws h_kokhav n Nbf M1) :
    (reRandomization (blocksOf (toBlock 0 1) v) h_kokhav n Nbf M1).NonZero (blocksOf (toBlock 0 1) v) :=
  ⟨fun k _ => blocksOf_ne_zero h.1 k, h.2⟩

/-- A run without a zero block returns a codeword. -/
theorem codeword_of_nonZero (hfresh : ∀ i, i < n → ∃ c ∈ (h_kokhav i).elems, ∀ k, k < i → c ∉ (h_kokhav k).elems)
    (hd : ∀ k, draws k ≠ 0) (hst : ∀ b ∈ (reRandomization draws h_kokhav n Nbf M1).stored, b ≠ 0) :
    (∀ j < Nbf, (reRandomization draws h_kokhav n Nbf M1).GBF j ≠ 0) ∧ ∀ i < n,
      ((h_kokhav i).elems.map (reRandomization draws h_kokhav n Nbf M1).GBF).sum = ((h_kokhav i).elems.map M1).sum :=
  ⟨fun _ hj => reRandomization_ne_zero hd hj, fun _ hi => reRandomization_sum hfresh ⟨fun k _ => hd k, hst⟩ hi⟩

/-- With a fresh cell for each item: a run without a zero block draws `Nbf - n` blocks, and over these runs
the array is a bijective function of the blocks drawn. -/
theorem reRandomization_bijOn (M1 : ℕ → Block) (hin : ∀ i < n, ∀ j ∈ (h_kokhav i).elems, j < Nbf)
    (hfresh : ∀ i, i < n → ∃ c ∈ (h_kokhav i).elems, ∀ k, k < i → c ∉ (h_kokhav k).elems) :
    (∀ draws : ℕ → Block, (reRandomization draws h_kokhav n Nbf M1).NonZero draws →
        (reRandomization draws h_kokhav n Nbf M1).drawn = Nbf - n) ∧
      Set.BijOn (fun v (c : Fin Nbf) => (reRandomization (blocksOf (toBlock 0 1) v) h_kokhav n Nbf M1).GBF c)
        (goodDraws h_kokhav n Nbf M1) (codewords h_kokhav n Nbf M1) := by
  have hlen := (length_cells hin hfresh).1
  refine ⟨fun draws hnz => by rw [(shape_of_nonZero hnz).1, hlen], fun v hv => ?_, fun v hv w hw hvw => ?_, fun G hG => ?_⟩
  · obtain ⟨hne, hsum⟩ := codeword_of_nonZero hfresh (blocksOf_ne_zero hv.1) hv.2
    refine ⟨fun c => hne c c.2, fun i hi => ?_⟩
    rw [← hsum i hi]
    exact sum_map_congr fun j hj => blocksOf_lt (hin i hi j hj)
  · -- the draws can be read off the array
    funext k
    have hk : (k : ℕ) < (drawnCells h_kokhav n ++ leftCells h_kokhav n Nbf).length := by rw [hlen]; exact k.2
    have hget := List.getElem?_eq_getElem hk
    have h1 := (shape_of_nonZero (nonZero_of_good hv)).2 k _ hget
    have h2 := (shape_of_nonZero (nonZero_of_good hw)).2 k _ hget
    rw [blocksOf_lt k.2] at h1 h2
    rw [← h1, ← h2]
    exact congrFun hvw ⟨_, lt_of_mem_cells hin (List.getElem_mem hk)⟩
  · have hne : ∀ j < Nbf, blocksOf 0 G j ≠ 0 := fun j hj => by rw [blocksOf_lt hj]; exact hG.1 _
    obtain ⟨hst, hGBF⟩ := reRandomization_drawsOf hin hne hG.2
    rw [← blocksOf_drawsOf hlen] at hst hGBF
    refine ⟨_, ⟨fun k => drawsOf_ne_zero hin hne k, hst⟩, ?_⟩
    funext c
    exact (hGBF c c.2).trans (blocksOf_lt c.2)

/-- Two items with a common cell in a filter of four cells. -/
theorem reRandomization_bijOn_four :
    (reRandomization (fun _ => toBlock 0 2) neighbours 2 4 fun j => toBlock 0 j).drawn = 2 ∧
      Set.BijOn (fun v (c : Fin 4) => (reRandomization (blocksOf (toBlock 0 1) v) neighbours 2 4 fun j => toBlock 0 j).GBF c)
        (goodDraws neighbours 2 4 fun j => toBlock 0 j) (codewords neighbours 2 4 fun j => toBlock 0 j) := by
  obtain ⟨hdrawn, hbij⟩ := reRandomization_bijOn (fun j => toBlock 0 j) neighbours_lt neighbours_fresh
  exact ⟨hdrawn _ ⟨fun _ _ => by decide, by decide⟩, hbij⟩

/-! ## Codewords of zero -/

/-- The loop of `re_randomization_zero` over the items, with its array `Y`. -/
def fillItemsZero (draws : ℕ → Block) (h_kokhav : ℕ → OrdSet ℕ) (Y : List Block) (n : ℕ) : Except Fault Fill :=
  (List.range n).foldlM (fun st (i : ℕ) => do
    let y ← readAt none Y i
    pure (fillItem draws st (h_kokhav i).elems y)) ⟨fun _ => toBlock 0 0, 0, []⟩

/-- `functions::re_randomization_zero` on `n` of the items. -/
def reRandomizationZero (draws : ℕ → Block) (h_kokhav : ℕ → OrdSet ℕ) (items : List ℤ) (n Nbf : ℕ) : Except Fault Fill := do
  let st ← fillItemsZero draws h_kokhav (List.replicate items.length (toBlock 0 0)) n
  pure (fillEmpty draws Nbf st)

theorem fillItemsZero_succ {Y : List Block} : fillItemsZero draws h_kokhav Y (n + 1) =
    fillItemsZero draws h_kokhav Y n >>= fun st => readAt none Y n >>= fun y => .ok (fillItem draws st (h_kokhav n).elems y) := by
  unfold fillItemsZero
  rw [List.range_succ, List.foldlM_append]
  apply congrArg _
  funext st
  exact bind_pure _

theorem fillItemsZero_eq {m : ℕ} (hn : n ≤ m) :
    fillItemsZero draws h_kokhav (List.replicate m (toBlock 0 0)) n = .ok (fillItems draws h_kokhav (fun _ => 0) n) := by
  induction n with
  | zero => rfl
  | succ n ih =>
    have hY : getY h_kokhav (fun _ => 0) n = toBlock 0 0 := by
      rw [getY_eq, List.map_const', List.sum_replicate, smul_zero, toBlock_zero]
    rw [fillItemsZero_succ, ih (by omega), ok_bind, readAt_nat n (by simpa using hn), ok_bind, List.getElem_replicate,
      fillItems_succ, hY]

/-- More items than the vector holds take the loop out of `Y`. -/
theorem fillItemsZero_outside {m : ℕ} (hn : m < n) :
    fillItemsZero draws h_kokhav (List.replicate m (toBlock 0 0)) n = .error .outOfRange := by
  induction n with
  | zero => omega
  | succ n ih =>
    rw [fillItemsZero_succ]
    rcases Nat.lt_succ_iff_lt_or_eq.1 hn with hn | rfl
    · rw [ih hn]
      rfl
    · rw [fillItemsZero_eq le_rfl, ok_bind, readAt_none_outside (by simp)]
      rfl

theorem reRandomizationZero_eq (items : List ℤ) : reRandomizationZero draws h_kokhav items n Nbf =
    if n ≤ items.length then .ok (reRandomization draws h_kokhav n Nbf fun _ => 0) else .error .outOfRange := by
  unfold reRandomizationZero
  split
  · rename_i hn
    rw [fillItemsZero_eq hn]
    rfl
  · rename_i hn
    rw [fillItemsZero_outside (not_le.1 hn)]
    rfl

/-- The arrays `re_randomization_zero` can return without a zero block: those in which the cells of every item cancel.
It returns when there are enough items in the vector. -/
theorem reRandomizationZero_solutions (items : List ℤ) (hin : ∀ i < n, ∀ j ∈ (h_kokhav i).elems, j < Nbf)
    (hfresh : ∀ i, i < n → ∃ c ∈ (h_kokhav i).elems, ∀ k, k < i → c ∉ (h_kokhav k).elems) (G : ℕ → Block) :
    (∃ (draws : ℕ → Block) (st : Fill), reRandomizationZero draws h_kokhav items n Nbf = .ok st ∧ (∀ k, draws k ≠ 0) ∧
        (∀ b ∈ st.stored, b ≠ 0) ∧ ∀ j < Nbf, st.GBF j = G j) ↔
      n ≤ items.length ∧ (∀ j < Nbf, G j ≠ 0) ∧ ∀ i < n, ((h_kokhav i).elems.map G).sum = 0 := by
  have hzero : ∀ i < n, ((h_kokhav i).elems.map fun _ => (0 : Block)).sum = 0 := fun i _ => by
    rw [List.map_const', List.sum_replicate, smul_zero]
  constructor
  · rintro ⟨draws, st, hst, hd, hs, hG⟩
    rw [reRandomizationZero_eq] at hst
    split at hst
    · rename_i hn
      cases hst
      obtain ⟨hne, hsum⟩ := codeword_of_nonZero hfresh hd hs
      refine ⟨hn, fun j hj => hG j hj ▸ hne j hj, fun i hi => ?_⟩
      rw [← hzero i hi, ← hsum i hi]
      exact sum_map_congr fun j hj => (hG j (hin i hi j hj)).symm
    · cases hst
  · rintro ⟨hn, hne, hsum⟩
    obtain ⟨hs, hG⟩ := reRandomization_drawsOf hin hne fun i hi => (hsum i hi).trans (hzero i hi).symm
    exact ⟨_, _, by rw [reRandomizationZero_eq, if_pos hn], drawsOf_ne_zero hin hne, hs, hG⟩

/-- The same items: four equal blocks can be returned. -/
theorem reRandomizationZero_solutions_four : ∃ (draws : ℕ → Block) (st : Fill),
    reRandomizationZero draws neighbours [7, 9] 2 4 = .ok st ∧ (∀ k, draws k ≠ 0) ∧ (∀ b ∈ st.stored, b ≠ 0) ∧
      ∀ j < 4, st.GBF j = toBlock 0 5 :=
  (reRandomizationZero_solutions [7, 9] neighbours_lt neighbours_fresh fun _ => toBlock 0 5).2
    ⟨by decide, fun _ _ => by decide, by decide⟩

end Uniform

end Mpsi
