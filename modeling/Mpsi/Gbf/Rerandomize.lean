/-
`re_randomization`: a Pi replaces its GBF by a random one with the same exclusive or over the cells of
each of its items. The cells are filled item by item; one cell that is still empty takes what makes
the exclusive or right.

`reRandomization_sum` gives the exclusive ors, when every item finds a cell that no earlier item has
and no block drawn or stored is zero: a zero block counts as an empty cell and is written again.
-/
import Mpsi.Data.Block
import Mpsi.Lib.OrdSet

namespace Mpsi

/-- The GBF, the number of blocks drawn so far, and the final shares stored so far. -/
structure Fill where
  GBF : ℕ → Block
  drawn : ℕ
  stored : List Block

/-- The loop over the cells of one item: `finalInd` is -1 before an empty cell was met (`none`). -/
structure CellFill where
  GBF : ℕ → Block
  drawn : ℕ
  finalInd : Option ℕ
  finalShare : Block

/-- One cell of an item. -/
def fillCell (draws : ℕ → Block) (c : CellFill) (j : ℕ) : CellFill :=
  if c.GBF j = toBlock 0 0 then
    match c.finalInd with
    | none => { c with finalInd := some j }
    | some _ =>
      { c with GBF := Function.update c.GBF j (draws c.drawn), drawn := c.drawn + 1, finalShare := c.finalShare ^^^ draws c.drawn }
  else
    { c with finalShare := c.finalShare ^^^ c.GBF j }

/-- The cells of an item. -/
def fillCells (draws : ℕ → Block) (st : Fill) (cells : List ℕ) (y : Block) : CellFill :=
  cells.foldl (fillCell draws) ⟨st.GBF, st.drawn, none, y⟩

/-- One item. Without an empty cell the source prints a line and goes on. -/
def fillItem (draws : ℕ → Block) (st : Fill) (cells : List ℕ) (y : Block) : Fill :=
  let c := fillCells draws st cells y
  match c.finalInd with
  | none => ⟨c.GBF, c.drawn, st.stored⟩
  | some j => ⟨Function.update c.GBF j c.finalShare, c.drawn, st.stored ++ [c.finalShare]⟩

/-- The cells that remain empty get a random block. -/
def fillEmpty (draws : ℕ → Block) (Nbf : ℕ) (st : Fill) : Fill :=
  (List.range Nbf).foldl (fun st i =>
    if st.GBF i = toBlock 0 0 then ⟨Function.update st.GBF i (draws st.drawn), st.drawn + 1, st.stored⟩ else st) st

/-- `functions::get_Y` for item `i`. -/
def getY (h_kokhav : ℕ → OrdSet ℕ) (M1 : ℕ → Block) (i : ℕ) : Block :=
  (h_kokhav i).elems.foldl (fun y j => y ^^^ M1 j) (toBlock 0 0)

/-- The loop over the items. -/
def fillItems (draws : ℕ → Block) (h_kokhav : ℕ → OrdSet ℕ) (M1 : ℕ → Block) (n : ℕ) : Fill :=
  (List.range n).foldl (fun st i => fillItem draws st (h_kokhav i).elems (getY h_kokhav M1 i)) ⟨fun _ => toBlock 0 0, 0, []⟩

/-- `functions::re_randomization` on `n` items. -/
def reRandomization (draws : ℕ → Block) (h_kokhav : ℕ → OrdSet ℕ) (n Nbf : ℕ) (M1 : ℕ → Block) : Fill :=
  fillEmpty draws Nbf (fillItems draws h_kokhav M1 n)

/-! ## One item -/

section Item

variable {draws : ℕ → Block} {st : Fill} {y : Block}

theorem foldl_add (f : ℕ → Block) : ∀ (l : List ℕ) (b : Block), l.foldl (fun y j => y ^^^ f j) b = b + (l.map f).sum
  | [], b => (add_zero b).symm
  | j :: l, b => by
    rw [List.foldl_cons, foldl_add f l, Block.xor_eq_add, List.map_cons, List.sum_cons, add_assoc]

theorem getY_eq (h_kokhav : ℕ → OrdSet ℕ) (M1 : ℕ → Block) (i : ℕ) :
    getY h_kokhav M1 i = ((h_kokhav i).elems.map M1).sum := by
  unfold getY
  rw [foldl_add, toBlock_zero, zero_add]

/-- What the loop over the cells has done after those of `cells`. -/
structure CellInv (draws : ℕ → Block) (st : Fill) (y : Block) (cells : List ℕ) (c : CellFill) : Prop where
  share : c.finalShare = y + (cells.map c.GBF).sum
  outside : ∀ j, j ∉ cells → c.GBF j = st.GBF j
  kept : ∀ j, st.GBF j ≠ 0 → c.GBF j = st.GBF j
  full : c.finalInd = none → ∀ j ∈ cells, st.GBF j ≠ 0
  final : ∀ f, c.finalInd = some f → f ∈ cells ∧ st.GBF f = 0 ∧ c.GBF f = 0
  filled : (∀ k, k < c.drawn → draws k ≠ 0) → ∀ j ∈ cells, c.finalInd ≠ some j → c.GBF j ≠ 0
  drawn : st.drawn ≤ c.drawn

theorem sum_map_congr {G G' : ℕ → Block} {l : List ℕ} (h : ∀ j ∈ l, G' j = G j) : (l.map G').sum = (l.map G).sum := by
  rw [List.map_congr_left h]

theorem cellInv_step {cells : List ℕ} {c : CellFill} (h : CellInv draws st y cells c) {j : ℕ} (hj : j ∉ cells) :
    CellInv draws st y (cells ++ [j]) (fillCell draws c j) := by
  have hG : c.GBF j = st.GBF j := h.outside j hj
  unfold fillCell
  rw [toBlock_zero]
  by_cases h0 : c.GBF j = 0
  · rw [if_pos h0]
    cases hf : c.finalInd with
    | none =>
      -- the first empty cell is kept for the share
      refine ⟨?_, fun i hi => h.outside i (by simp_all), h.kept, fun hn => by simp at hn, ?_, ?_, h.drawn⟩
      · simp [h.share, h0]
      · rintro f hf'
        cases hf'
        exact ⟨by simp, hG ▸ h0, h0⟩
      · intro hd i hi hne
        rcases List.mem_append.1 hi with hi | hi
        · exact h.filled hd i hi (by rw [hf]; simp)
        · rw [List.mem_singleton.1 hi] at hne; exact absurd rfl hne
    | some f =>
      -- another empty cell gets the next draw
      obtain ⟨hfm, hf0, hfG⟩ := h.final f hf
      have hfj : f ≠ j := by rintro rfl; exact hj hfm
      have hupd : ∀ i ∈ cells, Function.update c.GBF j (draws c.drawn) i = c.GBF i := fun i hi =>
        Function.update_of_ne (by rintro rfl; exact hj hi) _ _
      refine ⟨?_, fun i hi => ?_, fun i hi => ?_, fun hn => by simp at hn, ?_, ?_, ?_⟩
      · simp [h.share, sum_map_congr hupd, add_assoc]
      · have hij : i ≠ j := by rintro rfl; simp at hi
        simpa [hij] using h.outside i (by simp_all)
      · have hij : i ≠ j := by rintro rfl; exact hi (hG ▸ h0)
        simpa [hij] using h.kept i hi
      · rintro f' hf'
        cases hf'
        exact ⟨by simp [hfm], hf0, by simpa [hfj] using hfG⟩
      · intro hd i hi hne
        rcases List.mem_append.1 hi with hi | hi
        · change Function.update c.GBF j (draws c.drawn) i ≠ 0
          rw [hupd i hi]
          exact h.filled (fun k hk => hd k (Nat.lt_succ_of_lt hk)) i hi (by rw [hf]; exact hne)
        · rw [List.mem_singleton.1 hi]
          simpa using hd c.drawn (Nat.lt_succ_self _)
      · exact h.drawn.trans (Nat.le_succ _)
  · rw [if_neg h0]
    refine ⟨?_, fun i hi => h.outside i (by simp_all), h.kept, fun hn i hi => ?_, fun f hf => ?_, fun hd i hi hne => ?_, h.drawn⟩
    · simp [h.share, add_assoc]
    · rcases List.mem_append.1 hi with hi | hi
      · exact h.full hn i hi
      · rw [List.mem_singleton.1 hi, ← hG]; exact h0
    · obtain ⟨h1, h2, h3⟩ := h.final f hf
      exact ⟨by simp [h1], h2, h3⟩
    · rcases List.mem_append.1 hi with hi | hi
      · exact h.filled hd i hi hne
      · rw [List.mem_singleton.1 hi]; exact h0

theorem cellInv_fillCells (draws : ℕ → Block) (st : Fill) (y : Block) {cells : List ℕ} (hnd : cells.Nodup) :
    CellInv draws st y cells (fillCells draws st cells y) := by
  induction cells using List.reverseRecOn with
  | nil => exact ⟨by simp [fillCells], fun _ _ => rfl, fun _ _ => rfl, by simp, by simp [fillCells], by simp, le_rfl⟩
  | append_singleton l j ih =>
    unfold fillCells
    rw [List.foldl_append]
    have hl := List.nodup_append.1 hnd
    exact cellInv_step (ih hl.1) fun hj => hl.2.2 j hj j (by simp) rfl

/-- The exclusive or of the cells only enters the final share. -/
theorem fillCells_add (cells : List ℕ) (d : Block) : fillCells draws st cells (y + d) =
    { fillCells draws st cells y with finalShare := (fillCells draws st cells y).finalShare + d } := by
  induction cells using List.reverseRecOn with
  | nil => rfl
  | append_singleton l j ih =>
    simp only [fillCells, List.foldl_append, List.foldl_cons, List.foldl_nil] at ih ⊢
    rw [ih]
    generalize l.foldl (fillCell draws) ⟨st.GBF, st.drawn, none, y⟩ = c
    unfold fillCell
    dsimp only
    split
    · cases c.finalInd with
      | none => rfl
      | some f => simp only [Block.xor_eq_add, add_right_comm]
    · simp only [Block.xor_eq_add, add_right_comm]

/-- An item with an empty cell has its share in the first one. -/
theorem fillItem_some {cells : List ℕ} {f : ℕ} (hf : (fillCells draws st cells y).finalInd = some f) :
    fillItem draws st cells y =
      ⟨Function.update (fillCells draws st cells y).GBF f (fillCells draws st cells y).finalShare,
        (fillCells draws st cells y).drawn, st.stored ++ [(fillCells draws st cells y).finalShare]⟩ := by
  unfold fillItem
  simp only [hf]

/-- Its cells have the exclusive or then. -/
theorem fillItem_sum {cells : List ℕ} (hnd : cells.Nodup) {f : ℕ} (hf : (fillCells draws st cells y).finalInd = some f) :
    (cells.map (fillItem draws st cells y).GBF).sum = y := by
  have hinv := cellInv_fillCells draws st y hnd
  obtain ⟨hfm, _, hfG⟩ := hinv.final f hf
  -- the final cell was counted as zero in the share
  have hz : ∑ j ∈ cells.toFinset, (fillCells draws st cells y).GBF j = (fillCells draws st cells y).finalShare + y := by
    rw [hinv.share, List.sum_toFinset _ hnd, add_right_comm, Block.add_self_zero, zero_add]
  have hupd := XorGroup.sum_update_add (List.mem_toFinset.2 hfm)
    (fillCells draws st cells y).GBF (fillCells draws st cells y).finalShare
  rw [hfG, zero_add] at hupd
  rw [fillItem_some hf, ← List.sum_toFinset _ hnd, hupd, hz, add_right_comm, Block.add_self_zero, zero_add]

/-- A cell that is not empty stays. -/
theorem fillItem_kept (draws : ℕ → Block) (st : Fill) (y : Block) {cells : List ℕ} (hnd : cells.Nodup) {j : ℕ} (hj : st.GBF j ≠ 0) :
    (fillItem draws st cells y).GBF j = st.GBF j := by
  have h := cellInv_fillCells draws st y hnd
  unfold fillItem
  dsimp only
  split
  · exact h.kept j hj
  · rename_i f hf
    have hjf : j ≠ f := by rintro rfl; exact hj (h.final j hf).2.1
    simpa [hjf] using h.kept j hj

theorem fillItem_drawn {cells : List ℕ} (hnd : cells.Nodup) : st.drawn ≤ (fillItem draws st cells y).drawn := by
  have h := cellInv_fillCells draws st y hnd
  unfold fillItem
  dsimp only
  split <;> exact h.drawn

theorem fillItem_stored (cells : List ℕ) : st.stored <+: (fillItem draws st cells y).stored := by
  unfold fillItem
  dsimp only
  split
  · exact List.prefix_rfl
  · exact List.prefix_append _ _

end Item

/-! ## All items -/

/-- No block drawn or stored so far is zero. -/
structure Fill.NonZero (draws : ℕ → Block) (st : Fill) : Prop where
  drawn : ∀ k, k < st.drawn → draws k ≠ 0
  stored : ∀ b ∈ st.stored, b ≠ 0

theorem Fill.NonZero.mono {draws : ℕ → Block} {st st' : Fill} (h : st'.NonZero draws) (hd : st.drawn ≤ st'.drawn)
    (hs : st.stored <+: st'.stored) : st.NonZero draws :=
  ⟨fun k hk => h.drawn k (hk.trans_le hd), fun b hb => h.stored b (hs.subset hb)⟩

section Items

variable {draws : ℕ → Block} {h_kokhav : ℕ → OrdSet ℕ} {M1 : ℕ → Block} {n Nbf : ℕ}

theorem fillItems_succ : fillItems draws h_kokhav M1 (n + 1) =
    fillItem draws (fillItems draws h_kokhav M1 n) (h_kokhav n).elems (getY h_kokhav M1 n) := by
  rw [fillItems, List.range_succ, List.foldl_append]; rfl

theorem exists_item_succ {j : ℕ} : (∃ i, i < n + 1 ∧ j ∈ (h_kokhav i).elems) ↔
    (∃ i, i < n ∧ j ∈ (h_kokhav i).elems) ∨ j ∈ (h_kokhav n).elems := by
  constructor
  · rintro ⟨i, hi, hm⟩
    rcases Nat.lt_succ_iff_lt_or_eq.1 hi with hi | rfl
    · exact Or.inl ⟨i, hi, hm⟩
    · exact Or.inr hm
  · rintro (⟨i, hi, hm⟩ | hm)
    · exact ⟨i, by omega, hm⟩
    · exact ⟨n, by omega, hm⟩

/-- The cells filled are those of the items so far, and each item has its exclusive or. -/
theorem fillItems_inv (hfresh : ∀ i, i < n → ∃ c ∈ (h_kokhav i).elems, ∀ k, k < i → c ∉ (h_kokhav k).elems)
    (hnz : (fillItems draws h_kokhav M1 n).NonZero draws) :
    (∀ j, (fillItems draws h_kokhav M1 n).GBF j ≠ 0 ↔ ∃ i, i < n ∧ j ∈ (h_kokhav i).elems) ∧
      ∀ i, i < n → ((h_kokhav i).elems.map (fillItems draws h_kokhav M1 n).GBF).sum = getY h_kokhav M1 i := by
  induction n with
  | zero => simp [fillItems]
  | succ n ih =>
    have hnd := (h_kokhav n).nodup
    rw [fillItems_succ] at hnz ⊢
    obtain ⟨hcells, hsums⟩ := ih (fun i hi => hfresh i (by omega)) (hnz.mono (fillItem_drawn hnd) (fillItem_stored _))
    set st := fillItems draws h_kokhav M1 n
    set y := getY h_kokhav M1 n
    have hinv := cellInv_fillCells draws st y hnd
    have hkept := fun j => fillItem_kept draws st y hnd (j := j)
    -- the fresh cell is empty, so the item has its final cell
    obtain ⟨f, hf⟩ : ∃ f, (fillCells draws st (h_kokhav n).elems y).finalInd = some f := by
      obtain ⟨c, hc, hcfresh⟩ := hfresh n (by omega)
      apply Option.ne_none_iff_exists'.1
      intro hn
      obtain ⟨i, hi, hm⟩ := (hcells c).1 (hinv.full hn c hc)
      exact hcfresh i hi hm
    obtain ⟨hfm, hf0, hfG⟩ := hinv.final f hf
    have hitem := fillItem_some hf
    have hshare : (fillCells draws st (h_kokhav n).elems y).finalShare ≠ 0 := hnz.stored _ (by rw [hitem]; simp)
    have hdrawn : ∀ k, k < (fillCells draws st (h_kokhav n).elems y).drawn → draws k ≠ 0 := by
      have := hnz.drawn
      rwa [hitem] at this
    constructor
    · intro j
      rw [exists_item_succ, ← hcells]
      by_cases hst : st.GBF j ≠ 0
      · simp [hkept j hst, hst]
      · by_cases hm : j ∈ (h_kokhav n).elems
        · simp only [hm, or_true, iff_true]
          rw [hitem]
          by_cases hjf : j = f
          · subst hjf; simpa using hshare
          · simpa [hjf] using hinv.filled hdrawn j hm (by rw [hf]; simpa using Ne.symm hjf)
        · simp only [hst, hm, or_self, iff_false, not_not]
          rw [hitem]
          have hjf : j ≠ f := by rintro rfl; exact hm hfm
          simpa [hjf, hinv.outside j hm] using not_not.1 hst
    · intro i hi
      rcases Nat.lt_succ_iff_lt_or_eq.1 hi with hi | rfl
      · rw [← hsums i hi]
        exact sum_map_congr fun j hj => hkept j ((hcells j).2 ⟨i, hi, hj⟩)
      · exact fillItem_sum hnd hf

/-- What the last loop does to the cells. -/
theorem fillEmpty_kept {st : Fill} {j : ℕ} (hj : st.GBF j ≠ 0) : (fillEmpty draws Nbf st).GBF j = st.GBF j := by
  unfold fillEmpty
  induction Nbf with
  | zero => rfl
  | succ N ih =>
    rw [List.range_succ, List.foldl_append, List.foldl_cons, List.foldl_nil]
    split
    · rename_i h0
      have hjN : j ≠ N := by rintro rfl; rw [ih] at h0; exact hj h0
      simpa [hjN] using ih
    · exact ih

theorem fillEmpty_grows (draws : ℕ → Block) (Nbf : ℕ) (st : Fill) :
    st.drawn ≤ (fillEmpty draws Nbf st).drawn ∧ (fillEmpty draws Nbf st).stored = st.stored := by
  unfold fillEmpty
  induction Nbf with
  | zero => exact ⟨le_rfl, rfl⟩
  | succ N ih =>
    rw [List.range_succ, List.foldl_append, List.foldl_cons, List.foldl_nil]
    split
    · exact ⟨ih.1.trans (Nat.le_succ _), ih.2⟩
    · exact ih

/-- Only the exclusive ors of the items enter. -/
theorem reRandomization_congr {M1' : ℕ → Block} (h : ∀ i, i < n → getY h_kokhav M1 i = getY h_kokhav M1' i) :
    reRandomization draws h_kokhav n Nbf M1 = reRandomization draws h_kokhav n Nbf M1' := by
  unfold reRandomization
  apply congrArg _
  induction n with
  | zero => rfl
  | succ n ih => rw [fillItems_succ, fillItems_succ, ih fun i hi => h i (by omega), h n (Nat.lt_succ_self n)]

/-- The exclusive or of the first item can be read off one of its cells. -/
theorem exists_first_cell (draws : ℕ → Block) (Nbf : ℕ) {h : ℕ → OrdSet ℕ} (hn : 0 < n) (hne : (h 0).elems ≠ []) :
    ∃ f ∈ (h 0).elems, ∃ z, ∀ M1 : ℕ → Block,
      getY h M1 0 + z ≠ 0 → (reRandomization draws h n Nbf M1).GBF f = getY h M1 0 + z := by
  have hnd := (h 0).nodup
  have hinv := cellInv_fillCells draws ⟨fun _ => toBlock 0 0, 0, []⟩ 0 hnd
  obtain ⟨f, hf⟩ : ∃ f, (fillCells draws ⟨fun _ => toBlock 0 0, 0, []⟩ (h 0).elems 0).finalInd = some f := by
    apply Option.ne_none_iff_exists'.1
    intro hnone
    obtain ⟨c, hc⟩ := List.exists_mem_of_ne_nil _ hne
    exact hinv.full hnone c hc toBlock_zero
  refine ⟨f, (hinv.final f hf).1, (fillCells draws ⟨fun _ => toBlock 0 0, 0, []⟩ (h 0).elems 0).finalShare, fun M1 hz => ?_⟩
  -- the share of the item is the one of an item with exclusive or zero, and its own exclusive or
  have hcells : fillCells draws ⟨fun _ => toBlock 0 0, 0, []⟩ (h 0).elems (0 + getY h M1 0) = _ := fillCells_add _ _
  rw [zero_add] at hcells
  have hitems : ∀ k, k + 1 ≤ n → (fillItems draws h M1 (k + 1)).GBF f = getY h M1 0 +
      (fillCells draws ⟨fun _ => toBlock 0 0, 0, []⟩ (h 0).elems 0).finalShare := by
    intro k hk
    induction k with
    | zero =>
      rw [fillItems_succ]
      change (fillItem draws ⟨fun _ => toBlock 0 0, 0, []⟩ (h 0).elems (getY h M1 0)).GBF f = _
      unfold fillItem
      rw [hcells]
      simp only [hf, Function.update_self]
      exact add_comm _ _
    | succ k ih =>
      have hk' := ih (by omega)
      rw [fillItems_succ, fillItem_kept _ _ _ (h (k + 1)).nodup (by rw [hk']; exact hz), hk']
  obtain ⟨k, rfl⟩ : ∃ k, n = k + 1 := ⟨n - 1, by omega⟩
  have hk := hitems k le_rfl
  unfold reRandomization
  rw [fillEmpty_kept (by rw [hk]; exact hz), hk]

/-- The returned GBF has the exclusive or of the old one over the cells of every item. -/
theorem reRandomization_sum (hfresh : ∀ i, i < n → ∃ c ∈ (h_kokhav i).elems, ∀ k, k < i → c ∉ (h_kokhav k).elems)
    (hnz : (reRandomization draws h_kokhav n Nbf M1).NonZero draws) {i : ℕ} (hi : i < n) :
    ((h_kokhav i).elems.map (reRandomization draws h_kokhav n Nbf M1).GBF).sum = ((h_kokhav i).elems.map M1).sum := by
  obtain ⟨hd, hs⟩ := fillEmpty_grows draws Nbf (fillItems draws h_kokhav M1 n)
  obtain ⟨hcells, hsums⟩ := fillItems_inv hfresh (hnz.mono hd (by rw [reRandomization, hs]))
  rw [← getY_eq h_kokhav M1, ← hsums i hi]
  exact sum_map_congr fun j hj => fillEmpty_kept ((hcells j).2 ⟨i, hi, hj⟩)

end Items

end Mpsi
