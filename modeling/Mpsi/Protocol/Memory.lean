/-
The memory under the array of `synchGBF`. From three parties on it is overwritten with the shares of
zero; two parties add to what lies there, and both the filter P1 sends and P0's output depend on it
(`memory_independent_iff`).
-/
import Mpsi.Protocol.Variation

namespace Mpsi

open Thread Stream Finset

variable {κ : Type} [DecidableEq κ] {e : Env κ} {D : Outcome e} {M : ℕ → ℕ → Block}

/-- The same parties with other memory. -/
abbrev Env.withMemory (e : Env κ) (M : ℕ → ℕ → Block) : Env κ := e.over e.strings e.strings_length M

abbrev Outcome.withMemory (D : Outcome e) (M : ℕ → ℕ → Block) : Outcome (e.withMemory M) := D.over e.strings e.strings_length M

/-- The filters the Pi send and what P0 prints are the same in all runs of these parties, whatever lies
in their memory. -/
def MemoryIndependent (e : Env κ) : Prop :=
  ∀ (M M' : ℕ → ℕ → Block) (s s' : State κ e.Not), HonestReaches (e.withMemory M) s → Complete s →
    HonestReaches (e.withMemory M') s' → Complete s' →
    (∀ p, 0 < p → p < e.parties → s.sent ((senderChan p 0).sock e.parties) = s'.sent ((senderChan p 0).sock e.parties)) ∧
      ∀ m m' G G' out out', s.proc 0 = .done m G out → s'.proc 0 = .done m' G' out' → out = out'

/-! ## What changes with the memory -/

theorem Outcome.Honest.withMemory (hD : D.Honest) (M : ℕ → ℕ → Block) : (D.withMemory M).Honest :=
  hD.over ⟨fun _ _ _ _ _ _ => rfl, fun _ _ => rfl⟩

/-- The strings add the same. -/
theorem Outcome.Honest.shared_withMemory (hD : D.Honest) {p c : ℕ} (hp : p < e.parties) (hc : c < e.Nbf) :
    ((D.withMemory M).merged p).shared c = ((D.withMemory M).merged p).GBF c + D.added p c :=
  (hD.withMemory M).shared_eq hp hc

/-- Memory with `d` added to one cell of a player. -/
def bump (p c : ℕ) (d : Block) (M : ℕ → ℕ → Block) : ℕ → ℕ → Block :=
  Function.update M p (Function.update (M p) c (M p c + d))

/-- With two parties, what is added to the memory is added to the GBF. -/
theorem Outcome.Honest.shared_bump (hD : D.Honest) (hn : e.parties = 2) {p q c c' : ℕ} {d : Block} (hq : q < e.parties)
    (hc' : c' < e.Nbf) : ((D.withMemory (bump p c d M)).merged q).shared c' =
      ((D.withMemory M).merged q).shared c' + if q = p ∧ c' = c then d else 0 := by
  have hG : ∀ M', ((D.withMemory M').merged q).GBF = M' q := fun M' => if_neg (by omega)
  rw [hD.shared_withMemory hq hc', hD.shared_withMemory hq hc', hG, hG, bump]
  by_cases hqp : q = p
  · subst hqp
    by_cases hcc : c' = c
    · subst hcc
      simp only [Function.update_self, and_self, if_true, add_right_comm]
    · simp only [Function.update_self, Function.update_of_ne hcc, hcc, and_false, if_false, add_zero]
  · simp only [Function.update_of_ne hqp, hqp, false_and, if_false, add_zero]

theorem Outcome.Honest.sum_bump (hD : D.Honest) (hn : e.parties = 2) {p c : ℕ} {d : Block} (hp : p < e.parties) {x : ℤ}
    (hx : x ∈ e.items p) (hc : c ∈ (cells e x).elems) :
    ∑ c' ∈ (cells e x).elems.toFinset, ((D.withMemory (bump p c d M)).merged p).shared c' =
      ∑ c' ∈ (cells e x).elems.toFinset, ((D.withMemory M).merged p).shared c' + d := by
  have hlt : ∀ c' ∈ (cells e x).elems.toFinset, c' < e.Nbf := fun c' hc' => (hD.cell_set hp hx (List.mem_toFinset.1 hc')).1
  rw [sum_congr rfl fun c' hc' => hD.shared_bump hn hp (hlt c' hc'), sum_add_distrib]
  simp only [true_and]
  rw [sum_ite_eq', if_pos (List.mem_toFinset.2 hc)]

omit [DecidableEq κ] in
/-- An item has a cell, when there is a hash. -/
theorem exists_cell (hs : e.seeds_num ≠ 0) (x : ℤ) : ∃ c, c ∈ (cells e x).elems := by
  have hne : hashes e.aes (∑ q ∈ range e.parties, e.seed q) e.Nbf e.seeds_num x ≠ [] := hashes_ne_nil (Nat.pos_of_ne_zero hs)
  obtain ⟨c, hc⟩ := List.exists_mem_of_ne_nil _ hne
  exact ⟨c, mem_hStar.2 hc⟩

/-! ## What does not -/

/-- The exclusive ors over the items of a party, when its array was overwritten, or it has nothing to hash. -/
theorem Outcome.Honest.sum_shared_eq (hD : D.Honest) {p : ℕ} (hp : p < e.parties)
    (h : 3 ≤ e.parties ∨ e.seeds_num = 0 ∨ ∀ q, q < e.parties → e.items q = []) {M M' : ℕ → ℕ → Block} {x : ℤ} (hx : x ∈ e.items p) :
    ∑ c ∈ (cells e x).elems.toFinset, ((D.withMemory M).merged p).shared c =
      ∑ c ∈ (cells e x).elems.toFinset, ((D.withMemory M').merged p).shared c := by
  apply sum_congr rfl
  intro c hc
  have hlt := (hD.cell_set hp hx (List.mem_toFinset.1 hc)).1
  rcases h with h3 | h0 | hno
  · have hG : ∀ M, ((D.withMemory M).merged p).GBF c = secretSharingAes e.aes e.parties e.Nbf (e.keys p) (D.merged p).keys_recv (M p) c :=
      fun M => congrFun (if_pos (by omega)) c
    rw [hD.shared_withMemory hp hlt, hD.shared_withMemory hp hlt, hG, hG]
    exact congrArg (· + _) (secretSharingAes_congr hlt)
  · -- without hashes there is no cell
    have hm := mem_hStar.1 (List.mem_toFinset.1 hc)
    rw [h0, hashes_eq_nil] at hm
    cases hm
  · rw [hno p hp] at hx
    cases hx

theorem Outcome.Honest.sent_eq (hD : D.Honest) {p : ℕ} (hp : p < e.parties)
    (h : 3 ≤ e.parties ∨ e.seeds_num = 0 ∨ ∀ q, q < e.parties → e.items q = []) (M M' : ℕ → ℕ → Block) :
    ((D.withMemory M).merged p).sent (e.withMemory M) p = ((D.withMemory M').merged p).sent (e.withMemory M') p := by
  unfold Merged.sent
  refine congrArg Fill.GBF (reRandomization_congr fun k hk => ?_)
  have hkx : (e.items p)[k]? = some (e.items p)[k] := List.getElem?_eq_getElem hk
  rw [getY_eq, getY_eq]
  change (((D.merged p).h_kokhav k).elems.map _).sum = (((D.merged p).h_kokhav k).elems.map _).sum
  rw [hD.h_kokhav hp hkx, OrdSet.sum_elems, OrdSet.sum_elems]
  exact hD.sum_shared_eq hp h (List.getElem_mem hk)

theorem Outcome.Honest.out_eq (hD : D.Honest) (h0 : 0 < e.parties)
    (h : 3 ≤ e.parties ∨ e.seeds_num = 0 ∨ ∀ q, q < e.parties → e.items q = []) (M M' : ℕ → ℕ → Block) :
    (D.withMemory M).out = (D.withMemory M').out := by
  unfold Outcome.out getIntersection
  refine congrArg _ (List.filter_congr fun y hy => ?_)
  obtain ⟨x, k⟩ := y
  have hkx : (e.items 0)[k]? = some x := List.mk_mem_zipIdx_iff_getElem?.1 hy
  have hx : x ∈ e.items 0 := List.mem_of_getElem? hkx
  change decide (checkTheItem ((D.merged 0).h_kokhav k) _ = _) = decide (checkTheItem ((D.merged 0).h_kokhav k) _ = _)
  rw [checkTheItem_eq, checkTheItem_eq, hD.h_kokhav h0 hkx]
  have htotal : ∀ M, ∑ c ∈ (cells e x).elems.toFinset, (D.withMemory M).total c =
      ∑ c ∈ (cells e x).elems.toFinset, ((D.withMemory M).merged 0).shared c +
        ∑ c ∈ (cells e x).elems.toFinset, ∑ a ∈ range (e.parties - 1), ((D.withMemory M).merged (a + 1)).sent (e.withMemory M) (a + 1) c :=
    fun M => by
      rw [← sum_add_distrib]
      exact sum_congr rfl fun c hc => (hD.withMemory M).total_eq (hD.cell_set h0 hx (List.mem_toFinset.1 hc)).1
  rw [htotal, htotal, hD.sum_shared_eq h0 h hx]
  refine congrArg (fun b => decide (_ + b = _)) (sum_congr rfl fun c _ => sum_congr rfl fun a ha => ?_)
  rw [hD.sent_eq (by have := mem_range.1 ha; omega) h M M']

/-! ## Two parties -/

omit [DecidableEq κ] in
/-- What a Pi sends to P0 on the stream of its filter. -/
theorem Outcome.withMemory_sent (D : Outcome e) {p : ℕ} (hp0 : 0 < p) : (D.withMemory M).sent (senderChan p 0) =
    onlineSent e p (D.merged p) (senderChan p 0) ++ blks ((List.range e.Nbf).map (((D.withMemory M).merged p).sent (e.withMemory M) p)) := by
  have hslot : 0 < slots e.parties p := by rw [slots, if_neg (by omega)]; exact Nat.one_pos
  rw [sent_senderChan (e := e.withMemory M) hslot, if_neg (by omega)]
  rfl

/-- Independent parties have one output, and the Pi one filter each. -/
theorem MemoryIndependent.same (h : MemoryIndependent e) (hD : D.Honest) (M M' : ℕ → ℕ → Block) :
    (∀ p, 0 < p → p < e.parties → ∀ c, c < e.Nbf → ((D.withMemory M).merged p).sent (e.withMemory M) p c =
        ((D.withMemory M').merged p).sent (e.withMemory M') p c) ∧
      (0 < e.parties → (D.withMemory M).out = (D.withMemory M').out) := by
  obtain ⟨s, _, hs, hc⟩ := exists_complete (hD.withMemory M) .refl
  obtain ⟨s', _, hs', hc'⟩ := exists_complete (hD.withMemory M') .refl
  obtain ⟨hfin, hsent⟩ := final_of_complete (hD.withMemory M) hs hc
  obtain ⟨hfin', hsent'⟩ := final_of_complete (hD.withMemory M') hs' hc'
  obtain ⟨h1, h2⟩ := h M M' s s' hs hc hs' hc'
  constructor
  · intro p hp0 hp c hlt
    have hslot : 0 < slots e.parties p := by rw [slots, if_neg (by omega)]; exact Nat.one_pos
    have hd := senderChan_valid hp hslot
    have heq := ((hsent _ hd).symm.trans (h1 p hp0 hp)).trans (hsent' _ hd)
    have hbase := fun M => D.withMemory_sent (M := M) hp0
    -- what precedes the filters is the same
    have hG := List.append_cancel_left (((hbase M).symm.trans heq).trans (hbase M'))
    have hmap := blks_inj.1 hG
    exact List.map_inj_left.1 hmap c (List.mem_range.2 hlt)
  · intro h0
    exact h2 _ _ _ _ _ _ ((hfin 0 h0).trans ((D.withMemory M).final_zero h0)) ((hfin' 0 h0).trans ((D.withMemory M').final_zero h0))

/-- P1's filter depends on its memory, when it has an item. -/
theorem Outcome.Honest.exists_sent_ne (hD : D.Honest) (hn : e.parties = 2) (hs : e.seeds_num ≠ 0) {x : ℤ} {l : List ℤ}
    (hx : e.items 1 = x :: l) : ∃ M M' c, c < e.Nbf ∧ ((D.withMemory M).merged 1).sent (e.withMemory M) 1 c ≠
      ((D.withMemory M').merged 1).sent (e.withMemory M') 1 c := by
  have h1 : 1 < e.parties := by omega
  have hmem : x ∈ e.items 1 := by rw [hx]; exact List.mem_cons_self ..
  have hk : (e.items 1)[0]? = some x := by rw [hx]; rfl
  have hlen : 0 < (e.items 1).length := by rw [hx]; exact Nat.succ_pos _
  obtain ⟨c, hc⟩ := exists_cell (e := e) hs x
  have hset : (D.merged 1).h_kokhav 0 = cells e x := hD.h_kokhav h1 hk
  obtain ⟨f, hf, z, hread⟩ := exists_first_cell (e.draws 1) e.Nbf (h := (D.merged 1).h_kokhav) hlen
    (by rw [hset]; exact List.ne_nil_of_mem hc)
  rw [hset] at hf
  -- memory that makes the share of that cell the block `b`
  have hsent : ∀ b : Block, b ≠ 0 → ∃ M, ((D.withMemory M).merged 1).sent (e.withMemory M) 1 f = b := by
    intro b hb
    set y := ∑ c' ∈ (cells e x).elems.toFinset, ((D.withMemory e.memory).merged 1).shared c' with hy
    refine ⟨bump 1 c (y + (b + z)) e.memory, ?_⟩
    have hY : getY (D.merged 1).h_kokhav ((D.withMemory (bump 1 c (y + (b + z)) e.memory)).merged 1).shared 0 = b + z := by
      rw [getY_eq, hset, OrdSet.sum_elems, hD.sum_bump hn h1 hmem hc, ← hy, XorGroup.add_cancel_left]
    have hbz : b + z + z = b := XorGroup.add_cancel_right b z
    have := hread ((D.withMemory (bump 1 c (y + (b + z)) e.memory)).merged 1).shared (by rw [hY, hbz]; exact hb)
    rw [hY, hbz] at this
    exact this
  obtain ⟨M, hM⟩ := hsent (toBlock 0 1) (by decide)
  obtain ⟨M', hM'⟩ := hsent (toBlock 0 2) (by decide)
  exact ⟨M, M', f, (hD.cell_set h1 hmem hf).1, by rw [hM, hM']; decide⟩

/-- With two parties P0's array goes straight into its sums. -/
theorem Outcome.Honest.total_bump (hD : D.Honest) (hn : e.parties = 2) {c c' : ℕ} (hc' : c' < e.Nbf) (d : Block) :
    (D.withMemory (bump 0 c d e.memory)).total c' = (D.withMemory e.memory).total c' + if c' = c then d else 0 := by
  have hpi : ∀ a ∈ range (e.parties - 1), ((D.withMemory (bump 0 c d e.memory)).merged (a + 1)).sent _ (a + 1) c' =
      ((D.withMemory e.memory).merged (a + 1)).sent (e.withMemory e.memory) (a + 1) c' := by
    intro a ha
    have hmem : bump 0 c d e.memory (a + 1) = e.memory (a + 1) := Function.update_of_ne (Nat.succ_ne_zero a) _ _
    have hmerged : ((D.withMemory (bump 0 c d e.memory)).merged (a + 1)).shared = ((D.withMemory e.memory).merged (a + 1)).shared := by
      unfold Outcome.withMemory Outcome.over Merged.over
      simp only [hmem]
      rfl
    unfold Merged.sent
    rw [hmerged]
    rfl
  rw [(hD.withMemory (bump 0 c d e.memory)).total_eq hc', (hD.withMemory e.memory).total_eq hc', hD.shared_bump hn (by omega) hc',
    sum_congr rfl hpi, add_right_comm]
  simp only [true_and]

/-- P0's output depends on its memory, when it has an item. -/
theorem Outcome.Honest.exists_out_ne (hD : D.Honest) (hn : e.parties = 2) (hs : e.seeds_num ≠ 0) {x : ℤ} (hx : x ∈ e.items 0) :
    ∃ M M', (D.withMemory M).out ≠ (D.withMemory M').out := by
  have h0 : 0 < e.parties := by omega
  obtain ⟨c, hc⟩ := exists_cell (e := e) hs x
  set T := ∑ c' ∈ (cells e x).elems.toFinset, (D.withMemory e.memory).total c' with hT
  have htotal : ∀ d, ∑ c' ∈ (cells e x).elems.toFinset, (D.withMemory (bump 0 c d e.memory)).total c' = T + d := by
    intro d
    have hlt : ∀ c' ∈ (cells e x).elems.toFinset, c' < e.Nbf := fun c' hc' => (hD.cell_set h0 hx (List.mem_toFinset.1 hc')).1
    have hstep : ∀ c' ∈ (cells e x).elems.toFinset, (D.withMemory (bump 0 c d e.memory)).total c' =
        (D.withMemory e.memory).total c' + if c' = c then d else 0 := fun c' hc' => hD.total_bump hn (hlt c' hc') d
    rw [sum_congr rfl hstep, sum_add_distrib, sum_ite_eq', if_pos (List.mem_toFinset.2 hc)]
  have hout : ∀ d, x ∈ (D.withMemory (bump 0 c d e.memory)).out ↔ T + d = 0 := by
    intro d
    rw [(hD.withMemory (bump 0 c d e.memory)).mem_out h0]
    change _ ∧ ∑ c' ∈ (cells e x).elems.toFinset, _ = 0 ↔ _
    rw [htotal]
    exact ⟨fun h => h.2, fun h => ⟨hx, h⟩⟩
  -- one array brings the sum to 0, another one does not
  refine ⟨bump 0 c T e.memory, bump 0 c (T + toBlock 0 1) e.memory, fun heq => ?_⟩
  have hin := (hout T).2 (Block.add_self_zero T)
  rw [heq, hout, XorGroup.add_cancel_left] at hin
  exact absurd hin (by decide)

/-- Honest parties that can come to their end do so with the same filters and the same output whatever lies
in their memory, exactly when they are three or more, there is no hash, or nobody has an item. -/
theorem memory_independent_iff (hn : 2 ≤ e.parties) {s : State κ e.Not} (h : HonestReaches e s) (hc : Complete s) :
    MemoryIndependent e ↔ 3 ≤ e.parties ∨ e.seeds_num = 0 ∨ ∀ p, p < e.parties → e.items p = [] := by
  have h0 : 0 < e.parties := by omega
  obtain ⟨D, hD, -, -⟩ := exists_outcome h hc
  constructor
  · intro hind
    by_contra hno
    push Not at hno
    obtain ⟨h3, hs, q, hq, hne⟩ := hno
    have hn2 : e.parties = 2 := by omega
    -- an item of P0 shows in its output, an item of the other party in what it sends
    obtain rfl | rfl : q = 0 ∨ q = 1 := by omega
    · obtain ⟨x, hx⟩ := List.exists_mem_of_ne_nil _ hne
      obtain ⟨M, M', hout⟩ := hD.exists_out_ne hn2 hs hx
      exact hout ((hind.same hD M M').2 h0)
    · obtain ⟨x, l, hx⟩ := List.exists_cons_of_ne_nil hne
      obtain ⟨M, M', c, hlt, hsent⟩ := hD.exists_sent_ne hn2 hs hx
      exact hsent ((hind.same hD M M').1 1 Nat.one_pos hq c hlt)
  · intro hcond M M' s s' hs hc hs' hc'
    obtain ⟨hfin, hsent⟩ := final_of_complete (hD.withMemory M) hs hc
    obtain ⟨hfin', hsent'⟩ := final_of_complete (hD.withMemory M') hs' hc'
    constructor
    · intro p hp0 hp
      have hv := senderChan_valid hp (show 0 < slots e.parties p by rw [slots, if_neg (by omega)]; exact Nat.one_pos)
      refine (hsent _ hv).trans (Eq.trans ?_ (hsent' _ hv).symm)
      rw [D.withMemory_sent hp0, D.withMemory_sent hp0, hD.sent_eq hp hcond M M']
    · intro m m' G G' out out' hd hd'
      have h1 := (hfin 0 h0).trans ((D.withMemory M).final_zero h0)
      have h2 := (hfin' 0 h0).trans ((D.withMemory M').final_zero h0)
      cases h1.symm.trans hd
      cases h2.symm.trans hd'
      exact hD.out_eq h0 hcond M M'

/-- P0 and P1 with the same item. -/
abbrev pairEnv : Env Block := uniform 2 (fun _ => [0]) fun _ _ => 0

/-- The output of two parties with the same item depends on P0's memory. -/
theorem memory_dependent : ¬ MemoryIndependent pairEnv := by
  have hD := uniform_honest 2 (fun _ => [0]) fun _ _ => 0
  obtain ⟨M, M', hout⟩ := hD.exists_out_ne rfl one_ne_zero (List.mem_singleton_self 0)
  exact fun h => hout ((h.same hD M M').2 Nat.two_pos)

/-- Three parties. -/
theorem memory_independent_three : MemoryIndependent (uniform 3 (fun _ => [0]) fun _ _ => 0) := by
  obtain ⟨s, hs, hc⟩ := uniform_complete 3 (fun _ => [0]) fun _ _ => 0
  exact (memory_independent_iff (e := uniform 3 (fun _ => [0]) fun _ _ => 0) (show 2 ≤ 3 by decide) hs hc).2 (.inl le_rfl)

end Mpsi
