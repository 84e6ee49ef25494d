/-
When `arrange_the_indexes` keeps to its vectors. The threads take their entries before the supply is tested,
so a filter can send them behind the end of one vector, or in front of it, although the test would find the
shortage; `installsOrExits_iff` says for which filters and vectors nothing of this happens.
-/
import Mpsi.Apport.Arrange

namespace Mpsi

/-! ## The entries taken -/

/-- The place of a bit among its like. -/
theorem exists_rank {v : Bool} : ∀ {l : List Bool} {s : ℕ}, s < l.count v →
    ∃ i, ∃ h : i < l.length, l[i] = v ∧ (l.take i).count v = s
  | [], _, h => by simp at h
  | u :: l, s, h => by
    by_cases hu : u = v
    · subst hu
      cases s with
      | zero => exact ⟨0, by simp, rfl, rfl⟩
      | succ s =>
        rw [List.count_cons_self] at h
        obtain ⟨i, hi, hv, hs⟩ := exists_rank (Nat.lt_of_succ_lt_succ h)
        exact ⟨i + 1, Nat.succ_lt_succ hi, hv, by rw [List.take_succ_cons, List.count_cons_self, hs]⟩
    · rw [List.count_cons_of_ne hu] at h
      obtain ⟨i, hi, hv, hs⟩ := exists_rank h
      exact ⟨i + 1, Nat.succ_lt_succ hi, hv, by rw [List.take_succ_cons, List.count_cons_of_ne hu, hs]⟩

/-- Some cell with bit `v` takes entry `s` of its vector of `n v` entries: the front thread takes as many of
the first ones as its half has such cells, the back thread as many of the last ones. -/
def Used (BF : List Bool) (n : Bool → ℕ) (v : Bool) (s : ℕ) : Prop :=
  s < (BF.take (BF.length / 2)).count v ∨ (n v - (BF.drop (BF.length / 2)).count v ≤ s ∧ s < n v)

section Used

variable {BF : List Bool} {n : Bool → ℕ}

theorem used_slot (hn : ∀ v, (BF.drop (BF.length / 2)).count v ≤ n v) {i : ℕ} (hi : i < BF.length) :
    Used BF n BF[i] (slot BF n i BF[i]) := by
  unfold Used slot
  by_cases h : i < BF.length / 2
  · rw [if_pos h]
    exact Or.inl (count_take_half_lt h hi)
  · rw [if_neg h]
    have hlt := count_drop_half_lt (not_lt.1 h) hi
    have hle := hn BF[i]
    exact Or.inr ⟨by omega, by omega⟩

theorem exists_slot {v : Bool} {s : ℕ} (h : Used BF n v s) : ∃ i, ∃ hi : i < BF.length, BF[i] = v ∧ slot BF n i v = s := by
  rcases h with h | ⟨h1, h2⟩
  · obtain ⟨i, hi, hv, hs⟩ := exists_rank h
    have hhalf : i < BF.length / 2 := by rw [List.length_take] at hi; omega
    refine ⟨i, by omega, by rwa [List.getElem_take] at hv, ?_⟩
    unfold slot
    rw [if_pos hhalf, ← hs, List.take_take, min_eq_left hhalf.le]
  · obtain ⟨i, hi, hv, hs⟩ := exists_rank (show n v - 1 - s < (BF.drop (BF.length / 2)).count v by omega)
    have hi' : BF.length / 2 + i < BF.length := by rw [List.length_drop] at hi; omega
    refine ⟨BF.length / 2 + i, hi', by rwa [List.getElem_drop] at hv, ?_⟩
    unfold slot
    rw [if_neg (by omega), Nat.add_sub_cancel_left, hs]
    omega

end Used

/-! ## The condition -/

section Safe

variable {current : List ℤ} {L : Bool → List ℤ} {BF : List Bool}

/-- The filter can be served from the vectors, or is too large for them without a read outside an array:
no half has more cells of a bit than the vector of the bit has entries, and the entries taken are places of
the index array, with different values where they serve all cells. -/
structure Serviceable (current : List ℤ) (L : Bool → List ℤ) (BF : List Bool) : Prop where
  front : ∀ v, (BF.take (BF.length / 2)).count v ≤ (L v).length
  back : ∀ v, (BF.drop (BF.length / 2)).count v ≤ (L v).length
  entry : ∀ v s, Used BF (fun v => (L v).length) v s → ∃ x, serve none current L v s = .ok x
  distinct : (∀ v, BF.count v ≤ (L v).length) → ∀ v s v' s', Used BF (fun v => (L v).length) v s →
    Used BF (fun v => (L v).length) v' s' → serve none current L v s = serve none current L v' s' → v = v' ∧ s = s'

/-- The sequence installs a function without a repetition or ends with its message, and reads inside its
arrays in either case. -/
def InstallsOrExits (current : List ℤ) (L : Bool → List ℤ) (BF : List Bool) : Prop :=
  (∃ f, arrangeTheIndexes none BF (L false) (L true) current = .ok f ∧ f.Nodup) ∨
    arrangeTheIndexes none BF (L false) (L true) current = .error (.exit "Not enough o's/1's - problem!")

/-- A thread can only fail by a read outside an array. -/
theorem thread_error {δ : ℤ} : ∀ (bits : List Bool) (p : Bool → ℤ) {e : Fault},
    arrangeIndexesThread none current (L true) (L false) δ bits (p false) (p true) = .error e → e = .outOfRange
  | [], _, _, h => by cases h
  | v :: bits, p, e, h => by
    have hread : ∀ {xs : List ℤ} {k : ℤ} {f : Fault}, readAt none xs k = .error f → f = .outOfRange := by
      intro xs k f hf
      by_cases hk : 0 ≤ k ∧ k < xs.length
      · rw [readAt_of_range hk.1 (by omega)] at hf; cases hf
      · rw [readAt_none_outside hk] at hf; cases hf; rfl
    rw [thread_cons] at h
    cases hs : serve none current L v (p v) with
    | error f =>
      rw [hs] at h
      cases h
      unfold serve at hs
      cases hk : readAt (Option.map (Around.vector v) none) (L v) (p v) with
      | error f => rw [hk] at hs; cases hs; exact hread hk
      | ok k => rw [hk, ok_bind] at hs; exact hread hs
    | ok x =>
      rw [hs, ok_bind] at h
      simp only at h
      cases ht : arrangeIndexesThread none current (L true) (L false) δ bits (Function.update p v (p v + δ) false)
          (Function.update p v (p v + δ) true) with
      | error f => rw [ht] at h; cases h; exact thread_error bits _ ht
      | ok r => rw [ht] at h; cases h

/-- Both threads end exactly when the entries taken are there. -/
theorem threads_end_iff : (∃ r r', arrangeIndexesThread none current (L true) (L false) 1 (BF.take (BF.length / 2)) 0 0 = .ok r ∧
      arrangeIndexesThread none current (L true) (L false) (-1) (BF.drop (BF.length / 2)) ((L false).length - 1)
        ((L true).length - 1) = .ok r') ↔
    (∀ v, (BF.take (BF.length / 2)).count v ≤ (L v).length) ∧ (∀ v, (BF.drop (BF.length / 2)).count v ≤ (L v).length) ∧
      ∀ v s, Used BF (fun v => (L v).length) v s → ∃ x, serve none current L v s = .ok x := by
  constructor
  · rintro ⟨⟨front, b₀, b₁⟩, ⟨back, e₀, e₁⟩, hf, hb⟩
    obtain ⟨_, _, _, hfi⟩ := thread_ok (BF.take (BF.length / 2)) (fun _ => 0) hf
    obtain ⟨_, _, _, hbi⟩ := thread_ok (BF.drop (BF.length / 2)) (fun v => ((L v).length : ℤ) - 1) hb
    have hfront : ∀ v s, s < (BF.take (BF.length / 2)).count v → ∃ x, serve none current L v s = .ok x := by
      intro v s hs
      obtain ⟨i, hi, hv, hr⟩ := exists_rank hs
      obtain ⟨x, _, hx⟩ := hfi i hi
      rw [hv, hr, zero_add, one_mul] at hx
      exact ⟨x, hx⟩
    -- the back thread reads a place in front of the vector once it has taken all entries
    have hback : ∀ v s, s < (BF.drop (BF.length / 2)).count v →
        s < (L v).length ∧ ∃ x, serve none current L v ((L v).length - 1 - s : ℕ) = .ok x := by
      intro v s hs
      obtain ⟨i, hi, hv, hr⟩ := exists_rank hs
      obtain ⟨x, _, hx⟩ := hbi i hi
      rw [hv, hr] at hx
      obtain ⟨k, hk, _⟩ := bind_ok hx
      obtain ⟨m, hm, _⟩ := readAt_none_ok.1 hk
      refine ⟨by omega, x, ?_⟩
      rwa [show ((L v).length : ℤ) - 1 + -1 * (s : ℤ) = ((L v).length - 1 - s : ℕ) by omega] at hx
    refine ⟨fun v => ?_, fun v => ?_, fun v s hs => ?_⟩
    · by_contra hlt
      obtain ⟨x, hx⟩ := hfront v (L v).length (by omega)
      obtain ⟨k, hk, _⟩ := serve_ok.1 hx
      simp at hk
    · by_contra hlt
      exact absurd (hback v (L v).length (by omega)).1 (lt_irrefl _)
    · rcases hs with hs | ⟨h1, h2⟩
      · exact hfront v s hs
      · simp only at h1 h2
        obtain ⟨_, x, hx⟩ := hback v ((L v).length - 1 - s) (by omega)
        rw [show (L v).length - 1 - ((L v).length - 1 - s) = s by omega] at hx
        exact ⟨x, hx⟩
  · rintro ⟨hfront, hback, hentry⟩
    obtain ⟨⟨r, hr⟩, r', hr'⟩ := threads_end hback fun i hi => hentry _ _ (used_slot hback hi)
    exact ⟨r, r', hr, hr'⟩

/-- The value of a cell is the one its entry leads to. -/
theorem Served.serve {f : List ℤ} (h : Served current L BF f) {i : ℕ} (hi : i < BF.length) :
    ∃ x, Mpsi.serve none current L BF[i] (slot BF (fun v => (L v).length) i BF[i] : ℕ) = .ok x ∧ f[i]? = some x := by
  obtain ⟨k, hk, hlt, hf⟩ := h.entry i hi
  exact ⟨current[k], serve_ok.2 ⟨k, hk, List.getElem?_eq_getElem hlt⟩, hf.trans (List.getElem?_eq_getElem hlt)⟩

/-- A sequence that installs a function or ends with its message has run both threads to their end. -/
theorem InstallsOrExits.ends (h : InstallsOrExits current L BF) :
    ∃ r r', arrangeIndexesThread none current (L true) (L false) 1 (BF.take (BF.length / 2)) 0 0 = .ok r ∧
      arrangeIndexesThread none current (L true) (L false) (-1) (BF.drop (BF.length / 2)) ((L false).length - 1)
        ((L true).length - 1) = .ok r' := by
  unfold InstallsOrExits at h
  cases hf : arrangeIndexesThread none current (L true) (L false) 1 (BF.take (BF.length / 2)) 0 0 with
  | error e =>
    obtain rfl := thread_error _ (fun _ => 0) hf
    simp [arrangeTheIndexes, hf] at h
  | ok r =>
    cases hb : arrangeIndexesThread none current (L true) (L false) (-1) (BF.drop (BF.length / 2)) ((L false).length - 1)
        ((L true).length - 1) with
    | error e =>
      obtain rfl := thread_error _ (fun v => ((L v).length : ℤ) - 1) hb
      simp [arrangeTheIndexes, hf, hb] at h
    | ok r' => exact ⟨r, r', rfl, rfl⟩

/-- A function without a repetition gets the cells different values. -/
theorem Served.cell_inj {f : List ℤ} (h : Served current L BF f) (hnd : f.Nodup) {i j : ℕ} (hi : i < BF.length)
    (hj : j < BF.length) (hij : f[i]? = f[j]?) : i = j := by
  by_contra hne
  rcases Nat.lt_or_gt_of_ne hne with hlt | hlt
  · exact List.nodup_iff_getElem?_ne_getElem?.1 hnd i j hlt (by rw [h.length]; exact hj) hij
  · exact List.nodup_iff_getElem?_ne_getElem?.1 hnd j i hlt (by rw [h.length]; exact hi) hij.symm

theorem serviceable_of_installs (h : InstallsOrExits current L BF) : Serviceable current L BF := by
  have hends := h.ends
  obtain ⟨hfront, hback, hentry⟩ := threads_end_iff.1 hends
  refine ⟨hfront, hback, hentry, fun hen v s v' s' hu hu' heq => ?_⟩
  obtain ⟨⟨front, b₀, b₁⟩, ⟨back, e₀, e₁⟩, hf, hb⟩ := hends
  have hrun := arrange_of_ends hf hb
  -- with enough entries the test passes, so a function was installed
  have hfit : ¬ ∃ v, (L v).length < BF.count v := by
    rintro ⟨v, hv⟩
    exact absurd (hen v) (not_le.2 hv)
  rw [if_neg hfit] at hrun
  obtain ⟨f, hok, hnd⟩ := h.resolve_right (by rw [hrun]; exact fun h => by cases h)
  have hserved := served_of_ok hok
  obtain ⟨i, hi, rfl, rfl⟩ := exists_slot hu
  obtain ⟨j, hj, rfl, rfl⟩ := exists_slot hu'
  obtain ⟨x, hx, hfx⟩ := hserved.serve hi
  obtain ⟨y, hy, hfy⟩ := hserved.serve hj
  rw [hx, hy] at heq
  obtain rfl := Except.ok.inj heq
  obtain rfl := hserved.cell_inj hnd hi hj (hfx.trans hfy.symm)
  exact ⟨rfl, rfl⟩

theorem installs_of_serviceable (h : Serviceable current L BF) : InstallsOrExits current L BF := by
  obtain ⟨⟨front, b₀, b₁⟩, ⟨back, e₀, e₁⟩, hf, hb⟩ := threads_end_iff.2 ⟨h.front, h.back, h.entry⟩
  have hrun := arrange_of_ends hf hb
  by_cases hmet : ∃ v, (L v).length < BF.count v
  · rw [if_pos hmet] at hrun
    exact Or.inr hrun
  · rw [if_neg hmet] at hrun
    have hen : ∀ v, BF.count v ≤ (L v).length := fun v => not_lt.1 fun hv => hmet ⟨v, hv⟩
    have hserved := served_of_ok hrun
    refine Or.inl ⟨_, hrun, List.nodup_iff_getElem?_ne_getElem?.2 fun i j hij hj heq => ?_⟩
    rw [hserved.length] at hj
    obtain ⟨x, hx, hfx⟩ := hserved.serve (hij.trans hj)
    obtain ⟨y, hy, hfy⟩ := hserved.serve hj
    -- equal values were taken from one place, and one place serves one cell
    obtain rfl := Option.some_injective _ (hfx.symm.trans (heq.trans hfy))
    obtain ⟨hv, hslot⟩ := h.distinct hen _ _ _ _ (used_slot h.back (hij.trans hj)) (used_slot h.back hj) (hx.trans hy.symm)
    exact absurd (slot_inj hen (hij.trans hj) hj hv hslot) hij.ne

/-- This is so exactly when the vectors serve the filter, or the shortage is found without leaving them. -/
theorem installsOrExits_iff (current : List ℤ) (L : Bool → List ℤ) (BF : List Bool) :
    InstallsOrExits current L BF ↔ Serviceable current L BF :=
  ⟨serviceable_of_installs, installs_of_serviceable⟩

/-- Six cells of bit 0 and two entries for them: the front thread reads behind the vector before the test. -/
theorem not_installsOrExits : ¬ InstallsOrExits [0, 1, 2, 3] (fun v => if v then [2, 3] else [0, 1])
    [false, false, false, false, false, false] := by
  have hrun : arrangeTheIndexes none [false, false, false, false, false, false] [0, 1] [2, 3] [0, 1, 2, 3] =
      .error .outOfRange := rfl
  rintro (⟨f, hf, _⟩ | h)
  · cases hrun.symm.trans hf
  · cases hrun.symm.trans h

end Safe

end Mpsi
