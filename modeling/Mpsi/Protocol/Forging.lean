/-
What the Pi can do about an item they do not have. P0's strings for a 1 go into its GBF where the functions it has
received point, and no check looks at them. So when all that P0 has read names a string an odd number of times for
the cells of an item, P0 prints the item for exactly one value of that string; when it names it an even number of
times, the string is of no account (`forged_for_one_string`).
-/
import Mpsi.Protocol.Alone
import Mpsi.Protocol.Output
import Mpsi.Protocol.Variation

namespace Mpsi

open Thread Stream Finset

variable {κ : Type} [DecidableEq κ] {e : Env κ} {a k : ℕ} {v : Block} {m : Merged κ e.Not}

/-! ## Another string -/

/-- The strings with another one for a 1 at position `k` of P0's instance `a`. -/
def ownString (e : Env κ) (a k : ℕ) (v : Block) (p b : ℕ) : List (Block × Block) :=
  if p = 0 ∧ b = a then (e.strings p b).modify k fun s => (s.1, v) else e.strings p b

omit [DecidableEq κ] in
theorem ownString_length (p b : ℕ) : (ownString e a k v p b).length = e.Not := by
  unfold ownString
  split <;> simp [e.strings_length]

/-- The parties with this string. -/
abbrev Env.withOwn (e : Env κ) (a k : ℕ) (v : Block) : Env κ := e.over (ownString e a k v) ownString_length e.memory

/-- And P0's values. -/
abbrev Merged.withOwn (m : Merged κ e.Not) (a k : ℕ) (v : Block) : Merged κ (e.withOwn a k v).Not :=
  m.over 0 (ownString e a k v) ownString_length e.memory

omit [DecidableEq κ] in
theorem ownString_zero (b : ℕ) : (ownString e a k v 0 b).map Prod.fst = (e.strings 0 b).map Prod.fst := by
  unfold ownString
  split
  · apply List.ext_getElem?
    intro n
    rw [List.getElem?_map, List.getElem?_map, List.getElem?_modify]
    cases (e.strings 0 b)[n]? with
    | none => rfl
    | some s => by_cases hn : k = n <;> simp [hn]
  · rfl

omit [DecidableEq κ] in
/-- P0's strings as a receiver are those of the others. -/
theorem choiceStrings_withOwn (b : ℕ) : (e.withOwn a k v).choiceStrings 0 b = e.choiceStrings 0 b := by
  have hpeer : (e.withOwn a k v).peerStrings 0 b = e.peerStrings 0 b := by
    change ownString e a k v (instPeer 0 b) _ = e.strings (instPeer 0 b) _
    unfold ownString
    exact if_neg fun h => absurd h.1 (by simp [instPeer])
  unfold Env.choiceStrings
  rw [hpeer]

/-- No check sees the string. -/
theorem MergedOk.withOwn (h : MergedOk e 0 m) : MergedOk (e.withOwn a k v) 0 (m.withOwn a k v) :=
  h.over (fun b _ t _ => by rw [choiceStrings_withOwn]) ownString_zero

/-! ## What it changes -/

/-- The function of instance `a` names the string for this cell, and P0's filter asks for a 1. -/
def Names (m : Merged κ e.Not) (a k c : ℕ) : Prop := (m.func_sender a)[c]? = some (k : ℤ) ∧ m.BF[c]? = some true

instance (m : Merged κ e.Not) (a k c : ℕ) : Decidable (Names m a k c) := inferInstanceAs (Decidable (_ ∧ _))

/-- The difference the string makes where it is named once. -/
def ownDiff (e : Env κ) (a k : ℕ) (v : Block) : Block := ((e.strings 0 a).getD k (0, 0)).2 + v

omit [DecidableEq κ] in
theorem ownString_getElem? {b n : ℕ} {s : Block × Block} (h : (e.strings 0 b)[n]? = some s) :
    (ownString e a k v 0 b)[n]? = some (if b = a ∧ n = k then (s.1, v) else s) := by
  unfold ownString
  by_cases hb : b = a
  · rw [if_pos ⟨rfl, hb⟩, List.getElem?_modify, h]
    by_cases hn : n = k
    · simp [hb, hn]
    · simp [hn, Ne.symm hn]
  · rw [if_neg fun hc => hb hc.2, if_neg fun hc => hb hc.1, h]

omit [DecidableEq κ] in
theorem contribution_withOwn {src : Source} {j : ℕ} {b : Block} (h : contribution none (m.data e 0) src j = .ok b) :
    contribution none ((m.withOwn a k v).data (e.withOwn a k v) 0) src j =
      .ok (b + if src = (a, .sender) ∧ Names m a k j then ownDiff e a k v else 0) := by
  obtain ⟨p, _ | _⟩ := src
  · have hsame : contribution none ((m.withOwn a k v).data (e.withOwn a k v) 0) (p, .receiver) j =
        contribution none (m.data e 0) (p, .receiver) j := by
      change (readAt _ (m.func_recv p) _ >>= fun x => readAt _ ((e.withOwn a k v).choiceStrings 0 p) x) = _
      rw [choiceStrings_withOwn]
      rfl
    rw [hsame, h, if_neg (by simp), add_zero]
  · obtain ⟨n, s, bit, hf, hn, hb, rfl⟩ := contribution_sender_ok.1 h
    refine contribution_sender_ok.2 ⟨n, _, bit, hf, ownString_getElem? hn, hb, ?_⟩
    have hnames : (p, Role.sender) = (a, Role.sender) ∧ Names m a k j ↔ (p = a ∧ n = k) ∧ bit = true := by
      constructor
      · rintro ⟨h1, h2, h3⟩
        cases h1
        exact ⟨⟨rfl, Int.natCast_inj.1 (Option.some.inj (hf.symm.trans h2))⟩, Option.some.inj (hb.symm.trans h3)⟩
      · rintro ⟨⟨rfl, rfl⟩, rfl⟩
        exact ⟨rfl, hf, hb⟩
    simp only [hnames]
    by_cases hat : (p = a ∧ n = k) ∧ bit = true
    · obtain ⟨⟨rfl, rfl⟩, rfl⟩ := hat
      have hget : (e.strings 0 p)[n]? = some s := hn
      simp [ownDiff, List.getD_eq_getElem?_getD, hget, XorGroup.add_cancel_left]
    · rw [if_neg hat, add_zero]
      by_cases hbit : bit = true
      · rw [if_pos hbit, if_pos hbit, if_neg fun hc => hat ⟨hc, hbit⟩]
      · rw [if_neg hbit, if_neg hbit]
        split <;> rfl

section Values

variable (hn : StringsNamed e 0 m)

include hn

omit [DecidableEq κ] in
theorem StringsNamed.withOwn : StringsNamed (e.withOwn a k v) 0 (m.withOwn a k v) := by
  intro src hsrc j hj
  obtain ⟨b, hb⟩ := hn src hsrc j hj
  exact ⟨_, contribution_withOwn hb⟩

variable (hm : MergedOk e 0 m) (ha : a < e.parties - 1)

include hm ha

/-- P0's GBF with it. -/
theorem shared_withOwn {c : ℕ} (hc : c < e.Nbf) :
    (m.withOwn a k v).shared c = m.shared c + if Names m a k c then ownDiff e a k v else 0 := by
  have hslots : slots e.parties 0 = e.parties - 1 := if_pos rfl
  have hmem : (a, Role.sender) ∈ producers (slots e.parties 0) := by simp [producers, hslots, ha]
  have hvalue : ∀ src ∈ producers (slots e.parties 0), value ((m.withOwn a k v).data (e.withOwn a k v) 0) src c =
      value (m.data e 0) src c + if src = (a, .sender) then (if Names m a k c then ownDiff e a k v else 0) else 0 := by
    intro src hsrc
    obtain ⟨b, hb⟩ := hn src hsrc c hc
    rw [value_of_ok (contribution_withOwn hb), value_of_ok hb, ite_and]
  have hshared := congrFun (hm.withOwn (a := a) (k := k) (v := v)).shared c
  have hold := congrFun hm.shared c
  rw [if_pos hc] at hshared hold
  have hGBF : (m.withOwn a k v).GBF = m.GBF := hm.GBF.symm
  rw [hshared, hold, hGBF, sum_congr rfl hvalue, sum_add_distrib, sum_ite_eq', if_pos hmem, add_assoc]

theorem total_withOwn (l : ℕ → List Block) {c : ℕ} (hc : c < e.Nbf) :
    (m.withOwn a k v).total (e.withOwn a k v) l c = m.total e l c + if Names m a k c then ownDiff e a k v else 0 := by
  unfold Merged.total
  rw [shared_withOwn hn hm ha hc, add_right_comm]

end Values

/-! ## The items -/

/-- The cells of an item under the seed of P0's values. -/
def itemCells (e : Env κ) (m : Merged κ e.Not) (x : ℤ) : Finset ℕ := (hStar e.aes m.seed e.Nbf e.seeds_num x).elems.toFinset

/-- How often a function names the string for the cells of an item. -/
def named (e : Env κ) (m : Merged κ e.Not) (a k : ℕ) (x : ℤ) : ℕ := #{c ∈ itemCells e m x | (m.func_sender a)[c]? = some (k : ℤ)}

/-- They are set in the filter of a party that has the item. -/
theorem MergedOk.itemCells_set {p : ℕ} {x : ℤ} (hm : MergedOk e p m) (hx : x ∈ e.items p) {c : ℕ} (hc : c ∈ itemCells e m x) :
    c < e.Nbf ∧ m.BF[c]? = some true := by
  have hmem := mem_hStar.1 (List.mem_toFinset.1 hc)
  have hN := hm.Nbf x hx (List.ne_nil_of_mem hmem)
  have hlt := hashes_lt (Nat.pos_of_ne_zero hN) hmem
  refine ⟨hlt, ?_⟩
  rw [hm.BF, List.getElem?_map, List.getElem?_range hlt, Option.map_some, bloomBits]
  simpa using ⟨x, hx, hmem⟩

section Items

variable {x : ℤ} (hm : MergedOk e 0 m)

include hm

theorem MergedOk.printed_iff {G : ℕ → Block} :
    x ∈ getIntersection (e.items 0) m.h_kokhav G ↔ x ∈ e.items 0 ∧ ∑ c ∈ itemCells e m x, G c = 0 := by
  have hcells : ∀ (n : ℕ) (y : ℤ), (e.items 0)[n]? = some y → (checkTheItem (m.h_kokhav n) G = 0 ↔ ∑ c ∈ itemCells e m y, G c = 0) := by
    intro n y hy
    rw [checkTheItem_eq, hm.h_kokhav, bloomSets, hy]
    rfl
  rw [getIntersection_eq hcells, List.mem_filter, decide_eq_true_iff]

/-- The sum over the cells of an item. -/
theorem sum_total_withOwn (hn : StringsNamed e 0 m) (ha : a < e.parties - 1) (hx : x ∈ e.items 0) (l : ℕ → List Block) :
    ∑ c ∈ itemCells e m x, (m.withOwn a k v).total (e.withOwn a k v) l c =
      ∑ c ∈ itemCells e m x, m.total e l c + named e m a k x • ownDiff e a k v := by
  rw [sum_congr rfl fun c hc => total_withOwn hn hm ha l (hm.itemCells_set hx hc).1, sum_add_distrib, ← sum_filter, sum_const, named]
  congr 3
  apply filter_congr
  intro c hc
  exact and_iff_left (hm.itemCells_set hx hc).2

end Items

/-- P0 has come to its end among parties that have sent anything. With another string for a 1 at position `k` of its
instance `a` it can read and write the same; and an item of its file is then printed for exactly one value of the string when
the function it has read there names `k` for an odd number of the item's cells, and as before when for an even number. -/
theorem forged_for_one_string {s : Alone Sock (Atom κ) (Party κ e.Not)} {G : ℕ → Block} {out : List ℤ} (h : PartyReaches e 0 s)
    (hdone : s.proc = .done m G out) (ha : a < e.parties - 1) {x : ℤ} (hx : x ∈ e.items 0) :
    (∀ v, ∃ s' m' G' out', PartyReaches (e.withOwn a k v) 0 s' ∧ s'.proc = .done m' G' out' ∧
      (∀ d : Chan, d.Valid e.parties → d.dst = 0 → s'.read (d.sock e.parties) = s.read (d.sock e.parties)) ∧
      ∀ d : Chan, d.Valid e.parties → d.src = 0 → s'.wrote (d.sock e.parties) = s.wrote (d.sock e.parties)) ∧
    (Odd (named e m a k x) → ∃ v₀, ∀ v s' m' G' out', PartyReaches (e.withOwn a k v) 0 s' → s'.proc = .done m' G' out' →
      (∀ d : Chan, d.Valid e.parties → d.dst = 0 → s'.read (d.sock e.parties) = s.read (d.sock e.parties)) → (x ∈ out' ↔ v = v₀)) ∧
    (Even (named e m a k x) → ∀ v s' m' G' out', PartyReaches (e.withOwn a k v) 0 s' → s'.proc = .done m' G' out' →
      (∀ d : Chan, d.Valid e.parties → d.dst = 0 → s'.read (d.sock e.parties) = s.read (d.sock e.parties)) → (x ∈ out' ↔ x ∈ out)) := by
  obtain ⟨hi, hm, hn, l, hl, hG, hrest⟩ := exists_final h hdone
  cases hG
  obtain ⟨hwrote, hread⟩ := (rest_iff hi).1 hrest
  -- what is read fixes the values, up to the string
  have hout : ∀ v s' m' G' out', PartyReaches (e.withOwn a k v) 0 s' → s'.proc = .done m' G' out' →
      (∀ d : Chan, d.Valid e.parties → d.dst = 0 → s'.read (d.sock e.parties) = s.read (d.sock e.parties)) →
      (x ∈ out' ↔ ∑ c ∈ itemCells e m x, m.total e l c + named e m a k x • ownDiff e a k v = 0) := by
    intro v s' m' G' out' h' hdone' hsame
    obtain ⟨_, hm', hn', l', hl', hG', hrest'⟩ := exists_final h' hdone'
    cases hG'
    obtain ⟨rfl, hll⟩ := final_unique (e := e.withOwn a k v) hi (hm.withOwn (v := v)) hn.withOwn hm' hn' hl hl' fun d hd hdst => by
      rw [← ((rest_iff hi).1 hrest').2 d hd hdst, hsame d hd hdst, hread d hd hdst]
      rfl
    rw [hm'.printed_iff, and_iff_right hx, total_congr (hll rfl), ← sum_total_withOwn hm hn ha hx l]
    rfl
  refine ⟨fun v => ?_, fun hodd => ⟨((e.strings 0 a).getD k (0, 0)).2 + ∑ c ∈ itemCells e m x, m.total e l c,
    fun v s' m' G' out' h' hdone' hsame => ?_⟩, fun heven v s' m' G' out' h' hdone' hsame => ?_⟩
  · obtain ⟨W, R, hs', hrest'⟩ := gets_final (e := e.withOwn a k v) hi hm.withOwn hn.withOwn hl rfl
    obtain ⟨hwrote', hread'⟩ := (rest_iff hi).1 hrest'
    exact ⟨_, _, _, _, hs', rfl, fun d hd hdst => (hread' d hd hdst).trans (hread d hd hdst).symm,
      fun d hd hsrc => (hwrote' d hd hsrc).trans (hwrote d hd hsrc).symm⟩
  · rw [hout v s' m' G' out' h' hdone' hsame, XorGroup.odd_smul hodd, ownDiff, ← add_assoc, XorGroup.add_eq_zero_iff_eq, eq_comm, add_comm]
  · rw [hout v s' m' G' out' h' hdone' hsame, XorGroup.even_smul heven, add_zero, hm.printed_iff, and_iff_right hx]

/-- Three parties with one item: the function names position 4 for the only cell. -/
theorem forged_for_one_string_three : ∃ v₀, ∀ v, ∃ (s : Alone Sock (Atom Block) (Party Block 5)) (m : Merged Block 5) (G : ℕ → Block)
    (out : List ℤ), PartyReaches ((uniform 3 (fun _ => [0]) fun _ _ => 0).withOwn 0 4 v) 0 s ∧ s.proc = .done m G out ∧
      ((0 : ℤ) ∈ out ↔ v = v₀) := by
  obtain ⟨s, hs, hc⟩ := uniform_complete 3 (fun _ => [0]) fun _ _ => 0
  have hdone := ((final_of_complete (uniform_honest 3 _ _) hs hc).1 0 (by decide)).trans (Outcome.final_zero _ (by decide))
  have halone := alone_of_reaches partyInv_follows (fun _ => partyInv_start) hs 0
  obtain ⟨hsame, hodd, _⟩ := forged_for_one_string (a := 0) (k := 4) (x := 0) halone hdone (by decide) (List.mem_singleton_self 0)
  obtain ⟨v₀, hv⟩ := hodd (by decide)
  refine ⟨v₀, fun v => ?_⟩
  obtain ⟨s', m', G', out', h', hdone', hread, _⟩ := hsame v
  exact ⟨s', m', G', out', h', hdone', hv v s' m' G' out' h' hdone' hread⟩

end Mpsi
