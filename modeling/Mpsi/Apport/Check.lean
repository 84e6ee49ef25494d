/-
The sender's part of the cut-and-choose step: `recv_R` takes a count, a list of positions and a
block from the receiver, and `check_if_to_abort1` compares the count with the size of the sub-group
and the block with the exclusive or of the listed 0-strings (`compute_r`).

`checkIfToAbort1_sound_iff` says for which lists of a receiver an accepted message means what the
check is for: neither that the entries differ nor that they lie in the sub-group is looked at.
-/
import Mpsi.Apport.SubGroup

namespace Mpsi

/-- What a receiver sends after `compute_R_r`, as `recv_R` reads it. -/
structure RMessage where
  Nr : ℤ
  R : List ℤ
  r : Block
  len : R.length = Nr.toNat

/-- `functions::compute_r`: the first index is read before the loop, also when there is none. -/
def computeR (out : Option Outside) (strings : List (Block × Block)) (indexes : List ℤ) (indexes_size : ℤ) :
    Except Fault Block := do
  let i₀ ← readAt (out.map Outside.ints) indexes 0
  let s₀ ← readAt (out.map Outside.pairs) strings i₀
  (List.range' 1 (indexes_size.toNat - 1)).foldlM (fun r (i : ℕ) => do
    let k ← readAt (out.map Outside.ints) indexes i
    let s ← readAt (out.map Outside.pairs) strings k
    pure (r ^^^ s.1)) s₀.1

/-- `Party::check_if_to_abort1`. -/
def checkIfToAbort1 (out : Option Outside) (Nc_sender maxOnes : ℤ) (strings : List (Block × Block)) (msg : RMessage) :
    Except Fault Verdict :=
  if Nc_sender - msg.Nr > maxOnes then
    .ok ⟨1, "Ncc-Nr>Nmaxones: session has been stopped"⟩
  else do
    let r1 ← computeR out strings msg.R msg.Nr
    if r1 ≠ msg.r then
      .ok ⟨1, "r* is not OK: session has been stopped"⟩
    else
      .ok ⟨0, ""⟩

/-- `Party::recv_R`, whose array has the size the receiver names, and the check. -/
def recvRChecked (out : Option Outside) (Nc_sender maxOnes : ℤ) (strings : List (Block × Block)) (msg : RMessage) :
    Except Fault Verdict := do
  newArray msg.Nr
  checkIfToAbort1 out Nc_sender maxOnes strings msg

/-- The check accepts the message. -/
def Accepts (out : Option Outside) (Nc_sender maxOnes : ℤ) (strings : List (Block × Block)) (msg : RMessage) : Prop :=
  ∃ v, recvRChecked out Nc_sender maxOnes strings msg = .ok v ∧ v.code = 0

section ComputeR

variable {out : Option Outside} {strings : List (Block × Block)} {g : ℤ → Block × Block}

theorem foldlM_computeR : ∀ (l : List ℤ) (r₀ : Block),
    (∀ k ∈ l, readAt (out.map Outside.pairs) strings k = .ok (g k)) →
    l.foldlM (fun r k => do
      let s ← readAt (out.map Outside.pairs) strings k
      pure (r ^^^ s.1)) r₀ = (.ok (r₀ + (l.map fun k => (g k).1).sum) : Except Fault Block)
  | [], r₀, _ => by simp; rfl
  | k :: l, r₀, h => by
    rw [List.foldlM_cons, h k (List.mem_cons_self ..)]
    have := foldlM_computeR l (r₀ + (g k).1) fun k' hk' => h k' (List.mem_cons_of_mem _ hk')
    simpa [add_assoc] using this

/-- On a list with a first entry `compute_r` is a loop over the list. -/
theorem computeR_cons (k₀ : ℤ) (l : List ℤ) :
    computeR out strings (k₀ :: l) (k₀ :: l).length = (do
      let s₀ ← readAt (out.map Outside.pairs) strings k₀
      l.foldlM (fun r k => do
        let s ← readAt (out.map Outside.pairs) strings k
        pure (r ^^^ s.1)) s₀.1) := by
  have h0 : readAt (out.map Outside.ints) (k₀ :: l) 0 = .ok k₀ := readAt_nat 0 (by simp)
  unfold computeR
  rw [h0, ok_bind]
  congr 1
  funext s₀
  have hloop := foldlM_readAt (out.map Outside.ints) (k₀ :: l)
    (g := fun r k => do
      let s ← readAt (out.map Outside.pairs) strings k
      pure (r ^^^ s.1))
    (f := fun r (i : ℕ) => do
      let k ← readAt (out.map Outside.ints) (k₀ :: l) i
      let s ← readAt (out.map Outside.pairs) strings k
      pure (r ^^^ s.1)) (fun _ _ => rfl) l [k₀] s₀.1 rfl
  rw [List.length_singleton] at hloop
  rw [show ((k₀ :: l).length : ℤ).toNat - 1 = l.length by simp, hloop]

/-- The exclusive or over a non-empty list, where each of its entries can be read. -/
theorem computeR_eq {R : List ℤ} (hR : R ≠ []) (h : ∀ k ∈ R, readAt (out.map Outside.pairs) strings k = .ok (g k)) :
    computeR out strings R R.length = .ok ((R.map fun k => (g k).1).sum) := by
  obtain ⟨k₀, l, rfl⟩ := List.exists_cons_of_ne_nil hR
  rw [computeR_cons, h k₀ (List.mem_cons_self ..), ok_bind,
    foldlM_computeR l _ fun k hk => h k (List.mem_cons_of_mem _ hk), List.map_cons, List.sum_cons]

end ComputeR

/-! ## Which messages keep the check inside its arrays -/

/-- `strings[k]` exists. -/
def InStrings (strings : List (Block × Block)) (k : ℤ) : Prop := 0 ≤ k ∧ k < strings.length

section Safe

variable {strings : List (Block × Block)}

theorem readAt_inStrings {k : ℤ} (h : InStrings strings k) : ∃ s, readAt none strings k = .ok s := by
  obtain ⟨h0, h1⟩ := h
  have hlt : k.toNat < strings.length := by omega
  exact ⟨_, readAt_of_range h0 hlt⟩

theorem foldlM_safe_iff : ∀ (l : List ℤ) (r₀ : Block),
    l.foldlM (fun r k => do
      let s ← readAt none strings k
      pure (r ^^^ s.1)) r₀ ≠ (.error .outOfRange : Except Fault Block) ↔ ∀ k ∈ l, InStrings strings k
  | [], r₀ => ⟨fun _ _ hk => (nomatch hk), fun _ h => (nomatch h)⟩
  | k :: l, r₀ => by
    rw [List.foldlM_cons, List.forall_mem_cons]
    by_cases hk : InStrings strings k
    · obtain ⟨s, hs⟩ := readAt_inStrings hk
      rw [hs]
      exact (foldlM_safe_iff l _).trans (and_iff_right hk).symm
    · rw [readAt_none_outside hk]
      exact ⟨fun h => absurd rfl h, fun h => absurd h.1 hk⟩

/-- `compute_r` reads its first index before the loop, and every index is used as it came. -/
theorem computeR_safe_iff (R : List ℤ) :
    computeR none strings R R.length ≠ .error .outOfRange ↔ R ≠ [] ∧ ∀ k ∈ R, InStrings strings k := by
  cases R with
  | nil => exact ⟨fun h => absurd rfl h, fun h => absurd rfl h.1⟩
  | cons k₀ l =>
    rw [computeR_cons, List.forall_mem_cons]
    by_cases hk : InStrings strings k₀
    · obtain ⟨s, hs⟩ := readAt_inStrings hk
      simp only [Option.map_none, hs, ok_bind]
      rw [foldlM_safe_iff]
      exact ⟨fun h => ⟨List.cons_ne_nil _ _, hk, h⟩, fun h => h.2.2⟩
    · simp only [Option.map_none, readAt_none_outside hk, error_bind]
      exact ⟨fun h => absurd rfl h, fun h => absurd h.2.1 hk⟩

/-- The check of a received message stays inside its arrays exactly when the count ends it before it
reads, or the message has an entry and all entries are indices of the strings. -/
theorem recvRChecked_safe_iff (Nc_sender maxOnes : ℤ) (strings : List (Block × Block)) (msg : RMessage) :
    recvRChecked none Nc_sender maxOnes strings msg ≠ .error .outOfRange ↔
      msg.Nr < 0 ∨ maxOnes < Nc_sender - msg.Nr ∨
        (1 ≤ msg.Nr ∧ ∀ k ∈ msg.R, 0 ≤ k ∧ k < strings.length) := by
  have hlen := msg.len
  by_cases hneg : msg.Nr < 0
  · -- the array cannot be allocated and nothing is read
    unfold recvRChecked
    rw [newArray, if_pos hneg]
    exact ⟨fun _ => Or.inl hneg, fun _ h => (nomatch h)⟩
  unfold recvRChecked
  rw [newArray_ok.2 (not_lt.1 hneg), ok_bind, checkIfToAbort1]
  by_cases hc : Nc_sender - msg.Nr > maxOnes
  · rw [if_pos hc]
    exact ⟨fun _ => Or.inr (Or.inl hc), fun _ h => (nomatch h)⟩
  rw [if_neg hc]
  have hNr : msg.Nr = msg.R.length := by omega
  -- what comes after the sum is no read
  have hsafe : ((do
      let r1 ← computeR none strings msg.R msg.Nr
      if r1 ≠ msg.r then .ok ⟨1, "r* is not OK: session has been stopped"⟩ else .ok ⟨0, ""⟩ : Except Fault Verdict)) ≠
        .error .outOfRange ↔ computeR none strings msg.R msg.R.length ≠ .error .outOfRange := by
    rw [hNr]
    cases computeR none strings msg.R msg.R.length with
    | error f => rw [error_bind, Ne, Ne, Except.error.injEq, Except.error.injEq]
    | ok r1 =>
      rw [ok_bind]
      refine ⟨fun _ h => (nomatch h), fun _ => ?_⟩
      split <;> exact fun h => (nomatch h)
  rw [hsafe, computeR_safe_iff, Ne, ← List.length_eq_zero_iff]
  constructor
  · rintro ⟨hne, hin⟩
    exact Or.inr (Or.inr ⟨by omega, hin⟩)
  · rintro (h | h | ⟨h1, hin⟩)
    · exact absurd h hneg
    · exact absurd h hc
    · exact ⟨by omega, hin⟩

/-- The honest message of a receiver whose opened position has bit 1: the list is empty, the count
allows it, and `indexes[0]` is read. -/
theorem recvRChecked_unsafe : recvRChecked none 1 1 [(0, 0)] ⟨0, [], 0, rfl⟩ = .error .outOfRange := rfl

end Safe

/-! ## What an accepted message should mean -/

/-- `strings[k][0]`. -/
def zeroString (strings : List (Block × Block)) (k : ℤ) : Block := (strings.getD k.toNat (0, 0)).1

/-- What the sender wants to know of an accepted message: the list names enough different positions
of the sub-group, and their 0-strings make up `r`. -/
structure SoundCut (C : List ℕ) (maxOnes : ℤ) (strings : List (Block × Block)) (msg : RMessage) : Prop where
  distinct : msg.R.Nodup
  inside : ∀ k ∈ msg.R, k ∈ ofNats C
  enough : (C.length : ℤ) - maxOnes ≤ msg.R.length
  xor : msg.r = ∑ k ∈ msg.R.toFinset, zeroString strings k
  covered : ((C.filter fun c : ℕ => (c : ℤ) ∉ msg.R).length : ℤ) ≤ maxOnes

theorem peek_zeroString {f : ℤ → Block × Block} {strings : List (Block × Block)} {k : ℕ} (hk : k < strings.length) :
    (peek f strings k).1 = zeroString strings k := by
  simp [peek_nat hk, zeroString, hk]

/-- The members of `C` that a duplicate-free list of members leaves out. -/
theorem length_filter_not_mem {C : List ℕ} (hC : C.Nodup) {R : List ℤ} (hR : R.Nodup) (hsub : ∀ k ∈ R, k ∈ ofNats C) :
    (C.filter fun c : ℕ => (c : ℤ) ∉ R).length + R.length = C.length := by
  have hin : (C.filter fun c : ℕ => (c : ℤ) ∈ R).length = R.length := by
    rw [← length_ofNats]
    refine ((List.perm_ext_iff_of_nodup ?_ hR).2 fun k => ?_).length_eq
    · exact (hC.filter _).map Nat.cast_injective
    · simp only [mem_ofNats, List.mem_filter, decide_eq_true_eq]
      constructor
      · rintro ⟨c, ⟨_, h⟩, rfl⟩; exact h
      · intro h
        obtain ⟨c, hc, rfl⟩ := mem_ofNats.1 (hsub k h)
        exact ⟨c, ⟨hc, h⟩, rfl⟩
  have := List.length_eq_length_filter_add (l := C) fun c : ℕ => decide ((c : ℤ) ∈ R)
  simp only [← decide_not] at this
  omega

section Sound

variable {strings : List (Block × Block)} {C : SubGroup strings.length} {maxOnes : ℤ} {msg : RMessage} {o : Outside}

theorem accepts_iff (hR : msg.R ≠ []) : Accepts (some o) C.size maxOnes strings msg ↔
    (C.size : ℤ) - msg.Nr ≤ maxOnes ∧ msg.r = (msg.R.map fun k => (peek o.pairs strings k).1).sum := by
  have hlen := msg.len
  have hpos : 0 < msg.R.length := List.length_pos_iff.2 hR
  have hNr : (msg.R.length : ℤ) = msg.Nr := by omega
  have hr : computeR (some o) strings msg.R msg.R.length = .ok (msg.R.map fun k => (peek o.pairs strings k).1).sum :=
    computeR_eq hR fun k _ => readAt_peek o.pairs strings k
  rw [hNr] at hr
  simp only [Accepts, recvRChecked, newArray_ok.2 (by omega : 0 ≤ msg.Nr), ok_bind, checkIfToAbort1, hr]
  by_cases hc : (C.size : ℤ) - msg.Nr > maxOnes
  · rw [if_pos hc]
    simp [not_le.2 hc]
  · rw [if_neg hc]
    by_cases hm : (msg.R.map fun k => (peek o.pairs strings k).1).sum = msg.r
    · simp only [hm, ne_eq, not_true_eq_false, if_false, and_true]
      exact ⟨fun _ => not_lt.1 hc, fun _ => ⟨_, rfl, rfl⟩⟩
    · simp [hm, Ne.symm hm]

/-- Different members of the sub-group: the exclusive or over the list is the one over the set. -/
theorem soundCut_of_good (hnd : msg.R.Nodup) (hsub : ∀ k ∈ msg.R, k ∈ ofNats C.elems) (hR : msg.R ≠ [])
    (h : Accepts (some o) C.size maxOnes strings msg) : SoundCut C.elems maxOnes strings msg := by
  obtain ⟨hc, hr⟩ := (accepts_iff hR).1 h
  have hlen := msg.len
  have hpos : 0 < msg.R.length := List.length_pos_iff.2 hR
  have hcov := length_filter_not_mem C.nodup hnd hsub
  have hsz : C.size = C.elems.length := rfl
  refine ⟨hnd, hsub, by omega, ?_, by omega⟩
  rw [hr, List.sum_toFinset _ hnd]
  refine congrArg List.sum (List.map_congr_left fun k hk => ?_)
  obtain ⟨c, hc, rfl⟩ := mem_ofNats.1 (hsub k hk)
  exact peek_zeroString (C.lt c hc)

end Sound

/-- Without an entry, `compute_r` reads in front of both arrays. -/
theorem accepts_filled {strings : List (Block × Block)} {Nc maxOnes : ℤ} {msg : RMessage} (hR : msg.R = [])
    (hNr : msg.Nr = 0) (hc : Nc - msg.Nr ≤ maxOnes) :
    Accepts (some (Outside.filled msg.r)) Nc maxOnes strings msg := by
  have h1 : readAt ((some (Outside.filled msg.r)).map Outside.ints) [] 0 = .ok (-1) := readAt_outside (by simp)
  have h2 : readAt ((some (Outside.filled msg.r)).map Outside.pairs) strings (-1) = .ok (msg.r, 0) :=
    readAt_outside (by simp)
  refine ⟨⟨0, ""⟩, ?_, rfl⟩
  have hr : computeR (some (Outside.filled msg.r)) strings msg.R msg.Nr = .ok msg.r := by
    rw [computeR, hR, hNr, h1, ok_bind, h2, ok_bind]; rfl
  unfold recvRChecked
  rw [newArray_ok.2 (by omega), ok_bind, checkIfToAbort1, if_neg (by omega), hr, ok_bind, if_neg (by simp)]

/-- Whatever lies around the arrays and whatever block a receiver adds to a list of positions, an
accepted message is sound: this holds exactly when the count refuses the list, or it is a non-empty
list of different members of the sub-group. -/
theorem checkIfToAbort1_sound_iff (strings : List (Block × Block)) (C : SubGroup strings.length) (maxOnes : ℤ)
    (msg : RMessage) :
    (∀ (o : Outside) (r : Block), Accepts (some o) C.size maxOnes strings { msg with r := r } →
        SoundCut C.elems maxOnes strings { msg with r := r }) ↔
      msg.Nr < 0 ∨ maxOnes < C.size - msg.Nr ∨ (msg.R ≠ [] ∧ msg.R.Nodup ∧ ∀ k ∈ msg.R, k ∈ ofNats C.elems) := by
  have hlen := msg.len
  constructor
  · intro h
    by_cases hneg : msg.Nr < 0
    · exact Or.inl hneg
    by_cases hc : maxOnes < C.size - msg.Nr
    · exact Or.inr (Or.inl hc)
    refine Or.inr (Or.inr ?_)
    have hne : msg.R ≠ [] := by
      intro hR
      -- the block sent is the one that lies in front of the strings
      have hNr : msg.Nr = 0 := by rw [hR] at hlen; simp at hlen; omega
      have hs := h (.filled (toBlock 0 1)) (toBlock 0 1) (accepts_filled hR hNr (not_lt.1 hc))
      exact absurd hs.xor (by simp [hR]; decide)
    refine ⟨hne, ?_⟩
    have hacc : Accepts (some (.filled 0)) C.size maxOnes strings
        { msg with r := (msg.R.map fun k => (peek (Outside.filled 0).pairs strings k).1).sum } := by
      refine (accepts_iff ?_).2 ⟨not_lt.1 hc, rfl⟩
      exact hne
    have hs := h _ _ hacc
    exact ⟨hs.distinct, hs.inside⟩
  · rintro (hneg | hc | ⟨hne, hnd, hsub⟩) o r ⟨v, hv, hcode⟩
    · unfold recvRChecked at hv
      rw [newArray, if_pos hneg] at hv
      cases hv
    · obtain ⟨_, _, hv⟩ := bind_ok hv
      unfold checkIfToAbort1 at hv
      rw [if_pos hc] at hv
      cases hv; cases hcode
    · exact soundCut_of_good hnd hsub hne ⟨v, hv, hcode⟩

/-- A receiver passes with one position outside the sub-group, of which nothing is then checked. -/
theorem checkIfToAbort1_unsound : ∃ (strings : List (Block × Block)) (C : SubGroup strings.length) (maxOnes : ℤ)
    (msg : RMessage), (∀ o, Accepts (some o) C.size maxOnes strings msg) ∧ ¬ SoundCut C.elems maxOnes strings msg := by
  refine ⟨[(0, 0), (0, 0)], ⟨OrdSet.insert 0 .empty, by decide⟩, 0, ⟨1, [1], 0, rfl⟩, fun o => ⟨⟨0, ""⟩, rfl, rfl⟩, ?_⟩
  intro h
  exact absurd (h.inside 1 (by decide)) (by decide)

end Mpsi
