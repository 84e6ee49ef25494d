/-
`Party::check_if_to_abort2`: the sender looks the function it has received up in its sub-group, writes what it found
to the receiver and stops the session for an opened position.

Nothing in the program calls it. It would pass the valid functions and no others (`passes_iff_validFunc`), so
that it stops no session of honest parties, whenever it is run (`honest_passes`).
-/
import Mpsi.Apport.Disjoint
import Mpsi.Protocol.Function

namespace Mpsi

open Thread

variable {κ : Type} {Not : ℕ}

/-- `Party::check_if_to_abort2`. -/
def checkIfToAbort2 (sub_group_sender : List ℤ) (Nc_sender : ℤ) (func_sender : List ℤ) (Nbf Not : ℤ) : Proc κ Empty Unit Verdict := do
  let disjoint ← Prog.lift (ifDisjointSets sub_group_sender Nc_sender func_sender Nbf Not)
  if disjoint = 0 then do
    putInts [1]
    pure ⟨1, "part of the function's indexes were in the sub group: session has been stopped"⟩
  else do
    putInts [0]
    pure ⟨0, ""⟩

section Check

variable {cc f : List ℤ} {es : List (Event (Wire κ) Empty Unit)} {v : Verdict}

theorem ends_putInts_pure {l : List ℤ} {w : Verdict} : Ends (putInts l >>= fun _ => pure w : Proc κ Empty Unit Verdict) es v ↔
    es = [.out (ints l)] ∧ v = w := by
  rw [ends_putInts]
  constructor
  · rintro ⟨es', rfl, h⟩
    obtain ⟨rfl, rfl⟩ := ends_ret.1 h
    exact ⟨rfl, rfl⟩
  · rintro ⟨rfl, rfl⟩
    exact ⟨[], rfl, ends_ret.2 ⟨rfl, rfl⟩⟩

/-- It returns when `if_disjoint_sets` does, and the receiver reads what it returns. -/
theorem ends_checkIfToAbort2 {Ncc Nbf Not : ℤ} : Ends (checkIfToAbort2 cc Ncc f Nbf Not) es v ↔
    ∃ disjoint, ifDisjointSets cc Ncc f Nbf Not = .ok disjoint ∧ es = [.out (ints [(v.code : ℤ)])] ∧
      v = if disjoint = 0 then ⟨1, "part of the function's indexes were in the sub group: session has been stopped"⟩
        else ⟨0, ""⟩ := by
  unfold checkIfToAbort2
  rw [ends_lift_bind]
  refine exists_congr fun disjoint => and_congr_right fun _ => ?_
  split
  · rw [ends_putInts_pure]
    exact and_congr_left fun hv => by rw [hv]; rfl
  · rw [ends_putInts_pure]
    exact and_congr_left fun hv => by rw [hv]; rfl

/-- It returns 0 for the answer 1 of `if_disjoint_sets`. -/
theorem checkIfToAbort2_code {Ncc Nbf Not disjoint : ℤ} (hd : ifDisjointSets cc Ncc f Nbf Not = .ok disjoint)
    (h : Ends (checkIfToAbort2 cc Ncc f Nbf Not) es v) : es = [.out (ints [(v.code : ℤ)])] ∧ (v.code = 0 ↔ disjoint ≠ 0) := by
  obtain ⟨d, hd', hes, hv⟩ := ends_checkIfToAbort2.1 h
  obtain rfl := Except.ok.inj (hd.symm.trans hd')
  refine ⟨hes, ?_⟩
  rw [hv]
  split <;> simp [*]

/-- For entries in the range: `if_disjoint_sets` answers 1 for disjoint arrays and 0 for others, and the check
returns and lets the function pass exactly when it avoids the sub-group. -/
theorem ifDisjointSets_spec (hcc : ∀ c ∈ cc, 0 ≤ c ∧ c < (Not : ℤ)) (hf : ∀ k ∈ f, 0 ≤ k ∧ k < (Not : ℤ)) :
    ((∀ k ∈ f, k ∉ cc) → ifDisjointSets cc cc.length f f.length Not = .ok 1) ∧
      ((∃ k ∈ f, k ∈ cc) → ifDisjointSets cc cc.length f f.length Not = .ok 0) ∧
      (∃ es v, Ends (checkIfToAbort2 (κ := κ) cc cc.length f f.length Not) es v) ∧
      ∀ es v, Ends (checkIfToAbort2 (κ := κ) cc cc.length f f.length Not) es v →
        es = [.out (ints [(v.code : ℤ)])] ∧ (v.code = 0 ↔ ∀ k ∈ f, k ∉ cc) := by
  have hd := ifDisjointSets_eq hcc hf
  refine ⟨fun h => ?_, fun h => ?_, ⟨_, _, ends_checkIfToAbort2.2 ⟨_, hd, rfl, rfl⟩⟩, fun es v hends => ?_⟩
  · rw [hd, if_neg]
    rintro ⟨k, hk, hmem⟩
    exact h k hk hmem
  · rw [hd, if_pos h]
  · obtain ⟨hes, hcode⟩ := checkIfToAbort2_code hd hends
    refine ⟨hes, hcode.trans ?_⟩
    by_cases h : ∃ k ∈ f, k ∈ cc
    · simp [h]
    · rw [if_neg h]
      simpa using h

/-- Arrays with repeated entries, and an empty one. -/
theorem ifDisjointSets_spec_repeated : ifDisjointSets [3, 0, 3] 3 [2, 1, 2] 3 4 = .ok 1 ∧
    ifDisjointSets [3, 0, 3] 3 [2, 3, 3] 3 4 = .ok 0 ∧ ifDisjointSets [] 0 [2, 3, 3] 3 4 = .ok 1 ∧
    ∃ es v, Ends (checkIfToAbort2 (κ := Block) [3, 0, 3] 3 [2, 3, 3] 3 4) es v ∧ v.code ≠ 0 := by
  have h1 := @ifDisjointSets_spec Block 4 [3, 0, 3] [2, 1, 2] (by decide) (by decide)
  have h2 := @ifDisjointSets_spec Block 4 [3, 0, 3] [2, 3, 3] (by decide) (by decide)
  have h3 := @ifDisjointSets_spec Block 4 [] [2, 3, 3] (by decide) (by decide)
  obtain ⟨es, v, hends⟩ := h2.2.2.1
  refine ⟨h1.1 (by decide), h2.2.1 (by decide), h3.1 (by decide), es, v, hends, fun hcode => ?_⟩
  exact absurd ((h2.2.2.2 es v hends).2.1 hcode) (by decide)

end Check

/-! ## The functions that pass -/

/-- The sender of this sub-group would go on with the function. -/
def Passes (κ : Type) (C : SubGroup Not) (f : List ℤ) : Prop :=
  ∃ es v, Ends (checkIfToAbort2 (κ := κ) (ofNats C.elems) C.size f f.length Not) es v ∧ v.code = 0

theorem elems_inPlaces (C : SubGroup Not) : ∀ c ∈ ofNats C.elems, InPlaces Not c := by
  intro c hc
  obtain ⟨t, ht, rfl⟩ := mem_ofNats.1 hc
  exact ⟨by omega, by exact_mod_cast C.lt t ht⟩

/-- Whatever array was received: the check passes the valid ones and no others. -/
theorem passes_iff_validFunc {C : SubGroup Not} {f : List ℤ} : Passes κ C f ↔ ValidFunc C f := by
  have hlen : (C.size : ℤ) = (ofNats C.elems).length := by rw [length_ofNats]; rfl
  unfold Passes ValidFunc
  rw [hlen]
  constructor
  · rintro ⟨es, v, hends, hcode⟩
    obtain ⟨d, hd, _⟩ := ends_checkIfToAbort2.1 hends
    have hne := (checkIfToAbort2_code hd hends).2.1 hcode
    -- the answer is 0 or 1
    have hone : d = 1 := by
      rw [ifDisjointSets_run] at hd
      split at hd
      · cases hd
        split at hne
        · exact absurd rfl hne
        · exact if_neg ‹_›
      · cases hd
    rw [hone, ifDisjointSets_one_iff] at hd
    intro k hk
    obtain ⟨hin, hmem⟩ := hd.2 k hk
    exact ⟨hin.1, hin.2, hmem⟩
  · intro h
    have hd := ifDisjointSets_one_iff.2 ⟨elems_inPlaces C, fun k hk => ⟨⟨(h k hk).1, (h k hk).2.1⟩, (h k hk).2.2⟩⟩
    exact ⟨_, _, ends_checkIfToAbort2.2 ⟨1, hd, rfl, rfl⟩, rfl⟩

/-! ## Honest parties -/

theorem IndexFunc.validFunc {C : SubGroup Not} {b BF : List Bool} {f : List ℤ} (h : IndexFunc C b BF f) : ValidFunc C f := by
  intro k hk
  obtain ⟨j, hj⟩ := List.mem_iff_getElem?.1 hk
  have hlt : j < BF.length := by
    rw [← h.length]
    exact (List.getElem?_eq_some_iff.1 hj).1
  obtain ⟨t, ht, hN, hC, _⟩ := h.entry j hlt
  obtain rfl := Option.some.inj (hj.symm.trans ht)
  refine ⟨by omega, by exact_mod_cast hN, ?_⟩
  rw [mem_ofNats]
  rintro ⟨u, hu, heq⟩
  obtain rfl : u = t := by exact_mod_cast heq
  exact hC hu

variable [DecidableEq κ] {e : Env κ} {D : Outcome e} {i a : ℕ}

/-- What a sender has in the end: the function its receiver made for the same sub-group. -/
theorem Outcome.Honest.validFunc (hD : D.Honest) (hi : i < e.parties) (ha : a < slots e.parties i) :
    ValidFunc ((D.merged i).sender a).sub_group ((D.merged i).func_sender a) := by
  obtain ⟨h1, h2, h3, h4⟩ := inst_peer hi ha
  have hfunc := hD.func _ _ h1 h2
  have hsub := hD.sub_group _ _ h1 h2
  rw [h3, h4] at hfunc hsub
  -- both ends have drawn the sub-group from one seed
  have hrecv := ((hD.merged _ h1).receiver _ h2).sub_group
  rw [hsub.1, hsub.2, Int.toNat_natCast, ((hD.merged i hi).sender a ha).sub_group] at hrecv
  rw [hfunc, Except.ok.inj hrecv]
  exact (indexFunc_of_merged (hD.merged _ h1) h2).validFunc

variable {s : State κ e.Not} {C : SubGroup e.Not} {f : List ℤ}

/-- The sub-group and the function of a sender on the way there. -/
theorem sender_of_reaches (hD : D.Honest) (h : HonestReaches e s) (hC : (s.proc i).sub_group_sender a = some C)
    (hf : (s.proc i).func_sender a = some f) :
    i < e.parties ∧ C = ((D.merged i).sender a).sub_group ∧ f = (D.merged i).func_sender a := by
  obtain ⟨K⟩ := exists_plan hD
  have hinv := (partyInv_of_reaches h).inv i
  obtain ⟨hR, ht⟩ := tracks_of_reaches hD h i
  have hplan := planned_of_tracks K hD hinv hR ht
  generalize s.proc i = p at hinv ht hplan hC hf
  have hend : ∀ m : Merged κ e.Not, m = D.merged i → (m.sender a).sub_group = C → m.func_sender a = f →
      C = ((D.merged i).sender a).sub_group ∧ f = (D.merged i).func_sender a := by
    rintro m rfl rfl rfl
    exact ⟨rfl, rfl⟩
  cases p with
  | keys | agree | offline | bloom | halted | idle => cases hC
  | online b P pipe =>
    obtain ⟨hi, _, hth, _⟩ := hinv
    obtain rfl : b = _ := ht
    cases hC
    -- a thread that has returned is at the end of its script
    unfold Party.func_sender at hf
    dsimp only at hf
    split at hf
    · rename_i hret
      cases hf
      exact ⟨hi, rfl, (online_returned (hD.merged i hi) hi hth hplan hret).2 a rfl⟩
    · cases hf
  | collect m P => exact ⟨hinv.1, hend m ht (Option.some.inj hC) (Option.some.inj hf)⟩
  | sending m G => exact ⟨hinv.1, hend m ht (Option.some.inj hC) (Option.some.inj hf)⟩
  | done m G out => exact ⟨hinv.1, hend m (tracks_done hinv.1 ht).1 (Option.some.inj hC) (Option.some.inj hf)⟩

/-- In every state of every run of honest parties the check passes the function of every sender. -/
theorem honest_passes (hD : D.Honest) (h : HonestReaches e s) (ha : a < slots e.parties i)
    (hC : (s.proc i).sub_group_sender a = some C) (hf : (s.proc i).func_sender a = some f) : Passes κ C f := by
  obtain ⟨hi, rfl, rfl⟩ := sender_of_reaches hD h hC hf
  exact passes_iff_validFunc.2 (hD.validFunc hi ha)

end Mpsi
