/-
Where a coalition can bring the others. The ends that the parties of `H` can come to are the outcomes whose values
belong together at each of them and which agree on what they have sent to one another (`Outcome.Fits`). Every such
outcome can be reached, and not in one lucky run only: as long as the coalition sends what the outcome has for `H`, no
party of `H` halts, and from every state all of them can come to the outcome's end, in whatever order their threads
have run (`coalition_iff`). Since no check of P0 looks at the arrays of the last phase, one party outside `H` can so make
its GBF anything (`coalition_chooses`).
-/
import Mpsi.Run.Ending
import Mpsi.Protocol.Deciding

namespace Mpsi

open Thread Stream Finset Relation

variable {κ : Type} [DecidableEq κ] {e : Env κ} {H : Finset ℕ} {s t : State κ e.Not} {i : ℕ} {D : Outcome e}

/-- The values of `H` belong together also between its parties, and the functions they have received name strings. -/
structure Outcome.Fits (D : Outcome e) (H : Finset ℕ) : Prop extends D.Among H where
  named : ∀ i ∈ H, StringsNamed e i (D.merged i)

/-- So far the coalition has sent to `H` what the outcome has there. -/
def Outcome.Offers (D : Outcome e) (H : Finset ℕ) (s : State κ e.Not) : Prop :=
  ∀ d : Chan, d.Valid e.parties → d.src ∉ H → d.dst ∈ H → s.sent (d.sock e.parties) <+: D.read d

/-- The parties of `H` are at the outcome's end, and have read what it has for them. -/
def Outcome.EndsAt (D : Outcome e) (H : Finset ℕ) (s : State κ e.Not) : Prop :=
  ∀ i ∈ H, s.proc i = D.final i ∧ ∀ d : Chan, d.Valid e.parties → d.dst = i → s.taken (d.sock e.parties) = D.read d

/-- The streams from the coalition to `H`. -/
def inward (e : Env κ) (H : Finset ℕ) : Finset Chan :=
  (((range e.parties ×ˢ range e.parties) ×ˢ {true, false}).image fun x => ⟨x.1.1, x.1.2, x.2⟩).filter fun d =>
    d.Valid e.parties ∧ d.src ∉ H ∧ d.dst ∈ H

omit [DecidableEq κ] in
theorem mem_inward {d : Chan} : d ∈ inward e H ↔ d.Valid e.parties ∧ d.src ∉ H ∧ d.dst ∈ H := by
  unfold inward
  rw [mem_filter, and_iff_right_iff_imp]
  rintro ⟨hd, -, -⟩
  exact mem_image.2 ⟨((d.src, d.dst), d.main), by simp [hd.src, hd.dst], rfl⟩

/-! ## The parties of `H` keep to the outcome -/

section Fits

variable (F : D.Fits H) (hH : H ⊆ range e.parties)

include F hH

theorem Outcome.Fits.own (hi : i ∈ H) : D.Own i :=
  ⟨mem_range.1 (hH hi), F.merged i hi, F.named i hi, fun h0 => F.lists (h0 ▸ hi)⟩

omit hH in
theorem Outcome.Fits.carried {d : Chan} (hd : d.Valid e.parties) (hsrc : d.src ∈ H) (hdst : d.dst ∈ H) : D.Carried d :=
  carried_of_initial hd (F.merged _ hsrc) (F.merged _ hdst) (fun h0 => F.lists (h0 ▸ hdst)) (F.stream d hd hsrc hdst)

/-- A party that has read so far what the outcome has for it does not halt, and has written what the outcome has. -/
theorem keeps_of_reads (h : CoalitionReaches e H s) (hi : i ∈ H) (hR : Reads D i s.taken) :
    (∀ f, s.proc i ≠ .halted f) ∧ ∀ d : Chan, d.Valid e.parties → d.src = i → s.sent (d.sock e.parties) <+: D.sent d := by
  have hread : Reads D i (s.alone (writer e.parties) (reader e.parties) i).read := by
    intro d hd hdst
    rw [Net.alone_read ((reader_sock hd).trans hdst)]
    exact hR d hd hdst
  obtain ⟨hl, hlead⟩ := leads_of_reaches (F.own hH hi) (party_of_coalition h hi) hread
  obtain ⟨W, R, hrun, hrest⟩ := hlead.run
  refine ⟨hl, fun d hd hsrc => ?_⟩
  -- what it has written stays, and in the end it has written what the outcome has
  have hmono : ∀ u, ReflTransGen (AloneStep (PStep e i)) (s.alone (writer e.parties) (reader e.parties) i) u →
      s.sent (d.sock e.parties) <+: u.wrote (d.sock e.parties) := by
    intro u hu
    induction hu with
    | refl => rw [Net.alone_wrote ((writer_sock hd).trans hsrc)]
    | tail _ hst ih => exact ih.trans (hst.wrote_initial _)
  rw [← ((rest_iff (mem_range.1 (hH hi))).1 hrest).1 d hd hsrc]
  exact hmono _ hrun

/-- And the parties of `H` read what it has for them. -/
theorem reads_of_coalition (h : CoalitionReaches e H s) (hO : D.Offers H s) : ∀ i ∈ H, Reads D i s.taken := by
  induction h with
  | refl => exact fun i _ d _ _ => List.nil_prefix
  | @tail s t hs hst ih =>
    have hle := rcvd_le_of_mixed partyInv_follows (fun _ => partyInv_start) hs
    have hR := ih fun d hd hsrc hdst => (hst.sent_initial _).trans (hO d hd hsrc hdst)
    intro i hi d hd hdst
    by_cases hsrc : d.src ∈ H
    · -- what it has read was written before
      rw [(F.carried hd hsrc (hdst ▸ hi)).all]
      exact (taken_before hle hst _).trans ((keeps_of_reads F hH hs hsrc (hR _ hsrc)).2 d hd rfl)
    · exact (t.taken_initial _).trans (hO d hd hsrc (hdst ▸ hi))

/-- Where the parties of `H` can only wait and the coalition has sent everything, they are at the end. -/
theorem endsAt_of_stopped (h : CoalitionReaches e H s)
    (hO : ∀ d : Chan, d.Valid e.parties → d.src ∉ H → d.dst ∈ H → s.sent (d.sock e.parties) = D.read d)
    (hstop : Reach.Stopped (Step (Own (· ∈ H) (PStep e))) s) : D.EndsAt H s := by
  have hR := reads_of_coalition F hH h fun d hd hsrc hdst => by rw [hO d hd hsrc hdst]
  have hle := rcvd_le_of_mixed partyInv_follows (fun _ => partyInv_start) h
  have hW : ∀ i ∈ H, Waiting D s i := fun i hi => ⟨F.own hH hi, partyInv_of_coalition h hi, hR i hi,
    (keeps_of_reads F hH h hi (hR i hi)).1, fun l p hp => waits_of_stopped hstop hle ⟨hi, hp⟩⟩
  intro i hi
  obtain ⟨m, G, out, hdone⟩ := done_of_waiting hW (fun d hd => F.carried hd) (fun d hd hsrc hdst => by rw [hO d hd hsrc hdst]) hi
  obtain ⟨hinv, ht⟩ := (hW i hi).stands hdone
  refine ⟨hdone.trans ht, fun d hd hdst => ?_⟩
  exact done_read (fun _ => ⟨F.merged i hi, fun h0 => F.lists (h0 ▸ hi)⟩) hinv ht (hR i hi) hd hdst

/-- The coalition sends first what is left to send; then the parties of `H` go on until they stop. -/
theorem exists_endsAt (h : CoalitionReaches e H s) (hO : D.Offers H s) :
    ∃ t, ReflTransGen (Step (Mixed (· ∈ H) (PStep e) (writer e.parties) (reader e.parties))) s t ∧ D.EndsAt H t := by
  obtain ⟨t, hst, hin, -⟩ : ∃ t, ReflTransGen (Step (Mixed (· ∈ H) (PStep e) (writer e.parties) (reader e.parties))) s t ∧
      (∀ c ∈ (inward e H).image (Chan.sock e.parties), t.sent c = onChan e.parties D.read c) ∧
        ∀ c, c ∉ (inward e H).image (Chan.sock e.parties) → t.sent c = s.sent c := by
    apply exists_written
    · intro c hc
      obtain ⟨d, hd, rfl⟩ := mem_image.1 hc
      obtain ⟨hd, hsrc, -⟩ := mem_inward.1 hd
      rwa [writer_sock hd]
    · intro c hc
      obtain ⟨d, hd, rfl⟩ := mem_image.1 hc
      obtain ⟨hd, hsrc, hdst⟩ := mem_inward.1 hd
      rw [onChan_sock hd]
      exact hO d hd hsrc hdst
  have ht : CoalitionReaches e H t := h.trans hst
  obtain ⟨u, htu, hstop⟩ : ∃ u, ReflTransGen (Step (Own (· ∈ H) (PStep e))) t u ∧ Reach.Stopped (Step (Own (· ∈ H) (PStep e))) u :=
    exists_stopped_own (fun _ hi => hi) fun i hi => (partyInv_of_coalition ht hi).acc
  obtain ⟨hu, hsame⟩ := own_run partyInv_follows (fun _ => partyInv_start) ht htu
  refine ⟨u, hst.trans (htu.lift id fun _ _ hst => mixed_of_own hst),
    endsAt_of_stopped F hH hu (fun d hd hsrc hdst => ?_) hstop⟩
  rw [hsame _ (by rwa [writer_sock hd]), hin _ (mem_image_of_mem _ (mem_inward.2 ⟨hd, hsrc, hdst⟩)), onChan_sock hd]

end Fits

/-! ## And no other end is there -/

/-- What the parties of `H` end with fits. -/
theorem fits_of_endsAt (hH : H ⊆ range e.parties) (h : CoalitionReaches e H s) (hend : D.EndsAt H s) : D.Fits H := by
  have hfin : ∀ i ∈ H, ∃ G out, s.proc i = .done (D.merged i) G out ∧
      (G, out) = if i = 0 then (D.total, D.out) else ((D.merged i).sent e i, []) := fun i hi =>
    ⟨_, _, (hend i hi).1.trans (Outcome.final_eq rfl (mem_range.1 (hH hi))), rfl⟩
  have hlast : ∀ i ∈ H, MergedOk e i (D.merged i) ∧ StringsNamed e i (D.merged i) ∧
      (i = 0 → ∀ a, a < e.parties - 1 → (D.lists a).length = e.Nbf) ∧
      ∀ d : Chan, d.Valid e.parties → d.src = i → s.sent (d.sock e.parties) = D.sent d := by
    intro i hi
    obtain ⟨G, out, hdone, hG⟩ := hfin i hi
    obtain ⟨hlt, hm, hn, l, hl, -, hrest⟩ := exists_final (party_of_coalition h hi) hdone
    obtain ⟨hw, hr⟩ := (rest_iff hlt).1 hrest
    refine ⟨hm, hn, fun h0 a ha => ?_, fun d hd hsrc => ?_⟩
    · -- the arrays it has read are those of the outcome
      subst h0
      have hs : a < slots e.parties 0 := by rwa [slots, if_pos rfl]
      have hd := receiverBack_valid hlt hs
      have hread := (hr _ hd rfl).symm.trans ((Net.alone_read (reader_sock hd)).trans ((hend 0 hi).2 _ hd rfl))
      rw [D.read_eq rfl] at hread
      change finalRead e 0 (D.merged 0) l (receiverBack 0 a) = finalRead e 0 (D.merged 0) D.lists (receiverBack 0 a) at hread
      rw [finalRead_receiverBack hs, finalRead_receiverBack hs, List.append_cancel_left_eq, List.append_cancel_left_eq, if_pos rfl,
        if_pos rfl] at hread
      rw [← blks_inj.1 hread]
      exact hl a ha
    · rw [Outcome.sent_eq hG hsrc, ← hw d hd hsrc, Net.alone_wrote ((writer_sock hd).trans hsrc)]
  refine ⟨⟨fun i hi => (hlast i hi).1, fun h0 => (hlast 0 h0).2.2.1 rfl, fun d hd hsrc hdst => ?_⟩, fun i hi => (hlast i hi).2.1⟩
  rw [← (hend d.dst hdst).2 d hd rfl, ← (hlast d.src hsrc).2.2.2 d hd rfl]
  exact s.taken_initial _

/-- The outcome of parties that all follow `main` does. -/
theorem Outcome.Honest.fits (hD : D.Honest) (hH : H ⊆ range e.parties) : D.Fits H :=
  ⟨⟨fun i hi => hD.merged i (mem_range.1 (hH hi)), fun h0 => (hD.at 0 (mem_range.1 (hH h0))).2 rfl, fun d hd _ _ => by rw [hD.stream hd]⟩,
    fun _ hi _ hsrc _ hj => hD.contribution_ok (mem_range.1 (hH hi)) hsrc hj⟩

/-- The outcome in which party `r` has sent P0 the array that makes its GBF in the end equal to `T`. -/
def Outcome.withArray (D : Outcome e) (r : ℕ) (T : ℕ → Block) : Outcome e where
  merged := D.merged
  lists := Function.update D.lists (place 0 r) ((List.range e.Nbf).map fun c =>
    T c + ((D.merged 0).shared c + ∑ a ∈ (range (e.parties - 1)).erase (place 0 r), (D.lists a).getD c 0))

section WithArray

variable {r c : ℕ} {T : ℕ → Block} {d : Chan}

omit [DecidableEq κ] in
theorem total_withArray (hr : r < e.parties) (hr0 : r ≠ 0) (hc : c < e.Nbf) : (D.withArray r T).total c = T c := by
  have ha : place 0 r ∈ range (e.parties - 1) := mem_range.2 (place_lt (by omega) hr hr0)
  have hself : ((D.withArray r T).lists (place 0 r)).getD c 0 =
      T c + ((D.merged 0).shared c + ∑ a ∈ (range (e.parties - 1)).erase (place 0 r), (D.lists a).getD c 0) := by
    simp [Outcome.withArray, hc]
  have hothers : ∑ a ∈ (range (e.parties - 1)).erase (place 0 r), ((D.withArray r T).lists a).getD c 0 =
      ∑ a ∈ (range (e.parties - 1)).erase (place 0 r), (D.lists a).getD c 0 := by
    apply sum_congr rfl
    intro a ha
    simp [Outcome.withArray, ne_of_mem_erase ha]
  rw [Outcome.total, Merged.total, ← add_sum_erase _ _ ha, hself, hothers]
  -- what P0 has by itself and from the others cancels
  change (D.merged 0).shared c + _ = T c
  rw [← add_assoc (T c), XorGroup.add_cancel_right, add_comm (T c), XorGroup.add_cancel_left]

omit [DecidableEq κ] in
/-- On every other stream it is the same. -/
theorem read_withArray (hd : d.Valid e.parties) (hne : d ≠ receiverBack 0 (place 0 r)) : (D.withArray r T).read d = D.read d := by
  obtain ⟨p, q, m⟩ := d
  by_cases h0 : q = 0
  · subst h0
    rcases chan_back_cases hd with ⟨a, ha, he⟩ | ⟨a, ha, he⟩ | ⟨_, _, ht⟩
    · change Chan.mk p 0 m = senderBack 0 a at he
      rw [he, read_senderBack ha, read_senderBack ha]
      rfl
    · change Chan.mk p 0 m = receiverBack 0 a at he
      have hap : a ≠ place 0 r := fun hap => hne (hap ▸ he)
      have hlist : (D.withArray r T).lists a = D.lists a := Function.update_of_ne hap _ _
      rw [he, read_receiverBack ha, read_receiverBack ha, hlist]
      rfl
    · exact absurd rfl ht
  · unfold Outcome.read
    rw [if_neg h0, if_neg h0]
    rfl

theorem Outcome.Fits.withArray (F : D.Fits H) (hr : r ∉ H) (hr0 : r ≠ 0) : (D.withArray r T).Fits H := by
  refine ⟨⟨F.merged, fun h0 a ha => ?_, fun d hd hsrc hdst => ?_⟩, F.named⟩
  · by_cases hap : a = place 0 r
    · subst hap
      simp [Outcome.withArray]
    · have hlist : (D.withArray r T).lists a = D.lists a := Function.update_of_ne hap _ _
      rw [hlist]
      exact F.lists h0 a ha
  · have hne : d ≠ receiverBack 0 (place 0 r) := by
      rintro rfl
      obtain ⟨a, rfl⟩ : ∃ a, r = a + 1 := ⟨r - 1, by omega⟩
      rw [place_zero] at hsrc
      exact hr hsrc
    rw [read_withArray hd hne]
    exact F.stream d hd hsrc hdst

end WithArray

/-- Whatever the parties of `H` have, one party outside chooses with its array alone what P0's GBF is in the end, so that P0
prints the items over whose cells that adds up to zero. -/
theorem coalition_chooses (hH : H ⊆ range e.parties) (h0 : 0 ∈ H) {r : ℕ} (hr : r ∈ coalition e H) (F : D.Fits H) (T : ℕ → Block) :
    ∃ (s : State κ e.Not) (G : ℕ → Block) (out : List ℤ), CoalitionReaches e H s ∧ s.proc 0 = .done (D.merged 0) G out ∧
      (∀ i ∈ H, i ≠ 0 → s.proc i = D.final i) ∧
      (∀ d : Chan, d.Valid e.parties → d.dst ∈ H → d ≠ receiverBack 0 (place 0 r) → s.taken (d.sock e.parties) = D.read d) ∧
      (∀ c, c < e.Nbf → G c = T c) ∧ ∀ x, x ∈ out ↔ x ∈ e.items 0 ∧ ∑ c ∈ itemCells e (D.merged 0) x, T c = 0 := by
  obtain ⟨hrn, hrH⟩ := mem_sdiff.1 hr
  have hr0 : r ≠ 0 := fun hr0 => hrH (hr0 ▸ h0)
  have hpos := mem_range.1 (hH h0)
  obtain ⟨s, hs, hend⟩ := exists_endsAt (F.withArray (T := T) hrH hr0) hH .refl fun d _ _ _ => List.nil_prefix
  have htotal : ∀ c, c < e.Nbf → (D.withArray r T).total c = T c := fun c => total_withArray (mem_range.1 hrn) hr0
  refine ⟨s, (D.withArray r T).total, (D.withArray r T).out, hs, (hend 0 h0).1.trans (Outcome.final_zero _ hpos), fun i hi hi0 => ?_,
    fun d hd hdst hne => ((hend d.dst hdst).2 d hd rfl).trans (read_withArray hd hne), htotal, fun x => ?_⟩
  · have hi' := mem_range.1 (hH hi)
    rw [(hend i hi).1, Outcome.final_pi _ (Nat.pos_of_ne_zero hi0) hi', Outcome.final_pi _ (Nat.pos_of_ne_zero hi0) hi']
    rfl
  · have hm := F.merged 0 h0
    have hiff : x ∈ (D.withArray r T).out ↔ x ∈ e.items 0 ∧ ∑ c ∈ itemCells e (D.merged 0) x, (D.withArray r T).total c = 0 :=
      hm.printed_iff
    rw [hiff]
    apply and_congr_right
    intro hx
    rw [sum_congr rfl fun c hc => htotal c (hm.itemCells_set hx hc).1]

/-- All three parties have the item 0, and the third one chooses whether P0 prints it. -/
theorem coalition_chooses_three :
    (∃ (s : State Block 5) (G : ℕ → Block) (out : List ℤ), CoalitionReaches threeEnv {0, 1} s ∧
      s.proc 0 = .done (threeOutcome.merged 0) G out ∧ (0 : ℤ) ∈ out) ∧
    ∃ (s : State Block 5) (G : ℕ → Block) (out : List ℤ), CoalitionReaches threeEnv {0, 1} s ∧
      s.proc 0 = .done (threeOutcome.merged 0) G out ∧ (0 : ℤ) ∉ out := by
  have F : threeOutcome.Fits {0, 1} := (uniform_honest 3 (fun _ => [0]) fun _ _ => 0).fits (by decide)
  have hcells : itemCells threeEnv (threeOutcome.merged 0) 0 = {0} := rfl
  constructor
  · obtain ⟨s, G, out, hs, hdone, -, -, -, hout⟩ := coalition_chooses (r := 2) (by decide) (by decide) (by decide) F fun _ => 0
    exact ⟨s, G, out, hs, hdone, (hout 0).2 ⟨List.mem_singleton_self 0, sum_const_zero⟩⟩
  · obtain ⟨s, G, out, hs, hdone, -, -, -, hout⟩ := coalition_chooses (r := 2) (by decide) (by decide) (by decide) F fun _ => toBlock 0 1
    refine ⟨s, G, out, hs, hdone, fun hmem => ?_⟩
    have hz := ((hout 0).1 hmem).2
    rw [hcells, sum_singleton] at hz
    exact absurd hz (by decide)

end Mpsi
