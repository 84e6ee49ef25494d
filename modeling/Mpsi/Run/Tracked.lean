/-
Runs with a known honest outcome: a party that has read what the outcome has for it has the outcome's
values (`tracks_of_inv`), does not end its run by a fault, and writes what the outcome says. So every
run of the parties stays on the outcome's streams (`expected_of_honest`), and a complete one ends in it
(`final_of_complete`).
-/
import Mpsi.Run.Plan

namespace Mpsi

open Thread Stream

variable {κ : Type} {e : Env κ} {i : ℕ} {W R : Sock → List (Atom κ)} {D : Outcome e}

/-! ## The values of a party on its way -/

theorem offlineRead_initial (D : Outcome e) (d : Chan) : offlineRead e d.dst (D.merged d.dst).toOpened d <+: D.read d := by
  unfold Outcome.read
  split
  · rename_i h0
    rw [h0, endRead, onlineRead, List.append_assoc]
    exact List.prefix_append _ _
  · exact List.prefix_append _ _

theorem onlineRead_initial (D : Outcome e) (d : Chan) : onlineRead e d.dst (D.merged d.dst) d <+: D.read d := by
  unfold Outcome.read
  split
  · rename_i h0
    rw [h0]
    exact List.prefix_append _ _
  · exact List.prefix_rfl

theorem keysRead_initial (D : Outcome e) {d : Chan} (hs : d.dst = i) : keysRead i (D.merged i).keys_recv d <+: D.read d := by
  subst hs
  exact (List.prefix_append _ _).trans (agreeRead_initial D d)

theorem onlineSent_initial (D : Outcome e) {d : Chan} (hs : d.src = i) : onlineSent e i (D.merged i) d <+: D.sent d := by
  subst hs
  unfold Outcome.sent
  split
  · rename_i h0
    rw [h0]
  · exact List.prefix_append _ _

theorem offlineSent_prefix_sent (D : Outcome e) {d : Chan} (hs : d.src = i) :
    offlineSent e i (D.merged i).toOpened d <+: D.sent d := (offlineSent_initial d).trans (onlineSent_initial D hs)

/-- What party `i` has read so far is what the outcome has for it. -/
def Reads (D : Outcome e) (i : ℕ) (R : Sock → List (Atom κ)) : Prop :=
  ∀ d : Chan, d.Valid e.parties → d.dst = i → R (d.sock e.parties) <+: D.read d

/-- A phase reads a part of what the outcome has on the streams. -/
theorem Reads.onChan (h : Reads D i R) (hi : i < e.parties) {f : Chan → List (Atom κ)}
    (hf : ∀ d : Chan, d.dst = i → f d <+: D.read d) (c : Sock) (hc : reader e.parties c = i) :
    ∃ l, R c <+: onChan e.parties f c ++ l := by
  obtain ⟨d, hd, hs, rfl⟩ := exists_reader hi hc
  obtain ⟨l, hl⟩ := hf d hs
  refine ⟨l, ?_⟩
  rw [onChan_sock hd, hl]
  exact h d hd hs

theorem total_congr {m : Merged κ e.Not} {l l' : ℕ → List Block} (h : ∀ a, a < e.parties - 1 → l a = l' a) :
    m.total e l = m.total e l' := by
  funext c
  unfold Merged.total
  rw [Finset.sum_congr rfl fun a ha => by rw [h a (Finset.mem_range.1 ha)]]

variable [DecidableEq κ]

/-- For player `i` the outcome has values that belong together, and P0's arrays have their length. -/
def Outcome.At (D : Outcome e) (i : ℕ) : Prop :=
  i < e.parties → MergedOk e i (D.merged i) ∧ (i = 0 → ∀ a, a < e.parties - 1 → (D.lists a).length = e.Nbf)

theorem Outcome.Honest.at (hD : D.Honest) (i : ℕ) : D.At i := fun hi =>
  ⟨hD.merged i hi, fun _ a ha => by rw [hD.lists a ha, List.length_map, List.length_range]⟩

/-- The party has the values of the outcome as far as it has come. -/
def Tracks (D : Outcome e) (i : ℕ) : Party κ e.Not → Prop
  | .keys _ => True
  | .agree kr _ => kr = (D.merged i).keys_recv
  | .offline g _ => g = (D.merged i).toAgreed
  | .bloom o _ => o = (D.merged i).toOpened
  | .online b _ _ => b = (D.merged i).toFiltered
  | .collect m _ => m = D.merged i
  | .sending m _ => m = D.merged i
  | .done m G out => Party.done m G out = D.final i
  | .halted _ => False
  | .idle => True

theorem opened_of_reads (hD : MergedOk e i (D.merged i)) (hi : i < e.parties) {o : Opened κ e.Not} (ho : OpenedOk e i o)
    (h : ∀ d, d.Valid e.parties → d.dst = i → offlineRead e i o d <+: D.read d) : o = (D.merged i).toOpened := by
  apply opened_unique hi ho hD.toOpenedOk
  intro d hd hs
  obtain ⟨v, hv⟩ := offlineRead_initial D d
  rw [hs] at hv
  exact ⟨v, by rw [hv]; exact h d hd hs⟩

theorem merged_of_reads (hD : MergedOk e i (D.merged i)) (hi : i < e.parties) {m : Merged κ e.Not} (hm : MergedOk e i m)
    (h : ∀ d, d.Valid e.parties → d.dst = i → onlineRead e i m d <+: D.read d) : m = D.merged i := by
  have ho := opened_of_reads hD hi hm.toOpenedOk fun d hd hs => (List.prefix_append _ _).trans (h d hd hs)
  have hb := filtered_unique hm.toFilteredOk hD.toFilteredOk ho
  apply merged_unique hi hm hD hb
  intro d hd hs
  obtain ⟨v, hv⟩ := onlineRead_initial D d
  rw [hs] at hv
  exact ⟨v, by rw [hv]; exact h d hd hs⟩

/-- A party at the end of `main` has the outcome's values. -/
theorem final_of_reads (hD : D.At i) {m : Merged κ e.Not} {G : ℕ → Block} {out : List ℤ}
    (h : PartyInv e i (.done m G out) W R) (hR : Reads D i R) : Tracks D i (.done m G out) := by
  obtain ⟨hi, hm, h0, hpi⟩ := h
  obtain ⟨hD, hlists⟩ := hD hi
  unfold Tracks Outcome.final
  rw [if_pos hi]
  by_cases hi0 : i = 0
  · subst hi0
    obtain ⟨l, hlen, hG, ho, hr⟩ := h0 rfl
    have hread := ((rest_iff hi).1 hr).2
    have hme : m = D.merged 0 := merged_of_reads hD hi hm fun d hd hs =>
      (List.prefix_append _ _).trans (hread d hd hs ▸ hR d hd hs)
    subst hme
    have hl' : ∀ a, a < e.parties - 1 → l a = D.lists a := by
      intro a ha
      have hd := receiverBack_valid hi ha
      have hp := hR (receiverBack 0 a) hd rfl
      rw [hread _ hd rfl, read_receiverBack ha, endRead, apport_receiverBack ha, if_pos rfl, List.prefix_append_right_inj] at hp
      exact blks_inj.1 (hp.eq_of_length (by rw [length_blks, length_blks, hlen a ha, hlists rfl a ha]))
    rw [if_pos rfl, ho, hG, total_congr hl']
    rfl
  · obtain ⟨hG, ho, hr⟩ := hpi hi0
    have hme : m = D.merged i := merged_of_reads hD hi hm fun d hd hs => by
      rw [← ((rest_iff hi).1 hr).2 d hd hs]; exact hR d hd hs
    rw [if_neg hi0, hG, ho, hme]

theorem tracks_of_inv (hD : D.At i) {p : Party κ e.Not} (h : PartyInv e i p W R) (hR : Reads D i R)
    (hl : ∀ f, p ≠ .halted f) : Tracks D i p := by
  cases p with
  | keys P => trivial
  | agree kr P =>
    obtain ⟨hi, hkr, ht⟩ := h
    -- a party that has read its keys has the keys of the outcome, and so on through the phases
    apply hkr.ext hi (hD hi).1.keys_recv
    intro q hq hne
    have hd := (setUp_valid hi hq hne).2
    have h1 : keysRead i kr ⟨q, i, true⟩ <+: D.read ⟨q, i, true⟩ := (ht.read_initial hd rfl).trans (hR _ hd rfl)
    have h2 : keysRead i (D.merged i).keys_recv ⟨q, i, true⟩ <+: D.read ⟨q, i, true⟩ :=
      (List.prefix_append _ _).trans (agreeRead_initial D ⟨q, i, true⟩)
    -- two beginnings of one stream, each one block long
    have heq := (List.prefix_of_prefix_length_le h1 h2 le_rfl).eq_of_length rfl
    simpa using blks_inj.1 heq
  | offline g P =>
    obtain ⟨hi, hg, ht⟩ := h
    apply agreed_unique hi hg (hD hi).1.toAgreedOk
    intro q hq hne
    have hd := (setUp_valid hi hq hne).2
    have h1 := (ht.read_initial hd rfl).trans (hR _ hd rfl)
    exact (List.prefix_of_prefix_length_le h1 (agreeRead_initial D ⟨q, i, true⟩) le_rfl).eq_of_length rfl
  | bloom o P => exact opened_of_reads (hD h.1).1 h.1 h.2.1 fun d hd hs => (h.2.2.read_initial hd hs).trans (hR d hd hs)
  | online b P pipe =>
    have ho := opened_of_reads (hD h.1).1 h.1 h.2.1.toOpenedOk fun d hd hs => (h.2.2.1.read_initial hd hs).trans (hR d hd hs)
    exact filtered_unique h.2.1 (hD h.1).1.toFilteredOk ho
  | collect m P => exact merged_of_reads (hD h.1).1 h.1 h.2.2.1 fun d hd hs => (h.2.2.2.read_initial hd hs).trans (hR d hd hs)
  | sending m G =>
    exact merged_of_reads (hD h.1).1 h.1 h.2.2.1 fun d hd hs => by
      rw [← ((rest_iff h.1).1 h.2.2.2.2).2 d hd hs]; exact hR d hd hs
  | done m G out => exact final_of_reads hD h hR
  | halted f => exact absurd rfl (hl f)
  | idle => trivial

/-! ## The strings of an instance -/

/-- The string of a pair a bit chooses. -/
def pick (v : Bool) (s : Block × Block) : Block := if v then s.2 else s.1

/-- Cell `j` of an instance whose sender has the function of its receiver: the function names an unopened position,
and both ends add a string of the pair at that position, each the one its own filter chooses. -/
theorem cell_of_func {a j : ℕ} (hm : MergedOk e i (D.merged i)) (hm' : MergedOk e (instPeer i a) (D.merged (instPeer i a)))
    (hfunc : (D.merged (instPeer i a)).func_sender (Env.peerSlot i) = (D.merged i).func_recv a) (ha : a < slots e.parties i)
    (hj : j < e.Nbf) :
    ∃ t : ℕ, ((D.merged i).func_recv a)[j]? = some (t : ℤ) ∧
      contribution none ((D.merged i).data e i) (a, .receiver) j =
        .ok (pick ((D.merged i).BF.getD j false) ((e.peerStrings i a).getD t (0, 0))) ∧
      contribution none ((D.merged (instPeer i a)).data e (instPeer i a)) (Env.peerSlot i, .sender) j =
        .ok (pick ((D.merged (instPeer i a)).BF.getD j false) ((e.peerStrings i a).getD t (0, 0))) := by
  have hlen := length_BF hm.toFilteredOk
  have hlen' := length_BF hm'.toFilteredOk
  have hj' : j < (D.merged i).BF.length := by rw [hlen]; exact hj
  obtain ⟨t, ht, hlt, _, hbit⟩ := (indexFunc_of_merged hm ha).entry j hj'
  have hts : t < (e.peerStrings i a).length := by rw [Env.peerStrings, e.strings_length]; exact hlt
  have hread : readAt none ((D.merged i).func_recv a) j = .ok (t : ℤ) := by
    obtain ⟨hl, hv⟩ := List.getElem?_eq_some_iff.1 ht
    rw [readAt_nat j hl, hv]
  refine ⟨t, ht, ?_, ?_⟩
  · have htc : t < (e.choiceStrings i a).length := by rw [e.choiceStrings_length]; exact hlt
    simp only [contribution, Merged.data, Option.map_none, hread, ok_bind, readAt_nat t htc]
    obtain ⟨htb, hb⟩ := List.getElem?_eq_some_iff.1 hbit
    simp only [Env.choiceStrings, List.getElem_zipWith, hb, pick]
    rw [List.getD_eq_getElem _ _ hj', List.getD_eq_getElem _ _ hts]
  · have hj'' : j < (D.merged (instPeer i a)).BF.length := by rw [hlen']; exact hj
    simp only [contribution, Merged.data, Option.map_none, hfunc, hread, ok_bind]
    rw [show e.strings (instPeer i a) (Env.peerSlot i) = e.peerStrings i a from rfl, readAt_nat t hts, ok_bind,
      readAt_nat j hj'', ok_bind, List.getD_eq_getElem _ _ hj'', List.getD_eq_getElem _ _ hts]
    rfl

/-- In an honest outcome it has. -/
theorem Outcome.Honest.cell (hD : D.Honest) {a j : ℕ} (hi : i < e.parties) (ha : a < slots e.parties i) (hj : j < e.Nbf) :
    ∃ t : ℕ, ((D.merged i).func_recv a)[j]? = some (t : ℤ) ∧
      contribution none ((D.merged i).data e i) (a, .receiver) j =
        .ok (pick ((D.merged i).BF.getD j false) ((e.peerStrings i a).getD t (0, 0))) ∧
      contribution none ((D.merged (instPeer i a)).data e (instPeer i a)) (Env.peerSlot i, .sender) j =
        .ok (pick ((D.merged (instPeer i a)).BF.getD j false) ((e.peerStrings i a).getD t (0, 0))) :=
  cell_of_func (hD.merged i hi) (hD.merged _ (inst_peer hi ha).1) (hD.func i a hi ha) ha hj

/-- The consumers of `run_xoring` read inside their arrays. -/
theorem Outcome.Honest.contribution_ok (hD : D.Honest) {src : Source} {j : ℕ} (hi : i < e.parties)
    (hsrc : src ∈ producers (slots e.parties i)) (hj : j < e.Nbf) :
    ∃ b, contribution none ((D.merged i).data e i) src j = .ok b := by
  obtain ⟨a, r⟩ := src
  have ha : a < slots e.parties i := by
    simp only [producers, Finset.mem_product, Finset.mem_range] at hsrc
    exact hsrc.1
  cases r with
  | receiver =>
    obtain ⟨t, _, h, _⟩ := hD.cell hi ha hj
    exact ⟨_, h⟩
  | sender =>
    obtain ⟨h1, h2, h3, h4⟩ := inst_peer hi ha
    obtain ⟨t, _, _, h⟩ := hD.cell h1 h2 hj
    rw [h3, h4] at h
    exact ⟨_, h⟩

/-! ## On the outcome's streams -/

/-- The party has not ended its run. -/
def Live (_ : ℕ) (p : Party κ e.Not) : Prop := ∀ f, p ≠ .halted f

/-- The scripts of the threads whose number of steps is not said: those of the Bloom filter and of `get_gbf`. -/
structure Plan (D : Outcome e) where
  bloom : ℕ → Fin 37 → List (Event (Wire κ) BloomOp BloomMem)
  collect : ℕ → List (Event (Wire κ) ChunkXor (ℕ → Block))
  bloom_script : ∀ i, i < e.parties →
    (bloomStage Sock e.aes (D.merged i).seed e.Nbf e.seeds_num (e.items i)).Script (onChan e.parties (offlineSent e i (D.merged i).toOpened))
      (onChan e.parties (offlineRead e i (D.merged i).toOpened)) (onChan e.parties (offlineSent e i (D.merged i).toOpened))
      (onChan e.parties (offlineRead e i (D.merged i).toOpened)) (bloom i) (fun _ => ())
  collect_script : 0 < e.parties →
    (collectStage e (D.merged 0).shared).Script (onChan e.parties (onlineSent e 0 (D.merged 0)))
      (onChan e.parties (onlineRead e 0 (D.merged 0))) (onChan e.parties (onlineSent e 0 (D.merged 0)))
      (onChan e.parties (endRead e 0 (D.merged 0) D.lists)) collect (fun _ => ())
  collect_nil : ∀ a, a ∉ Finset.range (e.parties - 1) → collect a = []

theorem exists_plan (hD : D.Honest) : Nonempty (Plan D) := by
  have hb : ∀ i, ∃ sc : Fin 37 → List (Event (Wire κ) BloomOp BloomMem), i < e.parties →
      (bloomStage Sock e.aes (D.merged i).seed e.Nbf e.seeds_num (e.items i)).Script (onChan e.parties (offlineSent e i (D.merged i).toOpened))
        (onChan e.parties (offlineRead e i (D.merged i).toOpened)) (onChan e.parties (offlineSent e i (D.merged i).toOpened))
        (onChan e.parties (offlineRead e i (D.merged i).toOpened)) sc (fun _ => ()) := by
    intro i
    by_cases hi : i < e.parties
    · obtain ⟨sc, hsc⟩ := exists_bloom_script (hD.merged i hi).Nbf
      exact ⟨sc, fun _ => hsc⟩
    · exact ⟨fun _ => [], fun h => absurd h hi⟩
  choose bloom hbloom using hb
  by_cases h0 : 0 < e.parties
  · have hl : ∀ a, a < e.parties - 1 → (D.lists a).length = e.Nbf := fun a ha => by
      rw [hD.lists a ha, List.length_map, List.length_range]
    obtain ⟨collect, hc, hnil⟩ := collect_script (m := D.merged 0) h0 hl
    exact ⟨⟨bloom, collect, hbloom, fun _ => hc, hnil⟩⟩
  · exact ⟨⟨bloom, fun _ => [], hbloom, fun h => absurd h h0, fun _ _ => rfl⟩⟩

/-- The threads of the party are on their way through their scripts. -/
def Planned (K : Plan D) (i : ℕ) : Party κ e.Not → Prop
  | .keys P => ∀ a, P.hist a <+: keysScript e i (D.merged i) a
  | .agree _ P => ∀ a, P.hist a <+: agreeScript e i (D.merged i) a
  | .offline _ P => ∀ a, P.hist a <+: offlineScript e i (D.merged i) a
  | .bloom _ P => ∀ a, P.hist a <+: K.bloom i a
  | .online _ P _ => ∀ a, P.hist a <+: onlineScript e i (D.merged i) a
  | .collect _ P => ∀ a, P.hist a <+: K.collect a
  | _ => True

theorem planned_of_tracks (K : Plan D) (hD : D.Honest) {p : Party κ e.Not} (h : PartyInv e i p W R) (hR : Reads D i R)
    (ht : Tracks D i p) : Planned K i p := by
  cases p with
  | keys P =>
    obtain ⟨hi, ht⟩ := h
    obtain ⟨v, S⟩ := keys_script (m := D.merged i) hi
    exact S.on_script ht (keysStage_ported hi) (hR.onChan hi fun d => keysRead_initial D)
  | agree kr P =>
    obtain rfl : kr = _ := ht
    obtain ⟨hi, _, ht⟩ := h
    obtain ⟨v, S⟩ := agree_script (m := D.merged i) hi
    exact S.on_script ht (agreeStage_ported hi) (hR.onChan hi fun d hs => hs ▸ agreeRead_initial D d)
  | offline g P =>
    obtain rfl : g = _ := ht
    obtain ⟨hi, _, ht⟩ := h
    obtain ⟨v, S⟩ := offline_script hi (hD.merged i hi).toOpenedOk (D.merged i).keys_recv
    exact S.on_script ht (ported_of_uses hi offline_out offline_inp) (hR.onChan hi fun d hs => hs ▸ offlineRead_initial D d)
  | bloom o P =>
    obtain rfl : o = _ := ht
    obtain ⟨hi, _, ht⟩ := h
    exact (K.bloom_script i hi).on_script ht bloomStage_ported (hR.onChan hi fun d hs => hs ▸ offlineRead_initial D d)
  | online b P pipe =>
    obtain rfl : b = _ := ht
    obtain ⟨hi, _, ht, _⟩ := h
    exact (online_script hi (hD.merged i hi)).on_script ht (ported_of_uses hi online_out online_inp)
      (hR.onChan hi fun d hs => hs ▸ onlineRead_initial D d)
  | collect m P =>
    obtain rfl : m = _ := ht
    obtain ⟨hi, rfl, _, ht⟩ := h
    exact (K.collect_script hi).on_script ht (collectStage_ported hi) (hR.onChan hi fun d hs => by rw [Outcome.read, if_pos hs])
  | sending | done | halted | idle => trivial

section Returned

variable {P : Pool (Wire κ) Empty Unit Fault (fun _ : Source => List ℤ)} {w r : Chan → List (Atom κ)} {src : Source} {f : List ℤ}
  {m : Merged κ e.Not}

/-- A producer that has returned has the function of its script. -/
theorem online_returned (hm : MergedOk e i m) (hi : i < e.parties)
    (ht : Threads e.parties i (onlineStage e i m.BF m.receiver) w r P W R)
    (hp : ∀ a, P.hist a <+: onlineScript e i m a) (hf : P.ts src = .ret f) :
    (∀ a, src = (a, .receiver) → f = m.func_recv a) ∧ ∀ a, src = (a, .sender) → f = m.func_sender a := by
  have hs := ht.follow src
  rw [hf] at hs
  have hv := (script_ret ((online_script hi hm).ends src) (hp src) hs).2
  constructor
  · rintro a rfl
    exact hv.symm
  · rintro a rfl
    exact hv.symm

theorem contribution_returned (hm : MergedOk e i m) (hi : i < e.parties)
    (ht : Threads e.parties i (onlineStage e i m.BF m.receiver) w r P W R)
    (hp : ∀ a, P.hist a <+: onlineScript e i m a) (hf : P.ts src = .ret f) (j : ℕ) :
    contribution none (onlineData e i m.BF P) src j = contribution none (m.data e i) src j := by
  obtain ⟨hrecv, hsend⟩ := online_returned hm hi ht hp hf
  rcases src with ⟨a, _ | _⟩
  · simp only [contribution, onlineData, Merged.data, hf, returned]
    rw [hrecv a rfl]
  · simp only [contribution, onlineData, Merged.data, hf, returned]
    rw [hsend a rfl]

end Returned

/-- Nobody ends the run. -/
theorem Planned.no_fault {K : Plan D} {p : Party κ e.Not} (hp : Planned K i p) (hD : D.Honest) (h : PartyInv e i p W R)
    (ht : Tracks D i p) (f : Fault) : ¬ p.Faults e i f := by
  cases p with
  | keys P =>
    obtain ⟨v, S⟩ := keys_script (m := D.merged i) h.1
    exact S.no_fault h.2 hp f
  | agree kr P =>
    obtain rfl : kr = _ := ht
    obtain ⟨v, S⟩ := agree_script (m := D.merged i) h.1
    exact S.no_fault h.2.2 hp f
  | offline g P =>
    obtain ⟨v, S⟩ := offline_script h.1 (hD.merged i h.1).toOpenedOk g.keys_recv
    obtain rfl : g = _ := ht
    exact S.no_fault h.2.2 hp f
  | bloom o P =>
    obtain rfl : o = _ := ht
    exact (K.bloom_script i h.1).no_fault h.2.2 hp f
  | online b P pipe =>
    obtain rfl : b = _ := ht
    obtain ⟨hi, _, ht, hpipe⟩ := h
    -- a producer, or the consumer of queue `k` at cell `j`
    rintro (hf | ⟨k, g, j, hph, hj, hf⟩)
    · exact (online_script hi (hD.merged i hi)).no_fault ht hp f hf
    · obtain ⟨hpos, hle⟩ := hpipe.inv.xoring hph
      obtain ⟨func, hfunc⟩ := hpipe.begun _ hpos
      obtain ⟨b, hb⟩ := hD.contribution_ok hi (hpipe.inv.active _ hpos) (hj.trans_le hle)
      rw [contribution_returned (hD.merged i hi) hi ht hp hfunc, hb] at hf
      cases hf
  | collect m P =>
    obtain rfl : m = _ := ht
    obtain ⟨hi, rfl, _, ht⟩ := h
    exact (K.collect_script hi).no_fault ht hp f
  | sending | done | halted | idle => exact id

omit [DecidableEq κ] in
/-- A party in the end has the outcome's values, and a Pi its filter. -/
theorem tracks_done {m : Merged κ e.Not} {G : ℕ → Block} {out : List ℤ} (hi : i < e.parties) (ht : Tracks D i (.done m G out)) :
    m = D.merged i ∧ (i ≠ 0 → G = (D.merged i).sent e i) := by
  have hfin : Party.done m G out = D.final i := ht
  unfold Outcome.final at hfin
  rw [if_pos hi] at hfin
  split at hfin
  · rename_i h0
    cases hfin
    exact ⟨by rw [h0], fun hne => absurd h0 hne⟩
  · cases hfin
    exact ⟨rfl, fun _ => rfl⟩

/-- It has written all of it. -/
theorem done_sent {m : Merged κ e.Not} {G : ℕ → Block} {out : List ℤ} (h : PartyInv e i (.done m G out) W R)
    (ht : Tracks D i (.done m G out)) {d : Chan} (hd : d.Valid e.parties) (hs : d.src = i) : W (d.sock e.parties) = D.sent d := by
  obtain ⟨hi, _, h0, hpi⟩ := h
  obtain ⟨rfl, hG⟩ := tracks_done hi ht
  unfold Outcome.sent
  by_cases hi0 : i = 0
  · obtain ⟨l, _, _, _, hr⟩ := h0 hi0
    rw [if_pos (hs.trans hi0), ((rest_iff hi).1 hr).1 d hd hs, hi0]
  · obtain ⟨_, _, hr⟩ := hpi hi0
    rw [if_neg (hs ▸ hi0), hs, ((rest_iff hi).1 hr).1 d hd hs, hG hi0]

/-- A party at the end of `main` has read all that was written for it. -/
theorem done_read (hD : D.At i) {m : Merged κ e.Not} {G : ℕ → Block} {out : List ℤ}
    (h : PartyInv e i (.done m G out) W R) (ht : Tracks D i (.done m G out)) (hR : Reads D i R) {d : Chan}
    (hd : d.Valid e.parties) (hs : d.dst = i) : R (d.sock e.parties) = D.read d := by
  have hpre := hR d hd hs
  obtain ⟨hi, _, h0, hpi⟩ := h
  obtain ⟨rfl, _⟩ := tracks_done hi ht
  unfold Outcome.read at hpre ⊢
  by_cases hi0 : i = 0
  · obtain ⟨l, hlen, _, _, hr⟩ := h0 hi0
    subst hi0
    rw [if_pos hs, ((rest_iff hi).1 hr).2 d hd hs] at hpre ⊢
    -- the arrays are as long as those of the outcome
    apply hpre.eq_of_length
    have hlt : d.src - 1 < e.parties - 1 := by
      have hsrc := hd.src
      have hne := hd.ne
      omega
    have hlist : (l (d.src - 1)).length = (D.lists (d.src - 1)).length := by
      rw [hlen _ hlt, (hD hi).2 rfl _ hlt]
    simp only [endRead, apport, List.length_append]
    simp
    split
    · rfl
    · rw [length_blks, length_blks, hlist]
  · obtain ⟨_, _, hr⟩ := hpi hi0
    rw [if_neg (hs ▸ hi0), hs, ((rest_iff hi).1 hr).2 d hd hs]

/-- What a party writes is what the outcome has. -/
theorem Planned.wrote {K : Plan D} {p : Party κ e.Not} (hp : Planned K i p) (hD : D.Honest) (h : PartyInv e i p W R)
    (ht : Tracks D i p) (hl : Live i p) {d : Chan} (hd : d.Valid e.parties) (hs : d.src = i) : W (d.sock e.parties) <+: D.sent d := by
  have hw : writer e.parties (d.sock e.parties) = i := by rw [writer_sock hd, hs]
  have hon := onlineSent_initial D hs
  have hoff := offlineSent_prefix_sent D hs
  have hag := (agreeSent_initial d).trans hoff
  -- each phase has written a beginning of its script, which continues to the end
  cases p with
  | keys P =>
    obtain ⟨v, S⟩ := keys_script (m := D.merged i) h.1
    have := S.wrote h.2 hp hw
    rw [onChan_sock hd] at this
    exact this.trans ((List.prefix_append _ _).trans hag)
  | agree kr P =>
    obtain rfl : kr = _ := ht
    obtain ⟨v, S⟩ := agree_script (m := D.merged i) h.1
    have := S.wrote h.2.2 hp hw
    rw [onChan_sock hd] at this
    exact this.trans hag
  | offline g P =>
    obtain ⟨v, S⟩ := offline_script h.1 (hD.merged i h.1).toOpenedOk g.keys_recv
    obtain rfl : g = _ := ht
    have := S.wrote h.2.2 hp hw
    rw [onChan_sock hd] at this
    exact this.trans hoff
  | bloom o P =>
    obtain rfl : o = _ := ht
    have := (K.bloom_script i h.1).wrote h.2.2 hp hw
    rw [onChan_sock hd] at this
    exact this.trans hoff
  | online b P pipe =>
    obtain rfl : b = _ := ht
    have := (online_script h.1 (hD.merged i h.1)).wrote h.2.2.1 hp hw
    rw [onChan_sock hd] at this
    exact this.trans hon
  | collect m P =>
    obtain rfl : m = _ := ht
    obtain ⟨hi, rfl, _, ht⟩ := h
    have := (K.collect_script hi).wrote ht hp hw
    rw [onChan_sock hd] at this
    exact this.trans hon
  | sending m G =>
    obtain rfl : m = _ := ht
    rw [((rest_iff h.1).1 h.2.2.2.2).1 d hd hs]
    exact hon
  | done m G out => rw [done_sent h ht hd hs]
  | halted f => exact absurd rfl (hl f)
  | idle => exact absurd (hs ▸ hd.src) (not_lt.2 h)

/-- A step leads to a phase of `main`, or to the end of the run by a fault. -/
theorem PStep.live {p p' : Party κ e.Not} {l : Label Sock (Atom κ)} (hst : PStep e i p l p') (hf : ∀ f, ¬ p.Faults e i f) :
    Live i p' ∧ p' ≠ .idle := by
  cases hst with
  | fault h => exact absurd h (hf _)
  | _ => exact ⟨nofun, nofun⟩

theorem PartyInv.lt {p : Party κ e.Not} (h : PartyInv e i p W R) (hp : p ≠ .idle) : i < e.parties := by
  cases p with
  | idle => exact absurd rfl hp
  | _ => exact h.1

theorem reads_of_initial (hD : D.Honest) (h : ∀ c, reader e.parties c = i → R c <+: onChan e.parties D.sent c) : Reads D i R := by
  intro d hd hs
  have := h _ ((reader_sock hd).trans hs)
  rwa [onChan_sock hd, ← hD.stream hd] at this

/-- The parties write what the outcome has, in any order of their steps. -/
theorem expects (hD : D.Honest) :
    Expects (PStep e) (writer e.parties) (reader e.parties) (PartyInv e) Live (onChan e.parties D.sent) := by
  obtain ⟨K⟩ := exists_plan hD
  refine ⟨fun {i p w r l p'} h hl hr hst => ?_, fun {i p w r c l p'} h hl hr hst hw => ?_⟩
  · have hR := reads_of_initial hD hr
    have ht := tracks_of_inv (hD.at i) h hR hl
    exact (hst.live ((planned_of_tracks K hD h hR ht).no_fault hD h ht)).1
  · have hR := reads_of_initial hD hr
    have ht := tracks_of_inv (hD.at i) h hR hl
    have hne : p' ≠ .idle := by cases hst <;> nofun
    obtain ⟨d, hd, hs, rfl⟩ := exists_writer (h.lt hne) hw
    rw [onChan_sock hd]
    exact (planned_of_tracks K hD h hR ht).wrote hD h ht hl hd hs

theorem expected_of_honest (hD : D.Honest) {s : State κ e.Not} (h : HonestReaches e s) :
    OnTrack (PartyInv e) s ∧ Expected Live (onChan e.parties D.sent) s := by
  refine expected_of_reaches partyInv_follows (expects hD) (fun _ => partyInv_start) (fun i => ?_) h
  unfold Party.start
  split <;> exact nofun

/-- In every reachable state the parties have the outcome's values. -/
theorem tracks_of_reaches (hD : D.Honest) {s : State κ e.Not} (h : HonestReaches e s) (i : ℕ) :
    Reads D i s.taken ∧ Tracks D i (s.proc i) := by
  obtain ⟨hT, hE⟩ := expected_of_honest hD h
  have hR : Reads D i s.taken := reads_of_initial hD fun c _ => hE.taken c
  exact ⟨hR, tracks_of_inv (hD.at i) (hT.inv i) hR (hE.live i)⟩

/-- All complete runs end in the same outcome. -/
theorem final_of_complete (hD : D.Honest) {s : State κ e.Not} (h : HonestReaches e s) (hc : Complete s) :
    (∀ i, i < e.parties → s.proc i = D.final i) ∧ ∀ d, d.Valid e.parties → s.sent (d.sock e.parties) = D.sent d := by
  have hT := partyInv_of_reaches h
  constructor
  · intro i hi
    obtain ⟨m, G, out, hp⟩ := hc i hi
    have ht := (tracks_of_reaches hD h i).2
    rwa [hp] at ht ⊢
  · intro d hd
    obtain ⟨m, G, out, hp⟩ := hc d.src hd.src
    have ht := (tracks_of_reaches hD h d.src).2
    rw [hp] at ht
    exact done_sent (hp ▸ hT.inv d.src) ht hd rfl

end Mpsi
