/-
Runs of the same parties with other strings in the OTs, or with other memory under the array of
`synchGBF`. When no check sees the difference, the parties still have an honest outcome
(`Outcome.Honest.over`), in which only the GBFs differ.
-/
import Mpsi.Protocol.Intersection

namespace Mpsi

open Thread Stream Finset

variable {κ : Type} [DecidableEq κ] {e : Env κ} {D : Outcome e} {s' : ℕ → ℕ → List (Block × Block)}
  {hs : ∀ p a, (s' p a).length = e.Not} {memory : ℕ → ℕ → Block}

/-- The same parties with other strings and other memory. -/
abbrev Env.over (e : Env κ) (s' : ℕ → ℕ → List (Block × Block)) (hs : ∀ p a, (s' p a).length = e.Not)
    (memory : ℕ → ℕ → Block) : Env κ :=
  { e with strings := s', strings_length := hs, memory := memory }

/-- The values of a party with them. -/
def Merged.over (m : Merged κ e.Not) (p : ℕ) (s' : ℕ → ℕ → List (Block × Block)) (hs : ∀ p a, (s' p a).length = e.Not)
    (memory : ℕ → ℕ → Block) : Merged κ (e.over s' hs memory).Not :=
  let GBF := if 2 < e.parties then secretSharingAes e.aes e.parties e.Nbf (e.keys p) m.keys_recv (memory p) else memory p
  { m with
    GBF := GBF
    shared := fun j => if j < e.Nbf then GBF j + ∑ src ∈ producers (slots e.parties p),
      value ⟨m.BF, (e.over s' hs memory).choiceStrings p, m.func_recv, s' p, m.func_sender⟩ src j else GBF j }

/-- The outcome with them. -/
def Outcome.over (D : Outcome e) (s' : ℕ → ℕ → List (Block × Block)) (hs : ∀ p a, (s' p a).length = e.Not)
    (memory : ℕ → ℕ → Block) : Outcome (e.over s' hs memory) where
  merged := fun p => (D.merged p).over p s' hs memory
  lists := fun a => (List.range e.Nbf).map (((D.merged (a + 1)).over (a + 1) s' hs memory).sent (e.over s' hs memory) (a + 1))

/-- The checks and the cut do not see the difference. -/
structure Unseen (D : Outcome e) (s' : ℕ → ℕ → List (Block × Block)) (hs : ∀ p a, (s' p a).length = e.Not)
    (memory : ℕ → ℕ → Block) : Prop where
  cut : ∀ p a, p < e.parties → a < slots e.parties p → ∀ t ∈ ((D.merged p).receiver a).sub_group.elems,
    ((e.over s' hs memory).choiceStrings p a)[t]? = (e.choiceStrings p a)[t]?
  zero : ∀ p a, (s' p a).map Prod.fst = (e.strings p a).map Prod.fst

/-! ## The checks -/

/-- The cut reads the strings of the sub-group only. -/
theorem cutLoop_congr {s t : List Block} : ∀ (ts : List ℕ) (ind : ℤ) (st : RrState), (∀ k ∈ ts, s[k]? = t[k]?) →
    cutLoop s ts ind st = cutLoop t ts ind st
  | [], _, _, _ => rfl
  | target :: rest, ind, st, h => by
    have hstep : cutStep s st target ind = cutStep t st target ind := by
      have hread : readAt none s (target : ℤ) = readAt none t target := by
        simp only [readAt, Int.toNat_natCast, h target (List.mem_cons_self ..)]
      unfold cutStep
      rw [hread]
    rw [cutLoop, cutLoop, hstep]
    refine congrArg _ (funext fun st' => ?_)
    exact cutLoop_congr rest (ind - 1) st' fun k hk => h k (List.mem_cons_of_mem _ hk)

theorem computeRr_congr {C : List ℕ} {indexes : List ℤ} {b : List Bool} {Not : ℤ} {s t : List Block} (h : ∀ k ∈ C, s[k]? = t[k]?) :
    computeRr C indexes b Not s = computeRr C indexes b Not t := by
  unfold computeRr
  exact cutLoop_congr _ _ _ fun k hk => h k ((List.mem_insertionSort _).1 hk)

theorem readAt_fst (s : List (Block × Block)) (k : ℤ) {β : Type} (f : Block → Except Fault β) :
    (readAt none s k >>= fun x => f x.1) = (readAt none (s.map Prod.fst) k >>= f) := by
  unfold readAt
  by_cases hk : 0 ≤ k
  · rw [if_pos hk, if_pos hk, List.getElem?_map]
    cases s[k.toNat]? <;> rfl
  · rw [if_neg hk, if_neg hk]
    rfl

/-- `compute_r` reads the 0-strings only. -/
theorem computeR_congr {s t : List (Block × Block)} (h : s.map Prod.fst = t.map Prod.fst) (R : List ℤ) (Nr : ℤ) :
    computeR none s R Nr = computeR none t R Nr := by
  have hread : ∀ (k : ℤ) (f : Block → Except Fault Block), (readAt none s k >>= fun x => f x.1) = readAt none t k >>= fun x => f x.1 :=
    fun k f => by rw [readAt_fst, readAt_fst, h]
  unfold computeR
  refine congrArg _ (funext fun i₀ => ?_)
  simp only [Option.map_none]
  rw [hread i₀ fun x => (List.range' 1 (Nr.toNat - 1)).foldlM (fun r (i : ℕ) => do
    let k ← readAt none R i
    let x ← readAt none s k
    pure (r ^^^ x.1)) x]
  refine congrArg _ (funext fun x => congrArg (fun f => List.foldlM f x.1 _) (funext fun r => funext fun i => ?_))
  exact congrArg _ (funext fun k => hread k fun x => pure (r ^^^ x))

theorem accepts_congr {s t : List (Block × Block)} (h : s.map Prod.fst = t.map Prod.fst) {Nc maxOnes : ℤ} {msg : RMessage}
    (ha : Accepts none Nc maxOnes s msg) : Accepts none Nc maxOnes t msg := by
  obtain ⟨v, hv, hc⟩ := ha
  refine ⟨v, ?_, hc⟩
  unfold recvRChecked checkIfToAbort1 at hv ⊢
  rwa [computeR_congr h] at hv

/-! ## The outcome -/

/-- A party whose checks do not see the difference has values that belong together. -/
theorem MergedOk.over {m : Merged κ e.Not} {p : ℕ} (h : MergedOk e p m)
    (hcut : ∀ a, a < slots e.parties p → ∀ t ∈ (m.receiver a).sub_group.elems,
      ((e.over s' hs memory).choiceStrings p a)[t]? = (e.choiceStrings p a)[t]?)
    (hzero : ∀ a, (s' p a).map Prod.fst = (e.strings p a).map Prod.fst) : MergedOk (e.over s' hs memory) p (m.over p s' hs memory) := by
  refine ⟨⟨⟨⟨h.toAgreedOk.keys_recv, h.recv, h.seed, h.ok⟩, rfl, fun a ha => ?_, fun a ha => ?_, h.noReceiver, h.noSender⟩,
    h.BF, h.h_kokhav, h.Nbf⟩, h.func_recv, h.func_sender, h.noFunc_recv, h.noFunc_sender, rfl⟩
  · have hr := h.receiver a ha
    refine ⟨hr.nonneg, hr.sub_group, hr.fits, ?_, hr.vectors⟩
    exact (computeRr_congr (hcut a ha)).trans hr.cut
  · have hr := h.sender a ha
    exact ⟨hr.sub_group, accepts_congr (hzero a).symm hr.accepts⟩

/-- What no check sees leaves an honest outcome. -/
theorem Outcome.Honest.over (hD : D.Honest) (hu : Unseen D s' hs memory) : (D.over s' hs memory).Honest :=
  ⟨fun p hp => (hD.merged p hp).over (fun a => hu.cut p a hp) fun a => hu.zero p a, hD.keys_recv, hD.recv, hD.sub_group, hD.msg, hD.func,
    fun _ _ => rfl⟩

omit [DecidableEq κ] in
/-- The streams differ in the filters of the Pi only. -/
theorem Outcome.over_sent (hsent : ∀ p, 0 < p → p < e.parties → ∀ c, c < e.Nbf →
      ((D.over s' hs memory).merged p).sent (e.over s' hs memory) p c = (D.merged p).sent e p c) {d : Chan}
    (hd : d.Valid e.parties) : (D.over s' hs memory).sent d = D.sent d := by
  unfold Outcome.sent
  by_cases h0 : d.src = 0
  · rw [if_pos h0, if_pos h0]
    rfl
  · rw [if_neg h0, if_neg h0]
    have hG : (List.range e.Nbf).map (((D.over s' hs memory).merged d.src).sent (e.over s' hs memory) d.src) =
        (List.range e.Nbf).map ((D.merged d.src).sent e d.src) :=
      List.map_congr_left fun c hc => hsent d.src (Nat.pos_of_ne_zero h0) hd.src c (List.mem_range.1 hc)
    unfold endSent
    rw [hG]
    rfl

end Mpsi
