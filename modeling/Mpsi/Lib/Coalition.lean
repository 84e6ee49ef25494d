/-
Networks in which some processes do not follow their program. Those of `H` do; any other one may write anything on
its streams and read from them, in every state and whatever the others do.

An invariant that the program keeps still holds of the processes in `H` (`inv_of_mixed`), and one of them does in
such a network what it can do among peers that write anything (`alone_of_mixed`). The others may also follow the
program, so every run of the program is a run of such a network (`mixed_of_reaches`).
-/
import Mpsi.Lib.Ending

namespace Stream

open Relation

variable {ι χ μ σ : Type}

/-- The steps of process `i`: its own, or any on its streams. -/
inductive Mixed (H : ι → Prop) (step : ι → σ → Label χ μ → σ → Prop) (writer reader : χ → ι) (i : ι) : σ → Label χ μ → σ → Prop
  | own {p l p'} : H i → step i p l p' → Mixed H step writer reader i p l p'
  | tau {p p'} : ¬ H i → Mixed H step writer reader i p .tau p'
  | send {p c l p'} : ¬ H i → writer c = i → Mixed H step writer reader i p (.send c l) p'
  | recv {p c l p'} : ¬ H i → reader c = i → Mixed H step writer reader i p (.recv c l) p'

section Mixed

variable [DecidableEq ι] [DecidableEq χ] {H : ι → Prop} {step : ι → σ → Label χ μ → σ → Prop} {writer reader : χ → ι}
  {Inv : ι → σ → (χ → List μ) → (χ → List μ) → Prop} {init : ι → σ} {s : Net ι χ μ σ} {i : ι}

omit [DecidableEq ι] [DecidableEq χ] in
theorem mixed_own (hi : H i) {p p' : σ} {l : Label χ μ} (h : Mixed H step writer reader i p l p') : step i p l p' := by
  cases h with
  | own _ hst => exact hst
  | tau hn => exact absurd hi hn
  | send hn => exact absurd hi hn
  | recv hn => exact absurd hi hn

omit [DecidableEq ι] in
/-- Of the processes that do not follow the program nothing is required. -/
theorem follows_mixed (F : Follows step writer reader Inv) :
    Follows (Mixed H step writer reader) writer reader fun i p w r => H i → Inv i p w r := by
  constructor
  · intro i p p' w r hinv hst hi
    exact F.tau (hinv hi) (mixed_own hi hst)
  · intro i p p' w r c l hinv hst
    cases hst with
    | own hi hst =>
      obtain ⟨hw, hinv'⟩ := F.send (hinv hi) hst
      exact ⟨hw, fun _ => hinv'⟩
    | send hn hw => exact ⟨hw, fun hi => absurd hi hn⟩
  · intro i p p' w r c l hinv hst
    cases hst with
    | own hi hst =>
      obtain ⟨hr, hinv'⟩ := F.recv (hinv hi) hst
      exact ⟨hr, fun _ => hinv'⟩
    | recv hn hr => exact ⟨hr, fun hi => absurd hi hn⟩
  · intro i p w w' r r' hinv hw hr hi
    exact F.frame (hinv hi) hw hr

/-- The rule for the processes in `H`. -/
theorem inv_of_mixed (F : Follows step writer reader Inv) (h₀ : ∀ i, Inv i (init i) (fun _ => []) (fun _ => []))
    (h : Reaches (Mixed H step writer reader) init s) (hi : H i) : Inv i (s.proc i) s.sent s.taken :=
  (onTrack_of_reaches (follows_mixed F) (fun i _ => h₀ i) h).inv i hi

omit [DecidableEq ι] in
theorem aloneReaches_own (hi : H i) {p₀ : σ} {t : Alone χ μ σ} (h : AloneReaches (Mixed H step writer reader i) p₀ t) :
    AloneReaches (step i) p₀ t := by
  induction h with
  | refl => exact .refl
  | tail _ hst ih =>
    apply ih.tail
    cases hst with
    | tau hst => exact .tau (mixed_own hi hst)
    | send hst => exact .send (mixed_own hi hst)
    | recv hst => exact .recv (mixed_own hi hst)

/-- To one of them the others are peers that write anything. -/
theorem alone_of_mixed (F : Follows step writer reader Inv) (h₀ : ∀ i, Inv i (init i) (fun _ => []) (fun _ => []))
    (h : Reaches (Mixed H step writer reader) init s) (hi : H i) :
    AloneReaches (step i) (init i) (s.alone writer reader i) :=
  aloneReaches_own hi (alone_of_reaches (follows_mixed F) (fun i _ => h₀ i) h i)

/-- What all do by the program, some may do by their choice. -/
theorem mixed_of_reaches (F : Follows step writer reader Inv) (h₀ : ∀ i, Inv i (init i) (fun _ => []) (fun _ => []))
    (h : Reaches step init s) : Reaches (Mixed H step writer reader) init s := by
  induction h with
  | refl => exact .refl
  | @tail s t hs hst ih =>
    have hinv := (onTrack_of_reaches F h₀ hs).inv
    apply ih.tail
    cases hst with
    | @tau i p hst =>
      by_cases hi : H i
      · exact .tau (.own hi hst)
      · exact .tau (.tau hi)
    | @send i c l p hst =>
      by_cases hi : H i
      · exact .send (.own hi hst)
      · exact .send (.send hi (F.send (hinv i) hst).1)
    | @recv i c l p hst hl =>
      by_cases hi : H i
      · exact .recv (.own hi hst) hl
      · exact .recv (.recv hi (F.recv (hinv i) hst).1) hl

end Mixed

/-! ## What such a network can do -/

/-- The steps of the processes in `H`. -/
def Own (H : ι → Prop) (step : ι → σ → Label χ μ → σ → Prop) (i : ι) (p : σ) (l : Label χ μ) (p' : σ) : Prop := H i ∧ step i p l p'

section Own

variable [DecidableEq ι] [DecidableEq χ] {H : ι → Prop} {step : ι → σ → Label χ μ → σ → Prop} {writer reader : χ → ι}
  {Inv : ι → σ → (χ → List μ) → (χ → List μ) → Prop} {init : ι → σ} {s t : Net ι χ μ σ}

theorem mixed_of_own (h : Step (Own H step) s t) : Step (Mixed H step writer reader) s t := by
  cases h with
  | tau hst => exact .tau (.own hst.1 hst.2)
  | send hst => exact .send (.own hst.1 hst.2)
  | recv hst hl => exact .recv (.own hst.1 hst.2) hl

theorem rcvd_le_of_mixed (F : Follows step writer reader Inv) (h₀ : ∀ i, Inv i (init i) (fun _ => []) (fun _ => []))
    (h : Reaches (Mixed H step writer reader) init s) (c : χ) : s.rcvd c ≤ (s.sent c).length :=
  (onTrack_of_reaches (follows_mixed F) (fun i _ => h₀ i) h).le c

/-- A step reads what was written before it. -/
theorem taken_before (hle : ∀ c, s.rcvd c ≤ (s.sent c).length) (h : Step step s t) (c : χ) : t.taken c <+: s.sent c := by
  cases h with
  | tau | recv => exact Net.taken_initial _ c
  | send =>
    rw [taken_send hle]
    exact s.taken_initial c

/-- The processes in `H` do not write on the streams of the others. -/
theorem own_run (F : Follows step writer reader Inv) (h₀ : ∀ i, Inv i (init i) (fun _ => []) (fun _ => []))
    (h : Reaches (Mixed H step writer reader) init s) (hst : ReflTransGen (Step (Own H step)) s t) :
    Reaches (Mixed H step writer reader) init t ∧ ∀ c, ¬ H (writer c) → t.sent c = s.sent c := by
  induction hst with
  | refl => exact ⟨h, fun _ _ => rfl⟩
  | tail _ hst ih =>
    obtain ⟨ht, hsent⟩ := ih
    refine ⟨ht.tail (mixed_of_own hst), fun c hc => ?_⟩
    rw [← hsent c hc]
    cases hst with
    | tau | recv => rfl
    | @send i c' l p hst =>
      have hw := (F.send (inv_of_mixed F h₀ ht hst.1) hst.2).1
      exact Function.update_of_ne (by rintro rfl; exact hc (hw ▸ hst.1)) _ _

/-- When none of finitely many processes makes an infinite run, they stop together. -/
theorem exists_stopped_own {A : Finset ι} (hA : ∀ i, H i → i ∈ A) (hacc : ∀ i ∈ A, Acc (fun p' p => ∃ l, step i p l p') (s.proc i)) :
    ∃ t, ReflTransGen (Step (Own H step)) s t ∧ Reach.Stopped (Step (Own H step)) t := by
  apply Reach.exists_stopped_of_acc
  have h := Thread.acc_stepAt (r := fun i p' p => ∃ l, step i p l p') hacc
  refine Subrelation.accessible (fun hst => ?_) (InvImage.accessible (f := Net.proc) h)
  cases hst with
  | tau hst | send hst | recv hst => exact ⟨_, hA _ hst.1, _, ⟨_, hst.2⟩, rfl⟩

/-- The others can go on writing on their streams whatever they like. -/
theorem exists_written (A : Finset χ) (hA : ∀ c ∈ A, ¬ H (writer c)) {goal : χ → List μ} (hg : ∀ c ∈ A, s.sent c <+: goal c) :
    ∃ t, ReflTransGen (Step (Mixed H step writer reader)) s t ∧ (∀ c ∈ A, t.sent c = goal c) ∧ ∀ c, c ∉ A → t.sent c = s.sent c := by
  induction A using Finset.induction_on with
  | empty => exact ⟨s, .refl, fun _ hc => absurd hc (Finset.notMem_empty _), fun _ _ => rfl⟩
  | insert c A hc ih =>
    obtain ⟨t, hst, hin, hout⟩ := ih (fun c hc => hA c (Finset.mem_insert_of_mem hc)) fun c hc => hg c (Finset.mem_insert_of_mem hc)
    obtain ⟨l, hl⟩ := hg c (Finset.mem_insert_self c A)
    refine ⟨_, hst.tail (.send (i := writer c) (c := c) (l := l) (p := t.proc (writer c)) (.send (hA c (Finset.mem_insert_self c A)) rfl)),
      fun c' hc' => ?_, fun c' hc' => ?_⟩
    · change Function.update t.sent c (t.sent c ++ l) c' = goal c'
      rcases Finset.mem_insert.1 hc' with rfl | hmem
      · rw [Function.update_self, hout c' hc, hl]
      · rw [Function.update_of_ne (by rintro rfl; exact hc hmem), hin c' hmem]
    · change Function.update t.sent c (t.sent c ++ l) c' = s.sent c'
      rw [Function.update_of_ne (by rintro rfl; exact hc' (Finset.mem_insert_self _ _)),
        hout c' fun h => hc' (Finset.mem_insert_of_mem h)]

end Own

end Stream
