/-
Threads that are trees of their next actions come to an end, whatever they read: a family of them of which finitely
many have not returned makes no infinite run (`acc_stage`). And where each thread has the streams it uses, a family
that cannot go on by itself has returned, ends the run or waits for something to read (`exists_next`).
-/
import Mpsi.Lib.Pool

namespace Thread

open Stream

variable {K : Type} {T : K → Type} {δ σ ε α β : Type}

/-! ## One thread -/

theorem acc_move (p : Prog T δ σ ε α) : Acc (fun q p => ∃ e, Move p e q) p := by
  induction p with
  | ret a => exact ⟨_, fun q ⟨_, h⟩ => by cases h⟩
  | fail f => exact ⟨_, fun q ⟨_, h⟩ => by cases h⟩
  | put t l k ih => exact ⟨_, fun q ⟨_, h⟩ => by cases h; exact ih⟩
  | get t n k ih => exact ⟨_, fun q ⟨_, h⟩ => by cases h; exact ih _⟩
  | load k ih => exact ⟨_, fun q ⟨_, h⟩ => by cases h; exact ih _⟩
  | op d k ih => exact ⟨_, fun q ⟨_, h⟩ => by cases h; exact ih⟩

/-- The program writes if `w` only, and reads if `r` only. -/
def Confined (w r : Prop) : Prog T δ σ ε α → Prop
  | .ret _ => True
  | .fail _ => True
  | .put _ _ k => w ∧ Confined w r k
  | .get _ _ k => r ∧ ∀ x, Confined w r (k x)
  | .load k => ∀ m, Confined w r (k m)
  | .op _ k => Confined w r k

section Confined

variable {w r : Prop} {p q : Prog T δ σ ε α}

theorem confined_true (p : Prog T δ σ ε α) : Confined True True p := by
  induction p with
  | ret | fail => trivial
  | put t l k ih => exact ⟨trivial, ih⟩
  | get t n k ih => exact ⟨trivial, ih⟩
  | load k ih => exact ih
  | op d k ih => exact ih

theorem confined_bind {f : α → Prog T δ σ ε β} (h : Confined w r p) (hf : ∀ a, Confined w r (f a)) : Confined w r (p >>= f) := by
  induction p with
  | ret a => exact hf a
  | fail f => trivial
  | put t l k ih => exact ⟨h.1, ih h.2⟩
  | get t n k ih => exact ⟨h.1, fun x => ih x (h.2 x)⟩
  | load k ih => exact fun m => ih m (h m)
  | op d k ih => exact ih h

theorem confined_lift (x : Except ε α) : Confined w r (Prog.lift x : Prog T δ σ ε α) := by
  cases x <;> trivial

theorem confined_forEach {γ : Type} {l : List γ} {f : γ → Prog T δ σ ε Unit} (hf : ∀ a, Confined w r (f a)) :
    Confined w r (Prog.forEach l f) := by
  induction l with
  | nil => trivial
  | cons a l ih => exact confined_bind (hf a) fun _ => ih

theorem Confined.move {e : Event T δ σ} (h : Confined w r p) (hm : Move p e q) : Confined w r q := by
  cases hm with
  | put => exact h.2
  | get x => exact h.2 x
  | load => exact h _
  | op => exact h

theorem Confined.follow {es : List (Event T δ σ)} (h : Confined w r p) (hf : Follow p es q) : Confined w r q := by
  induction hf with
  | nil => exact h
  | cons hm _ ih => exact ih (h.move hm)

end Confined

/-! ## Families -/

section Family

variable {ι : Type} {α : ι → Type} [DecidableEq ι] {r : ∀ a, α a → α a → Prop} {A : Finset ι}

/-- One of the elements at `A` takes a step. -/
def StepAt (r : ∀ a, α a → α a → Prop) (A : Finset ι) (g f : ∀ a, α a) : Prop :=
  ∃ a ∈ A, ∃ x, r a x (f a) ∧ g = Function.update f a x

theorem acc_stepAt {f : ∀ a, α a} (h : ∀ a ∈ A, Acc (r a) (f a)) : Acc (StepAt r A) f := by
  induction A using Finset.induction_on generalizing f with
  | empty => exact ⟨f, fun g hg => by obtain ⟨a, ha, _⟩ := hg; simp at ha⟩
  | insert b A hb ih =>
    -- by the element at `b`, and under it by the others
    obtain ⟨y, hy⟩ : ∃ y, f b = y := ⟨_, rfl⟩
    have hacc := h b (Finset.mem_insert_self b A)
    rw [hy] at hacc
    induction hacc generalizing f with
    | intro y _ ihy =>
      have hA : Acc (StepAt r A) f := ih fun a ha => h a (Finset.mem_insert_of_mem ha)
      induction hA with
      | intro f _ ihf =>
        refine ⟨f, fun g hg => ?_⟩
        obtain ⟨a, ha, x, hx, rfl⟩ := hg
        have hkeep : ∀ c ∈ insert b A, Acc (r c) (Function.update f a x c) := by
          intro c hc
          by_cases hca : c = a
          · subst hca
            rw [Function.update_self]
            exact (h c hc).inv hx
          · rw [Function.update_of_ne hca]
            exact h c hc
        rcases Finset.mem_insert.1 ha with rfl | haA
        · exact ihy x (by rw [← hy]; exact hx) hkeep (Function.update_self ..)
        · have hab : b ≠ a := by rintro rfl; exact hb haA
          exact ihf _ ⟨a, haA, x, hx, rfl⟩ hkeep (by rw [Function.update_of_ne hab]; exact hy)

end Family

/-! ## Stages -/

section Stage

variable {χ ι : Type} {α : ι → Type} [DecidableEq ι] {S : Stage T δ σ ε χ α} {P P' : Pool T δ σ ε α} {A : Finset ι}

theorem step_move {l : Label χ (Msg T)} (h : S.Step P l P') : ∃ a e q, Move (P.ts a) e q ∧ P'.ts = Function.update P.ts a q := by
  cases h with
  | out hm | inp hm | load hm | op hm => exact ⟨_, _, _, hm, rfl⟩

/-- Threads of which those outside `A` have returned. -/
def Idle (A : Finset ι) (P : Pool T δ σ ε α) : Prop := ∀ a, a ∉ A → ∃ v, P.ts a = .ret v

omit [DecidableEq ι] in
theorem idle_start (hA : ∀ a, a ∉ A → ∃ v, S.prog a = .ret v) : Idle A S.start := hA

theorem Idle.step {l : Label χ (Msg T)} (h : Idle A P) (hst : S.Step P l P') : Idle A P' := by
  intro a ha
  obtain ⟨v, hv⟩ := h a ha
  exact ⟨v, step_ret hst hv⟩

omit [DecidableEq ι] in
/-- A thread with nothing to do has returned in every state. -/
theorem idle_of_follow (hA : ∀ a, a ∉ A → ∃ v, S.prog a = .ret v) (h : ∀ a, Follow (S.prog a) (P.hist a) (P.ts a)) : Idle A P := by
  intro a ha
  obtain ⟨v, hv⟩ := hA a ha
  have hf := h a
  rw [hv] at hf
  generalize P.hist a = es, P.ts a = q at hf ⊢
  cases hf with
  | nil => exact ⟨v, rfl⟩
  | cons hm => cases hm

/-- A stage makes no infinite run. -/
theorem acc_stage (h : Idle A P) : Acc (fun P' P => ∃ l, S.Step P l P') P := by
  have hacc := acc_stepAt (A := A) (f := P.ts) (r := fun _ q p => ∃ e, Move p e q) fun a _ => acc_move _
  generalize hf : P.ts = f at hacc
  induction hacc generalizing P with
  | intro f _ ih =>
    subst hf
    refine ⟨P, fun P' hst => ?_⟩
    obtain ⟨l, hst⟩ := hst
    obtain ⟨a, e, q, hm, hts⟩ := step_move hst
    have ha : a ∈ A := by
      by_contra hno
      obtain ⟨v, hv⟩ := h a hno
      rw [hv] at hm
      cases hm
    exact ih _ ⟨a, ha, q, ⟨e, hm⟩, hts⟩ (h.step hst) rfl

/-- Every thread has the streams it uses. -/
def Stage.Served (S : Stage T δ σ ε χ α) : Prop := ∀ a, Confined ((S.port a).out.isSome = true) ((S.port a).inp.isSome = true) (S.prog a)

end Stage

/-! ## Steps that wait for nothing -/

section Going

variable {χ π π' : Type} {step : π → Label χ (Msg T) → π → Prop} {p : π} {c : χ}

/-- It computes, writes, or reads nothing. -/
def Goes (step : π → Label χ (Msg T) → π → Prop) (p : π) : Prop := ∃ l p', step p l p' ∧ ∀ c x, l = .recv c x → x = []

/-- It waits for elements of a kind on a stream, and reads them whatever they are. -/
def WaitsFor (step : π → Label χ (Msg T) → π → Prop) (p : π) (c : χ) : Prop :=
  ∃ (t : K) (n : ℕ), 0 < n ∧ ∀ x : List.Vector (T t) n, ∃ p', step p (.recv c (tag t x.toList)) p'

/-- A process whose steps come to an end makes no infinite run among others. -/
theorem not_infinite_of_acc [DecidableEq χ] {run : ℕ → Alone χ (Msg T) π} (h : Acc (fun p' p => ∃ l, step p l p') (run 0).proc) :
    ¬ ∀ n, AloneStep step (run n) (run (n + 1)) := fun hrun =>
  (acc_iff_isEmpty_descending_chain.1 h).false ⟨fun n => (run n).proc, rfl, fun n => (hrun n).proc⟩

theorem goes_tau {p' : π} (h : step p .tau p') : Goes step p := ⟨_, _, h, fun _ _ hl => by cases hl⟩

section Map

variable {step' : π' → Label χ (Msg T) → π' → Prop} (f : π → π') (hf : ∀ p l p', step p l p' → step' (f p) l (f p'))

include hf

theorem Goes.map (h : Goes step p) : Goes step' (f p) := by
  obtain ⟨l, p', hst, hl⟩ := h
  exact ⟨l, f p', hf _ _ _ hst, hl⟩

theorem WaitsFor.map (h : WaitsFor step p c) : WaitsFor step' (f p) c := by
  obtain ⟨t, n, hn, hx⟩ := h
  refine ⟨t, n, hn, fun x => ?_⟩
  obtain ⟨p', hst⟩ := hx x
  exact ⟨f p', hf _ _ _ hst⟩

end Map

variable {ι : Type} {α : ι → Type} [DecidableEq ι] {S : Stage T δ σ ε χ α} {P : Pool T δ σ ε α}

/-- Threads that have their streams have all returned, or one of them ends the run, goes on or waits. -/
theorem exists_next (hS : S.Served) (h : ∀ a, Follow (S.prog a) (P.hist a) (P.ts a)) : (∃ v, P.Joined v) ∨ (∃ f, S.Faults P f) ∨
    Goes S.Step P ∨ ∃ a c, (S.port a).inp = some c ∧ WaitsFor S.Step P c := by
  by_cases hall : ∀ a, ∃ v, P.ts a = .ret v
  · exact Or.inl ⟨fun a => (hall a).choose, fun a => (hall a).choose_spec⟩
  right
  push Not at hall
  obtain ⟨a, ha⟩ := hall
  have hc := (hS a).follow (h a)
  cases hp : P.ts a with
  | ret v => exact absurd hp (ha v)
  | fail f => exact Or.inl ⟨f, a, Or.inl hp⟩
  | put t l k =>
    rw [hp] at hc
    obtain ⟨c, hout⟩ := Option.isSome_iff_exists.1 hc.1
    have hm : Move (P.ts a) (.out (tag t l)) k := hp ▸ Move.put
    exact Or.inr (Or.inl ⟨_, _, .out hm hout, fun _ _ hl => by cases hl⟩)
  | get t n k =>
    rw [hp] at hc
    obtain ⟨c, hinp⟩ := Option.isSome_iff_exists.1 hc.1
    have hread : ∀ x : List.Vector (T t) n, S.Step P (.recv c (tag t x.toList)) (P.next a (.inp (tag t x.toList)) (k x) P.mem) :=
      fun x => .inp (hp ▸ Move.get x) hinp
    rcases Nat.eq_zero_or_pos n with rfl | hn
    · refine Or.inr (Or.inl ⟨_, _, hread List.Vector.nil, fun _ x hl => ?_⟩)
      cases hl
      rfl
    · exact Or.inr (Or.inr ⟨a, c, hinp, t, n, hn, fun x => ⟨_, hread x⟩⟩)
  | load k =>
    have hm : Move (P.ts a) (.load P.mem) (k P.mem) := hp ▸ Move.load _
    exact Or.inr (Or.inl ⟨_, _, .load hm, fun _ _ hl => by cases hl⟩)
  | op d k =>
    have hm : Move (P.ts a) (.op d) k := hp ▸ Move.op
    cases hx : S.exec d P.mem with
    | error f => exact Or.inl ⟨f, a, Or.inr ⟨d, k, hm, hx⟩⟩
    | ok m => exact Or.inr (Or.inl ⟨_, _, .op hm hx, fun _ _ hl => by cases hl⟩)

end Going

end Thread
