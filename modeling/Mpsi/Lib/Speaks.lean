/-
Programs that keep to sessions: `Speaks p S R Q` says that `p` writes the messages of `S` and reads those
of `R`, each of the size that comes next, and leaves sessions with `Q` when it returns. It is read off the
program (`speaks_bind`, `speaks_forEach`), and every move of the program keeps it.

The threads of a stage speak when each of them does on its own streams (`Stage.Speaks`). When they have
returned, all streams of the process have come to where the next stage begins (`Speaks.joined`).
-/
import Mpsi.Lib.Pool
import Mpsi.Lib.Session

namespace Thread

open Stream

variable {K : Type} {T : K → Type} {δ σ ε α β γ χ ι : Type}

/-! ## Programs -/

/-- The program writes what `S` says, reads what `R` says, and returns where `Q` holds. Messages lie in
memory as `enc` says, and a buffer holds one of those with `Ok`. -/
def Speaks (enc : List (Msg T) → List β) (Ok : List (Msg T) → Prop) : Prog T δ σ ε α → Session β → Session β →
    (Session β → Session β → Prop) → Prop
  | .ret _, S, R, Q => Q S R
  | .fail _, _, _, _ => True
  | .put t l k, S, R, Q => ∃ next, S = .msg (enc (tag t l)).length next ∧ Speaks enc Ok k (next (enc (tag t l))) R Q
  | .get t n k, S, R, Q => ∃ next, ∀ x : List.Vector (T t) n, R = .msg (enc (tag t x.toList)).length next ∧
      (Ok (tag t x.toList) → Speaks enc Ok (k x) S (next (enc (tag t x.toList))) Q)
  | .load k, S, R, Q => ∀ m, Speaks enc Ok (k m) S R Q
  | .op _ k, S, R, Q => Speaks enc Ok k S R Q

section Speaks

variable {enc : List (Msg T) → List β} {Ok : List (Msg T) → Prop} {p q : Prog T δ σ ε α} {S R : Session β}
  {Q Q' : Session β → Session β → Prop} {l : List (Msg T)}

theorem speaks_lift_bind {x : Except ε γ} {f : γ → Prog T δ σ ε α} (h : ∀ b, x = .ok b → Speaks enc Ok (f b) S R Q) :
    Speaks enc Ok (Prog.lift x >>= f) S R Q := by
  cases x with
  | ok b => exact h b rfl
  | error e => trivial

theorem speaks_putList_bind {t : K} {l : List (T t)} {f : Unit → Prog T δ σ ε α} {next : List β → Session β} {size : ℕ}
    (hsize : (enc (tag t l)).length = size) (h : Speaks enc Ok (f ()) (next (enc (tag t l))) R Q) :
    Speaks enc Ok (Prog.putList t l >>= f) (.msg size next) R Q :=
  ⟨next, by rw [hsize], h⟩

theorem speaks_getList_bind {t : K} {n : ℕ} {f : List.Vector (T t) n → Prog T δ σ ε α} {next : List β → Session β} {size : ℕ}
    (hsize : ∀ x : List.Vector (T t) n, (enc (tag t x.toList)).length = size)
    (h : ∀ x : List.Vector (T t) n, Ok (tag t x.toList) → Speaks enc Ok (f x) S (next (enc (tag t x.toList))) Q) :
    Speaks enc Ok (Prog.getList t n >>= f) S (.msg size next) Q :=
  ⟨next, fun x => ⟨by rw [hsize x], h x⟩⟩

theorem speaks_getOne_bind {t : K} {f : T t → Prog T δ σ ε α} {next : List β → Session β} {size : ℕ}
    (hsize : ∀ a, (enc (tag t [a])).length = size)
    (h : ∀ a, Ok (tag t [a]) → Speaks enc Ok (f a) S (next (enc (tag t [a]))) Q) :
    Speaks enc Ok (Prog.getOne t >>= f) S (.msg size next) Q := by
  refine ⟨next, fun x => ⟨?_, fun hx => ?_⟩⟩
  · rw [vector_one x, hsize]
  · rw [vector_one x] at hx ⊢
    exact h x.head hx

/-- A sequence speaks when its parts do. -/
theorem speaks_bind {p : Prog T δ σ ε γ} {f : γ → Prog T δ σ ε α} (h : Speaks enc Ok p S R Q')
    (hf : ∀ b S R, Q' S R → Speaks enc Ok (f b) S R Q) : Speaks enc Ok (p >>= f) S R Q := by
  induction p generalizing S R with
  | ret b => exact hf b S R h
  | fail e => trivial
  | put t l k ih =>
    obtain ⟨next, rfl, hk⟩ := h
    exact ⟨next, rfl, ih hk⟩
  | get t n k ih =>
    obtain ⟨next, hk⟩ := h
    exact ⟨next, fun x => ⟨(hk x).1, fun hx => ih x ((hk x).2 hx)⟩⟩
  | load k ih => exact fun m => ih m (h m)
  | op d k ih => exact ih h

/-- A loop whose every round reads a message of its own size. -/
theorem speaks_forEach {f : γ → Prog T δ σ ε Unit} {size : ℕ}
    (hf : ∀ a S R, Speaks enc Ok (f a) S (.msg size fun _ => R) fun S' R' => S' = S ∧ R' = R) :
    ∀ l : List γ, Speaks enc Ok (Prog.forEach l f) S (Session.sizes (List.replicate l.length size) R) fun S' R' => S' = S ∧ R' = R
  | [] => ⟨rfl, rfl⟩
  | a :: l => speaks_bind (hf a _ _) fun _ S' R' h => by
    rw [h.1, h.2]
    exact speaks_forEach hf l

/-! ## Moves -/

theorem Speaks.out (h : Speaks enc Ok p S R Q) (hm : Move p (.out l) q) :
    ∃ next, S = .msg (enc l).length next ∧ Speaks enc Ok q (next (enc l)) R Q := by
  cases hm with
  | put => exact h

theorem Speaks.inp (h : Speaks enc Ok p S R Q) (hm : Move p (.inp l) q) (hl : Ok l) :
    ∃ next, R = .msg (enc l).length next ∧ Speaks enc Ok q S (next (enc l)) Q := by
  cases hm with
  | get x =>
    obtain ⟨next, hx⟩ := h
    exact ⟨next, (hx x).1, (hx x).2 hl⟩

theorem Speaks.load {m : σ} (h : Speaks enc Ok p S R Q) (hm : Move p (.load m) q) : Speaks enc Ok q S R Q := by
  cases hm with
  | load => exact h m

theorem Speaks.op {d : δ} (h : Speaks enc Ok p S R Q) (hm : Move p (.op d) q) : Speaks enc Ok q S R Q := by
  cases hm with
  | op => exact h

end Speaks

/-! ## Stages -/

section Stage

/-- What is left on a thread's stream; a thread without one has nothing to say. -/
def along (o : Option χ) (w : χ → Session β) : Session β := o.elim .stop w

variable {α : ι → Type}

/-- The threads of a stage keep to the sessions of their streams, of which they leave `w'` and `r'`. The
streams of the process that none of them uses are there already. -/
structure Stage.Speaks (enc : List (Msg T) → List β) (Ok : List (Msg T) → Prop) (S : Stage T δ σ ε χ α) (mineW mineR : χ → Prop)
    (w' r' : χ → Session β) (P : Pool T δ σ ε α) (w r : χ → Session β) : Prop where
  thread : ∀ a, Thread.Speaks enc Ok (P.ts a) (along (S.port a).out w) (along (S.port a).inp r) fun X Y =>
    X = along (S.port a).out w' ∧ Y = along (S.port a).inp r'
  restW : ∀ c, mineW c → (∀ a, (S.port a).out ≠ some c) → w c = w' c
  restR : ∀ c, mineR c → (∀ a, (S.port a).inp ≠ some c) → r c = r' c

variable {enc : List (Msg T) → List β} {Ok : List (Msg T) → Prop} {S : Stage T δ σ ε χ α} {mineW mineR : χ → Prop}
  {w r w' r' v u : χ → Session β} {P P' : Pool T δ σ ε α}

theorem along_congr {o : Option χ} (h : ∀ c, o = some c → v c = w c) : along o v = along o w := by
  cases o with
  | none => rfl
  | some c => exact h c rfl

theorem Stage.Speaks.frame (h : S.Speaks enc Ok mineW mineR w' r' P w r) (hp : S.Ported mineW mineR)
    (hv : ∀ c, mineW c → v c = w c) (hu : ∀ c, mineR c → u c = r c) : S.Speaks enc Ok mineW mineR w' r' P v u := by
  refine ⟨fun a => ?_, fun c hm hn => (hv c hm).trans (h.restW c hm hn), fun c hm hn => (hu c hm).trans (h.restR c hm hn)⟩
  rw [along_congr fun c hc => hv c (hp.out hc), along_congr fun c hc => hu c (hp.inp hc)]
  exact h.thread a

/-- When all threads with a stream have returned, the streams are where the next stage begins. -/
theorem Stage.Speaks.joined (h : S.Speaks enc Ok mineW mineR w' r' P w r)
    (hret : ∀ a, (S.port a).out ≠ none ∨ (S.port a).inp ≠ none → ∃ x, P.ts a = .ret x) :
    (∀ c, mineW c → w c = w' c) ∧ ∀ c, mineR c → r c = r' c := by
  constructor
  · intro c hc
    by_cases ho : ∃ a, (S.port a).out = some c
    · obtain ⟨a, ha⟩ := ho
      obtain ⟨x, hx⟩ := hret a (Or.inl (by rw [ha]; exact Option.some_ne_none c))
      have ht := h.thread a
      rw [hx, ha] at ht
      exact ht.1
    · exact h.restW c hc (not_exists.1 ho)
  · intro c hc
    by_cases ho : ∃ a, (S.port a).inp = some c
    · obtain ⟨a, ha⟩ := ho
      obtain ⟨x, hx⟩ := hret a (Or.inr (by rw [ha]; exact Option.some_ne_none c))
      have ht := h.thread a
      rw [hx, ha] at ht
      exact ht.2
    · exact h.restR c hc (not_exists.1 ho)

variable [DecidableEq ι]

/-- A thread that goes on as its sessions say; the others are where they were. -/
theorem Stage.Speaks.next (h : S.Speaks enc Ok mineW mineR w' r' P w r) {a : ι} {e : Event T δ σ} {q : Prog T δ σ ε (α a)} {m : σ}
    (hq : Thread.Speaks enc Ok q (along (S.port a).out v) (along (S.port a).inp u) fun X Y =>
      X = along (S.port a).out w' ∧ Y = along (S.port a).inp r')
    (hv : ∀ c, (S.port a).out ≠ some c → v c = w c) (hu : ∀ c, (S.port a).inp ≠ some c → u c = r c)
    (hout : ∀ b c, b ≠ a → (S.port b).out = some c → (S.port a).out ≠ some c)
    (hinp : ∀ b c, b ≠ a → (S.port b).inp = some c → (S.port a).inp ≠ some c) :
    S.Speaks enc Ok mineW mineR w' r' (P.next a e q m) v u := by
  refine ⟨fun b => ?_, fun c hm hn => (hv c (hn a)).trans (h.restW c hm hn), fun c hm hn => (hu c (hn a)).trans (h.restR c hm hn)⟩
  by_cases hb : b = a
  · subst hb
    simpa [Pool.next] using hq
  · rw [show (P.next a e q m).ts b = P.ts b from Function.update_of_ne hb _ _,
      along_congr fun c hc => hv c (hout b c hb hc), along_congr fun c hc => hu c (hinp b c hb hc)]
    exact h.thread b

theorem Stage.Speaks.tau (h : S.Speaks enc Ok mineW mineR w' r' P w r) (hst : S.Step P .tau P') :
    S.Speaks enc Ok mineW mineR w' r' P' w r := by
  generalize hl : (Label.tau : Label χ (Msg T)) = lab at hst
  -- nothing changes on the streams
  have hkeep : ∀ {a e} {q : Prog T δ σ ε (α a)} {m}, Thread.Speaks enc Ok q (along (S.port a).out w) (along (S.port a).inp r)
      (fun X Y => X = along (S.port a).out w' ∧ Y = along (S.port a).inp r') →
      S.Speaks enc Ok mineW mineR w' r' (P.next a e q m) w r := by
    intro a e q m hq
    refine ⟨fun b => ?_, h.restW, h.restR⟩
    by_cases hb : b = a
    · subst hb
      simpa [Pool.next] using hq
    · rw [show (P.next a e q m).ts b = P.ts b from Function.update_of_ne hb _ _]
      exact h.thread b
  cases hst with
  | out => cases hl
  | inp => cases hl
  | load hm => exact hkeep ((h.thread _).load hm)
  | op hm _ => exact hkeep ((h.thread _).op hm)

variable [DecidableEq χ]

theorem Stage.Speaks.send {c : χ} {l : List (Msg T)} (h : S.Speaks enc Ok mineW mineR w' r' P w r) (hp : S.Ported mineW mineR)
    (hst : S.Step P (.send c l) P') :
    mineW c ∧ ∃ next, w c = .msg (enc l).length next ∧
      S.Speaks enc Ok mineW mineR w' r' P' (Function.update w c (next (enc l))) r := by
  generalize hl : (Label.send c l : Label χ (Msg T)) = lab at hst
  cases hst with
  | @out a l q c hm hc =>
    cases hl
    obtain ⟨next, hnext, hq⟩ := (h.thread a).out hm
    rw [hc] at hnext
    refine ⟨hp.out hc, next, hnext, h.next ?_ (fun c' hc' => ?_) (fun _ _ => rfl) (fun b c' hb hc' he => ?_) fun b c' hb hc' he => ?_⟩
    · rw [hc] at hq ⊢
      simpa [along] using hq
    · rw [hc] at hc'
      exact Function.update_of_ne (fun he => hc' (by rw [he])) _ _
    · exact hb (hp.out_inj hc' he)
    · exact hb (hp.inp_inj hc' he)
  | inp => cases hl
  | load => cases hl
  | op => cases hl

theorem Stage.Speaks.recv {c : χ} {l : List (Msg T)} (h : S.Speaks enc Ok mineW mineR w' r' P w r) (hp : S.Ported mineW mineR)
    (hst : S.Step P (.recv c l) P') (hok : Ok l) :
    mineR c ∧ ∃ next, r c = .msg (enc l).length next ∧
      S.Speaks enc Ok mineW mineR w' r' P' w (Function.update r c (next (enc l))) := by
  generalize hl : (Label.recv c l : Label χ (Msg T)) = lab at hst
  cases hst with
  | @inp a l q c hm hc =>
    cases hl
    obtain ⟨next, hnext, hq⟩ := (h.thread a).inp hm hok
    rw [hc] at hnext
    refine ⟨hp.inp hc, next, hnext, h.next ?_ (fun _ _ => rfl) (fun c' hc' => ?_) (fun b c' hb hc' he => ?_) fun b c' hb hc' he => ?_⟩
    · rw [hc] at hq ⊢
      simpa [along] using hq
    · rw [hc] at hc'
      exact Function.update_of_ne (fun he => hc' (by rw [he])) _ _
    · exact hb (hp.out_inj hc' he)
    · exact hb (hp.inp_inj hc' he)
  | out => cases hl
  | load => cases hl
  | op => cases hl

end Stage

end Thread
