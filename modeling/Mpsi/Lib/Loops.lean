/-
Processes whose messages go over byte streams in pieces: a write loop hands its message over in as many
calls as the operating system likes, each taking some of the bytes that are left, and a read loop fills
its buffer in the same way. A process goes on when its loop has come to the end.

The processes are those of `Stream.Net`, where a message is written or read in one step. For processes
that keep to the sessions of their streams (`Keeps`) what the read loops return is what the write loops
were given, message by message (`Flow.loops`), and nothing is left when both sessions have come to their
end (`Flow.finished`). What they can do in steps of whole messages they can do with loops (`exists_quiet`).
-/
import Mpsi.Lib.Reach
import Mpsi.Lib.Session
import Mpsi.Lib.Stream

namespace Loops

open Relation Stream

variable {ι χ μ σ β : Type}

/-- A write loop that is running: its message, and how many bytes of it have been handed over. -/
structure Writing (μ : Type) where
  msg : List μ
  sum : ℕ

/-- A read loop that is running: how many bytes it waits for, and those it has. -/
structure Reading (β : Type) where
  size : ℕ
  buf : List β

/-- A stream: the loops running at its ends, the bytes in flight, and the messages of the loops that have
come to their end. -/
structure Line (μ β : Type) where
  out : Option (Writing μ)
  inp : Option (Reading β)
  wire : List β
  written : List (List β)
  returned : List (List β)

namespace Line

/-- No loop has begun. -/
def start : Line μ β := ⟨none, none, [], [], []⟩

/-- What the write loops were given, with the one that is running. -/
def begun (enc : List μ → List β) (x : Line μ β) : List (List β) := x.written ++ x.out.elim [] fun w => [enc w.msg]

/-- The bytes handed over so far. -/
def handed (enc : List μ → List β) (x : Line μ β) : List β := x.written.flatten ++ x.out.elim [] fun w => (enc w.msg).take w.sum

/-- What the read loop that is running has. -/
def buffer (x : Line μ β) : List β := x.inp.elim [] Reading.buf

end Line

/-- The processes and the streams. -/
structure Net (ι χ μ σ β : Type) where
  proc : ι → σ
  line : χ → Line μ β

def Net.start (init : ι → σ) : Net ι χ μ σ β := ⟨init, fun _ => .start⟩

/-- The network with `x` for the stream `c`. -/
def Net.setLine [DecidableEq χ] (s : Net ι χ μ σ β) (c : χ) (x : Line μ β) : Net ι χ μ σ β :=
  { s with line := Function.update s.line c x }

section SetLine

variable [DecidableEq χ] (s : Net ι χ μ σ β) (c : χ) (x : Line μ β)

@[simp] theorem Net.setLine_proc : (s.setLine c x).proc = s.proc := rfl

@[simp] theorem Net.setLine_self : (s.setLine c x).line c = x := Function.update_self ..

@[simp] theorem Net.setLine_of_ne {c' : χ} (hc : c' ≠ c) : (s.setLine c x).line c' = s.line c' := Function.update_of_ne hc ..

@[simp] theorem Net.setLine_setLine (y : Line μ β) : (s.setLine c x).setLine c y = s.setLine c y := by
  simp [Net.setLine]

end SetLine

/-! ## One stream -/

section Flow

variable {enc : List μ → List β} {W R w r : Session β} {x : Line μ β}

/-- The messages of a stream so far keep to the sessions `W` and `R` of its ends, of which `w` and `r` are
left; every byte handed over has been returned, is in a buffer or in flight, in this order. -/
structure Flow (enc : List μ → List β) (W R w r : Session β) (x : Line μ β) : Prop where
  written : W.after x.written = some w
  returned : R.after x.returned = some r
  running : ∀ v, x.out = some v → ∃ next, w = .msg (enc v.msg).length next
  waiting : ∀ v, x.inp = some v → ∃ next, r = .msg v.size next
  bytes : x.handed enc = x.returned.flatten ++ x.buffer ++ x.wire

theorem flow_start : Flow enc W R W R (.start : Line μ β) :=
  ⟨Session.after_nil, Session.after_nil, nofun, nofun, rfl⟩

namespace Flow

variable {next : List β → Session β} {l : List μ}

theorem callWrite (h : Flow enc W R (.msg (enc l).length next) r x) (hno : x.out = none) :
    Flow enc W R (.msg (enc l).length next) r { x with out := some ⟨l, 0⟩ } := by
  refine ⟨h.written, h.returned, fun v hv => ?_, h.waiting, ?_⟩
  · cases hv
    exact ⟨next, rfl⟩
  · have hb := h.bytes
    simp only [Line.handed, hno, Option.elim_none] at hb
    simpa [Line.handed, Line.buffer] using hb

theorem write {v : Writing μ} (h : Flow enc W R w r x) (hx : x.out = some v) (n : ℕ) : Flow enc W R w r { x with
    out := some ⟨v.msg, v.sum + n⟩, wire := x.wire ++ ((enc v.msg).drop v.sum).take n } := by
  refine ⟨h.written, h.returned, fun v' hv => ?_, h.waiting, ?_⟩
  · cases hv
    exact h.running v hx
  · have hb := h.bytes
    simp only [Line.handed, hx, Option.elim_some, Line.buffer] at hb
    simp only [Line.handed, Line.buffer, Option.elim_some]
    rw [List.take_add, ← List.append_assoc, hb, List.append_assoc]

theorem endWrite {v : Writing μ} (h : Flow enc W R (.msg (enc v.msg).length next) r x) (hx : x.out = some v)
    (hsum : v.sum = (enc v.msg).length) :
    Flow enc W R (next (enc v.msg)) r { x with out := none, written := x.written ++ [enc v.msg] } := by
  refine ⟨Session.after_snoc h.written, h.returned, nofun, h.waiting, ?_⟩
  have hb := h.bytes
  simp only [Line.handed, hx, Option.elim_some, hsum, List.take_length] at hb
  simpa [Line.handed, Line.buffer] using hb

theorem callRead {n : ℕ} (h : Flow enc W R w (.msg n next) x) (hno : x.inp = none) :
    Flow enc W R w (.msg n next) { x with inp := some ⟨n, []⟩ } := by
  refine ⟨h.written, h.returned, h.running, fun v hv => ?_, ?_⟩
  · cases hv
    exact ⟨next, rfl⟩
  · have hb := h.bytes
    simp only [Line.buffer, hno, Option.elim_none] at hb
    simpa [Line.handed, Line.buffer] using hb

theorem read {v : Reading β} (h : Flow enc W R w r x) (hx : x.inp = some v) (n : ℕ) : Flow enc W R w r { x with
    inp := some ⟨v.size, v.buf ++ x.wire.take n⟩, wire := x.wire.drop n } := by
  refine ⟨h.written, h.returned, h.running, fun v' hv => ?_, ?_⟩
  · cases hv
    exact h.waiting v hx
  · have hb := h.bytes
    simp only [Line.buffer, hx, Option.elim_some, Line.handed] at hb
    simp only [Line.handed, Line.buffer, Option.elim_some]
    rw [hb, List.append_assoc, List.append_assoc, List.append_assoc, List.take_append_drop]

theorem endRead {v : Reading β} (h : Flow enc W R w (.msg (enc l).length next) x) (hx : x.inp = some v) (hbuf : v.buf = enc l) :
    Flow enc W R w (next (enc l)) { x with inp := none, returned := x.returned ++ [v.buf] } := by
  refine ⟨h.written, ?_, h.running, nofun, ?_⟩
  · rw [hbuf]
    exact Session.after_snoc h.returned
  · have hb := h.bytes
    simp only [Line.buffer, hx, Option.elim_some] at hb
    simpa [Line.handed, Line.buffer] using hb

/-! ## What was written and what was returned -/

/-- The messages of all write loops that were called keep to the session. -/
theorem begun (h : Flow enc W R w r x) : ∃ T, W.after (x.begun enc) = some T := by
  cases hx : x.out with
  | none =>
    refine ⟨w, ?_⟩
    simpa [Line.begun, hx] using h.written
  | some v =>
    obtain ⟨next, rfl⟩ := h.running v hx
    refine ⟨next (enc v.msg), ?_⟩
    simp only [Line.begun, hx, Option.elim_some]
    exact Session.after_snoc h.written

end Flow

/-- What was handed over is a first part of what the write loops were given. -/
theorem handed_initial (x : Line μ β) : x.handed enc <+: (x.begun enc).flatten := by
  cases hx : x.out with
  | none => simp [Line.handed, Line.begun, hx]
  | some v =>
    simp only [Line.handed, Line.begun, hx, Option.elim_some, List.flatten_append, List.flatten_cons, List.flatten_nil,
      List.append_nil, List.prefix_append_right_inj]
    exact List.take_prefix _ _

/-- The reader of a stream takes the messages of `W` cut into parts, which keep to its session `R`. -/
structure Parts (cut : List (List β) → List (List β)) (W R : Session β) : Prop where
  flatten : ∀ {ms T}, W.after ms = some T → (cut ms).flatten = ms.flatten
  after : ∀ {ms T}, W.after ms = some T → ∃ T', R.after (cut ms) = some T' ∧ (T = .stop → T' = .stop)

theorem parts_self : Parts id W W := ⟨fun _ => rfl, fun h => ⟨_, h, id⟩⟩

namespace Flow

variable {cut : List (List β) → List (List β)}

/-- What was returned is a first part of what the write loops were given. -/
theorem returned_initial (h : Flow enc W R w r x) (hc : Parts cut W R) : x.returned.flatten <+: (cut (x.begun enc)).flatten := by
  obtain ⟨T, hT⟩ := h.begun
  rw [hc.flatten hT]
  refine List.IsPrefix.trans ?_ (handed_initial x)
  rw [h.bytes, List.append_assoc]
  exact List.prefix_append _ _

/-- Read loops and write loops have the same messages as far as both have come. -/
theorem agree (h : Flow enc W R w r x) (hc : Parts cut W R) :
    x.returned <+: cut (x.begun enc) ∨ cut (x.begun enc) <+: x.returned := by
  obtain ⟨T, hT⟩ := h.begun
  obtain ⟨T', hT', _⟩ := hc.after hT
  exact Session.agree h.returned hT' (Or.inl (h.returned_initial hc))

/-- A read loop that has returned has what the write loop of its number was given; if that has not been
called yet, the read loop was one for no bytes. -/
theorem loops (h : Flow enc W R w r x) (hc : Parts cut W R) {k : ℕ} {m : List β} (hm : x.returned[k]? = some m) :
    (cut (x.begun enc))[k]? = some m ∨ m = [] ∧ (cut (x.begun enc))[k]? = none := by
  rcases h.agree hc with ⟨t, ht⟩ | ⟨t, ht⟩
  · apply Or.inl
    rw [← ht, List.getElem?_append_left (List.getElem?_eq_some_iff.1 hm).1]
    exact hm
  · rw [← ht] at hm
    by_cases hk : k < (cut (x.begun enc)).length
    · rw [List.getElem?_append_left hk] at hm
      exact Or.inl hm
    · rw [List.getElem?_append_right (not_lt.1 hk)] at hm
      refine Or.inr ⟨?_, List.getElem?_eq_none (not_lt.1 hk)⟩
      -- all bytes were handed over before, so what was returned beyond is empty
      have hpre := h.returned_initial hc
      rw [← ht, List.flatten_append] at hpre
      have hnil : t.flatten = [] := by
        have := hpre.length_le
        rw [List.length_append] at this
        exact List.eq_nil_of_length_eq_zero (by omega)
      exact List.flatten_eq_nil_iff.1 hnil m (List.mem_of_getElem? hm)

/-- When the sessions of both ends are over, no loop is running, everything written was returned, and nothing
is left in flight. -/
theorem finished (h : Flow enc W R .stop .stop x) (hc : Parts cut W R) :
    x.out = none ∧ x.inp = none ∧ x.returned = cut x.written ∧ x.wire = [] := by
  have hout : x.out = none := by
    cases hx : x.out with
    | none => rfl
    | some v =>
      obtain ⟨next, hnext⟩ := h.running v hx
      cases hnext
  have hinp : x.inp = none := by
    cases hx : x.inp with
    | none => rfl
    | some v =>
      obtain ⟨next, hnext⟩ := h.waiting v hx
      cases hnext
  have hbegun : x.begun enc = x.written := by simp [Line.begun, hout]
  -- the reader has come to the end of what the writer has written
  obtain ⟨T', hT', hstop⟩ := hc.after h.written
  obtain rfl := hstop rfl
  have heq : x.returned = cut x.written := by
    have hag := h.agree hc
    rw [hbegun] at hag
    rcases hag with hag | hag
    · exact Session.eq_of_stop h.returned hT' hag
    · exact (Session.eq_of_stop hT' h.returned hag).symm
  refine ⟨hout, hinp, heq, ?_⟩
  have hb := h.bytes
  simp only [Line.handed, hout, Line.buffer, hinp, Option.elim_none, List.append_nil] at hb
  rw [heq, hc.flatten h.written] at hb
  exact List.self_eq_append_right.1 hb

end Flow

end Flow

/-! ## All streams -/

section Steps

variable [DecidableEq ι] [DecidableEq χ]

/-- A process takes a step, or one of its loops does. A message lies in memory as `enc` says; `Ok` are the
messages a buffer can hold. -/
inductive Step (enc : List μ → List β) (Ok : List μ → Prop) (step : ι → σ → Label χ μ → σ → Prop) :
    Net ι χ μ σ β → Net ι χ μ σ β → Prop
  | tau {s : Net ι χ μ σ β} {i p} : step i (s.proc i) .tau p → Step enc Ok step s { s with proc := Function.update s.proc i p }
  | callWrite {s : Net ι χ μ σ β} {i c l p} : step i (s.proc i) (.send c l) p → (s.line c).out = none →
      Step enc Ok step s (s.setLine c { s.line c with out := some ⟨l, 0⟩ })
  | write {s : Net ι χ μ σ β} {i c p} {w : Writing μ} {n : ℕ} : step i (s.proc i) (.send c w.msg) p → (s.line c).out = some w →
      0 < n → w.sum + n ≤ (enc w.msg).length →
      Step enc Ok step s (s.setLine c { s.line c with
        out := some ⟨w.msg, w.sum + n⟩
        wire := (s.line c).wire ++ ((enc w.msg).drop w.sum).take n })
  | endWrite {s : Net ι χ μ σ β} {i c p} {w : Writing μ} : step i (s.proc i) (.send c w.msg) p → (s.line c).out = some w →
      w.sum = (enc w.msg).length →
      Step enc Ok step s
        { s.setLine c { s.line c with out := none, written := (s.line c).written ++ [enc w.msg] } with
          proc := Function.update s.proc i p }
  | callRead {s : Net ι χ μ σ β} {i c l p} : step i (s.proc i) (.recv c l) p → Ok l → (s.line c).inp = none →
      Step enc Ok step s (s.setLine c { s.line c with inp := some ⟨(enc l).length, []⟩ })
  | read {s : Net ι χ μ σ β} {i c l p} {r : Reading β} {n : ℕ} : step i (s.proc i) (.recv c l) p → (s.line c).inp = some r →
      0 < n → r.buf.length + n ≤ r.size → n ≤ (s.line c).wire.length →
      Step enc Ok step s (s.setLine c { s.line c with
        inp := some ⟨r.size, r.buf ++ (s.line c).wire.take n⟩
        wire := (s.line c).wire.drop n })
  | endRead {s : Net ι χ μ σ β} {i c l p} {r : Reading β} : step i (s.proc i) (.recv c l) p → Ok l → (s.line c).inp = some r →
      r.buf.length = r.size → r.buf = enc l →
      Step enc Ok step s
        { s.setLine c { s.line c with inp := none, returned := (s.line c).returned ++ [r.buf] } with
          proc := Function.update s.proc i p }

/-- States the network can reach from `init`. -/
def Reaches (enc : List μ → List β) (Ok : List μ → Prop) (step : ι → σ → Label χ μ → σ → Prop) (init : ι → σ) :
    Net ι χ μ σ β → Prop :=
  ReflTransGen (Step enc Ok step) (Net.start init)

/-- The steps of the processes keep `Inv i p w r`, which ties the state `p` of process `i` to what is left
of the sessions it writes (`w`) and reads (`r`): every message has the size that comes next. -/
structure Keeps (enc : List μ → List β) (Ok : List μ → Prop) (step : ι → σ → Label χ μ → σ → Prop) (writer reader : χ → ι)
    (Inv : ι → σ → (χ → Session β) → (χ → Session β) → Prop) : Prop where
  tau : ∀ {i p p' w r}, Inv i p w r → step i p .tau p' → Inv i p' w r
  send : ∀ {i p p' w r c l}, Inv i p w r → step i p (.send c l) p' →
    writer c = i ∧ ∃ next, w c = .msg (enc l).length next ∧ Inv i p' (Function.update w c (next (enc l))) r
  recv : ∀ {i p p' w r c l}, Inv i p w r → step i p (.recv c l) p' → Ok l →
    reader c = i ∧ ∃ next, r c = .msg (enc l).length next ∧ Inv i p' w (Function.update r c (next (enc l)))
  frame : ∀ {i p w w' r r'}, Inv i p w r → (∀ c, writer c = i → w' c = w c) →
    (∀ c, reader c = i → r' c = r c) → Inv i p w' r'

variable {enc : List μ → List β} {Ok : List μ → Prop} {step : ι → σ → Label χ μ → σ → Prop} {writer reader : χ → ι}
  {Inv : ι → σ → (χ → Session β) → (χ → Session β) → Prop} {W R w r : χ → Session β} {s t : Net ι χ μ σ β}

/-- Every process keeps to what is left of its sessions, and every stream has their messages. -/
structure Good (enc : List μ → List β) (Inv : ι → σ → (χ → Session β) → (χ → Session β) → Prop) (W R w r : χ → Session β)
    (s : Net ι χ μ σ β) : Prop where
  inv : ∀ i, Inv i (s.proc i) w r
  flow : ∀ c, Flow enc (W c) (R c) (w c) (r c) (s.line c)

/-- A step changes one process; the others have their streams as they were. -/
theorem inv_update (K : Keeps enc Ok step writer reader Inv) (h : ∀ i, Inv i (s.proc i) w r) {w' r' : χ → Session β} {i : ι} {p : σ}
    (hp : Inv i p w' r') (hw : ∀ c, writer c ≠ i → w' c = w c) (hr : ∀ c, reader c ≠ i → r' c = r c) (j : ι) :
    Inv j (Function.update s.proc i p j) w' r' := by
  by_cases hj : j = i
  · subst hj; simpa using hp
  · rw [Function.update_of_ne hj]
    exact K.frame (h j) (fun c hc => hw c fun he => hj (hc.symm.trans he)) fun c hc => hr c fun he => hj (hc.symm.trans he)

omit [DecidableEq ι] in
/-- It changes one stream. -/
theorem flow_update (h : ∀ c, Flow enc (W c) (R c) (w c) (r c) (s.line c)) {c : χ} {w' r' : Session β} {x : Line μ β}
    (hx : Flow enc (W c) (R c) w' r' x) (c' : χ) :
    Flow enc (W c') (R c') (Function.update w c w' c') (Function.update r c r' c') ((s.setLine c x).line c') := by
  by_cases hc : c' = c
  · subst hc; simpa using hx
  · simpa [hc] using h c'

theorem good_step (K : Keeps enc Ok step writer reader Inv) (h : Good enc Inv W R w r s) (hst : Step enc Ok step s t) :
    ∃ w' r', Good enc Inv W R w' r' t := by
  have hself : ∀ {c x}, Flow enc (W c) (R c) (w c) (r c) x → ∀ c', Flow enc (W c') (R c') (w c') (r c') ((s.setLine c x).line c') := by
    intro c x hx c'
    have := flow_update h.flow hx c'
    rwa [Function.update_eq_self, Function.update_eq_self] at this
  cases hst with
  | tau hp => exact ⟨w, r, inv_update K h.inv (K.tau (h.inv _) hp) (fun _ _ => rfl) (fun _ _ => rfl), h.flow⟩
  | @callWrite i c l p hp hno =>
    obtain ⟨_, next, hnext, _⟩ := K.send (h.inv i) hp
    have hf := h.flow c
    rw [hnext] at hf
    refine ⟨w, r, h.inv, hself ?_⟩
    rw [hnext]
    exact hf.callWrite hno
  | @write i c p v n _ hx => exact ⟨w, r, h.inv, hself ((h.flow c).write hx n)⟩
  | @endWrite i c p v hp hx hsum =>
    obtain ⟨hw, next, hnext, hi⟩ := K.send (h.inv i) hp
    have hf := h.flow c
    rw [hnext] at hf
    -- the session goes on when the loop ends, not at its first call
    refine ⟨Function.update w c (next (enc v.msg)), r,
      inv_update K h.inv hi (fun c' hc' => Function.update_of_ne (fun he => hc' (by rw [he, hw])) _ _) (fun _ _ => rfl), fun c' => ?_⟩
    have := flow_update h.flow (hf.endWrite hx hsum) c'
    rwa [Function.update_eq_self] at this
  | @callRead i c l p hp hok hno =>
    obtain ⟨_, next, hnext, _⟩ := K.recv (h.inv i) hp hok
    have hf := h.flow c
    rw [hnext] at hf
    refine ⟨w, r, h.inv, hself ?_⟩
    rw [hnext]
    exact hf.callRead hno
  | @read i c l p v n _ hx => exact ⟨w, r, h.inv, hself ((h.flow c).read hx n)⟩
  | @endRead i c l p v hp hok hx _ hbuf =>
    obtain ⟨hr, next, hnext, hi⟩ := K.recv (h.inv i) hp hok
    have hf := h.flow c
    rw [hnext] at hf
    refine ⟨w, Function.update r c (next (enc l)),
      inv_update K h.inv hi (fun _ _ => rfl) (fun c' hc' => Function.update_of_ne (fun he => hc' (by rw [he, hr])) _ _), fun c' => ?_⟩
    have := flow_update h.flow (hf.endRead hx hbuf) c'
    rwa [Function.update_eq_self] at this

/-- The rule for a network with loops. -/
theorem good_of_reaches (K : Keeps enc Ok step writer reader Inv) {init : ι → σ} (h₀ : ∀ i, Inv i (init i) W R)
    (h : Reaches enc Ok step init s) : ∃ w r, Good enc Inv W R w r s :=
  Reach.inv_of_step (I := fun s => ∃ w r, Good enc Inv W R w r s) ⟨W, R, h₀, fun _ => flow_start⟩
    (fun _ _ ⟨_, _, hs⟩ hst => good_step K hs hst) h

end Steps

/-! ## Messages in one step -/

section Atomic

variable [DecidableEq ι] [DecidableEq χ] {enc : List μ → List β} {Ok : List μ → Prop} {step : ι → σ → Label χ μ → σ → Prop}
  {init : ι → σ} {s : Stream.Net ι χ μ σ} {t : Net ι χ μ σ β}

/-- No loop is running, and the bytes in flight are those of what was written and not read. -/
structure Quiet (enc : List μ → List β) (s : Stream.Net ι χ μ σ) (t : Net ι χ μ σ β) : Prop where
  proc : t.proc = s.proc
  out : ∀ c, (t.line c).out = none
  inp : ∀ c, (t.line c).inp = none
  le : ∀ c, s.rcvd c ≤ (s.sent c).length
  wire : ∀ c, (t.line c).wire = enc ((s.sent c).drop (s.rcvd c))

omit [DecidableEq ι] in
/-- Steps on one stream, at whose end no loop runs on it. -/
theorem Quiet.on_stream {s' : Stream.Net ι χ μ σ} {t' : Net ι χ μ σ β} {c : χ} (h : Quiet enc s t) (hproc : t'.proc = s'.proc)
    (hrest : ∀ c', c' ≠ c → t'.line c' = t.line c' ∧ s'.sent c' = s.sent c' ∧ s'.rcvd c' = s.rcvd c')
    (hout : (t'.line c).out = none) (hinp : (t'.line c).inp = none) (hle : s'.rcvd c ≤ (s'.sent c).length)
    (hwire : (t'.line c).wire = enc ((s'.sent c).drop (s'.rcvd c))) : Quiet enc s' t' := by
  have hall : ∀ c', (t'.line c').out = none ∧ (t'.line c').inp = none ∧ s'.rcvd c' ≤ (s'.sent c').length ∧
      (t'.line c').wire = enc ((s'.sent c').drop (s'.rcvd c')) := by
    intro c'
    by_cases hc : c' = c
    · subst hc
      exact ⟨hout, hinp, hle, hwire⟩
    · obtain ⟨h1, h2, h3⟩ := hrest c' hc
      rw [h1, h2, h3]
      exact ⟨h.out c', h.inp c', h.le c', h.wire c'⟩
  exact ⟨hproc, fun c' => (hall c').1, fun c' => (hall c').2.1, fun c' => (hall c').2.2.1, fun c' => (hall c').2.2.2⟩

/-- A write loop can run to its end at once. -/
theorem quiet_send (he : ∀ l l', enc (l ++ l') = enc l ++ enc l') (h : Quiet enc s t) {i : ι} {c : χ} {l : List μ} {p : σ}
    (hp : step i (s.proc i) (.send c l) p) : ∃ t', ReflTransGen (Step enc Ok step) t t' ∧
      Quiet enc { s with proc := Function.update s.proc i p, sent := Function.update s.sent c (s.sent c ++ l) } t' := by
  have hp' := hp
  rw [← h.proc] at hp'
  have hcall : Step enc Ok step t _ := .callWrite hp' (h.out c)
  -- a message without bytes needs no call of the operating system
  have hwrite : ReflTransGen (Step enc Ok step) (t.setLine c { t.line c with out := some ⟨l, 0⟩ })
      (t.setLine c { t.line c with out := some ⟨l, (enc l).length⟩, wire := (t.line c).wire ++ enc l }) := by
    rcases Nat.eq_zero_or_pos (enc l).length with h0 | hpos
    · rw [h0, List.length_eq_zero_iff.1 h0, List.append_nil]
    · refine .single ?_
      have hst : Step enc Ok step (t.setLine c { t.line c with out := some ⟨l, 0⟩ }) _ :=
        .write (c := c) (w := ⟨l, 0⟩) (n := (enc l).length) hp' (by simp) hpos (by simp)
      simpa using hst
  have hend : Step enc Ok step (t.setLine c { t.line c with out := some ⟨l, (enc l).length⟩, wire := (t.line c).wire ++ enc l }) _ :=
    .endWrite (c := c) (w := ⟨l, (enc l).length⟩) hp' (by simp) rfl
  refine ⟨_, .tail (.head hcall hwrite) hend, h.on_stream (c := c) (by simp [h.proc]) (fun c' hc => by simp [hc]) ?_ ?_ ?_ ?_⟩
  · simp
  · simpa using h.inp c
  · simpa using (h.le c).trans (Nat.le_add_right _ _)
  · simp only [Net.setLine_setLine, Net.setLine_self, Function.update_self]
    rw [h.wire c, List.drop_append_of_le_length (h.le c), he]

/-- So can a read loop whose message is there. -/
theorem quiet_recv (he : ∀ l l', enc (l ++ l') = enc l ++ enc l') (h : Quiet enc s t) {i : ι} {c : χ} {l : List μ} {p : σ}
    (hp : step i (s.proc i) (.recv c l) p) (hl : l <+: (s.sent c).drop (s.rcvd c)) (hok : Ok l) :
    ∃ t', ReflTransGen (Step enc Ok step) t t' ∧
      Quiet enc { s with proc := Function.update s.proc i p, rcvd := Function.update s.rcvd c (s.rcvd c + l.length) } t' := by
  have hp' := hp
  rw [← h.proc] at hp'
  obtain ⟨rest, hrest⟩ := hl
  have hwire : (t.line c).wire = enc l ++ enc rest := by rw [h.wire c, ← hrest, he]
  have hcall : Step enc Ok step t _ := .callRead hp' hok (h.inp c)
  -- one call takes all bytes of the message, when there are any
  have hread : ReflTransGen (Step enc Ok step) (t.setLine c { t.line c with inp := some ⟨(enc l).length, []⟩ })
      (t.setLine c { t.line c with inp := some ⟨(enc l).length, enc l⟩, wire := enc rest }) := by
    rcases Nat.eq_zero_or_pos (enc l).length with h0 | hpos
    · have hnil := List.length_eq_zero_iff.1 h0
      rw [hnil, List.nil_append] at hwire
      rw [hnil, ← hwire]
    · refine .single ?_
      have hst : Step enc Ok step (t.setLine c { t.line c with inp := some ⟨(enc l).length, []⟩ }) _ :=
        .read (c := c) (r := ⟨(enc l).length, []⟩) (n := (enc l).length) hp' (by simp) hpos (by simp) (by simp [hwire])
      simpa [hwire] using hst
  have hend : Step enc Ok step (t.setLine c { t.line c with inp := some ⟨(enc l).length, enc l⟩, wire := enc rest }) _ :=
    .endRead (c := c) (r := ⟨(enc l).length, enc l⟩) hp' hok (by simp) rfl rfl
  refine ⟨_, .tail (.head hcall hread) hend, h.on_stream (c := c) (by simp [h.proc]) (fun c' hc => by simp [hc]) ?_ ?_ ?_ ?_⟩
  · simpa using h.out c
  · simp
  · have hlen := congrArg List.length hrest
    have hle := h.le c
    rw [List.length_append, List.length_drop] at hlen
    simp only [Function.update_self]
    omega
  · simp only [Net.setLine_setLine, Net.setLine_self, Function.update_self]
    rw [← List.drop_drop, ← hrest, List.drop_left]

/-- A run in which every message is one step is a run with loops, if the buffers can hold the messages. -/
theorem exists_quiet (he : ∀ l l', enc (l ++ l') = enc l ++ enc l') (h : Stream.Reaches step init s)
    (hok : ∀ c l, l <:+: s.sent c → Ok l) : ∃ t, Reaches enc Ok step init t ∧ Quiet enc s t := by
  induction h with
  | refl =>
    have h0 : enc [] = [] := List.self_eq_append_right.1 (he [] [])
    exact ⟨_, .refl, rfl, fun _ => rfl, fun _ => rfl, fun _ => le_rfl, fun _ => h0.symm⟩
  | @tail s s' _ hst ih =>
    cases hst with
    | @tau i p hp =>
      obtain ⟨t, ht, hq⟩ := ih hok
      refine ⟨_, ht.tail (.tau (i := i) (p := p) (by rwa [hq.proc])), by rw [← hq.proc], hq.out, hq.inp, hq.le, hq.wire⟩
    | @send i c l p hp =>
      -- what was sent before lies within what is sent now
      obtain ⟨t, ht, hq⟩ := ih fun c' l' hl' => hok c' l' (by
        by_cases hc : c' = c
        · subst hc; simpa using hl'.trans (List.prefix_append _ _).isInfix
        · simpa [hc] using hl')
      obtain ⟨t', ht', hq'⟩ : ∃ t', ReflTransGen (Step enc Ok step) t t' ∧ _ := quiet_send he hq hp
      exact ⟨t', ht.trans ht', hq'⟩
    | @recv i c l p hp hl =>
      obtain ⟨t, ht, hq⟩ := ih hok
      obtain ⟨t', ht', hq'⟩ := quiet_recv he hq hp hl (hok c l (hl.isInfix.trans (List.drop_suffix _ _).isInfix))
      exact ⟨t', ht.trans ht', hq'⟩

end Atomic

end Loops
