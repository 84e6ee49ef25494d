/-
Programs of single threads that write to and read from one stream, look at a memory they share and
act on it. A program is a tree of its next actions; `Follow` relates it to what it becomes along a
list of events.

A program is determined by what it reads: `follow_unique` says that the events lead to one program
only, and `follow_initial` that a program that reads what a script has for it follows the script.
-/
import Mathlib.Data.Vector.Basic
import Mathlib.Tactic

namespace Thread

variable {K : Type} {T : K → Type} {δ σ ε α β : Type}

/-! ## Messages -/

/-- An element of a message, with its kind. -/
abbrev Msg (T : K → Type) := Σ t, T t

/-- Elements of one kind. -/
def tag (t : K) (l : List (T t)) : List (Msg T) := l.map (Sigma.mk t)

theorem tag_injective (t : K) : Function.Injective (tag (T := T) t) :=
  List.map_injective_iff.2 fun _ _ h => eq_of_heq (Sigma.mk.inj h).2

@[simp] theorem tag_inj {t : K} {l l' : List (T t)} : tag t l = tag t l' ↔ l = l' := (tag_injective t).eq_iff

@[simp] theorem length_tag (t : K) (l : List (T t)) : (tag t l).length = l.length := List.length_map _

@[simp] theorem tag_nil (t : K) : tag t ([] : List (T t)) = [] := rfl

@[simp] theorem tag_cons (t : K) (a : T t) (l : List (T t)) : tag t (a :: l) = ⟨t, a⟩ :: tag t l := rfl

/-! ## Programs -/

/-- What a thread does next: it returns, ends the run, writes elements of a kind, reads `n` of them,
looks at the shared memory or acts on it. -/
inductive Prog (T : K → Type) (δ σ ε α : Type) where
  | ret (a : α)
  | fail (f : ε)
  | put (t : K) (l : List (T t)) (k : Prog T δ σ ε α)
  | get (t : K) (n : ℕ) (k : List.Vector (T t) n → Prog T δ σ ε α)
  | load (k : σ → Prog T δ σ ε α)
  | op (d : δ) (k : Prog T δ σ ε α)

namespace Prog

def bind : Prog T δ σ ε α → (α → Prog T δ σ ε β) → Prog T δ σ ε β
  | ret a, f => f a
  | fail e, _ => fail e
  | put t l k, f => put t l (bind k f)
  | get t n k, f => get t n fun x => bind (k x) f
  | load k, f => load fun m => bind (k m) f
  | op d k, f => op d (bind k f)

instance : Monad (Prog T δ σ ε) where
  pure := ret
  bind := bind

@[simp] theorem pure_eq (a : α) : (pure a : Prog T δ σ ε α) = ret a := rfl
@[simp] theorem ret_bind (a : α) (f : α → Prog T δ σ ε β) : ret a >>= f = f a := rfl
@[simp] theorem fail_bind (e : ε) (f : α → Prog T δ σ ε β) : fail e >>= f = fail e := rfl
@[simp] theorem put_bind {t : K} {l : List (T t)} (k : Prog T δ σ ε α) (f : α → Prog T δ σ ε β) :
    put t l k >>= f = put t l (k >>= f) := rfl
@[simp] theorem get_bind {t : K} {n : ℕ} (k : List.Vector (T t) n → Prog T δ σ ε α) (f : α → Prog T δ σ ε β) :
    get t n k >>= f = get t n fun x => k x >>= f := rfl
@[simp] theorem load_bind (k : σ → Prog T δ σ ε α) (f : α → Prog T δ σ ε β) :
    load k >>= f = load fun m => k m >>= f := rfl
@[simp] theorem op_bind {d : δ} (k : Prog T δ σ ε α) (f : α → Prog T δ σ ε β) : op d k >>= f = op d (k >>= f) := rfl

/-- A computation that may end the run. -/
def lift : Except ε α → Prog T δ σ ε α
  | .ok a => ret a
  | .error e => fail e

@[simp] theorem lift_ok (a : α) : (lift (.ok a) : Prog T δ σ ε α) = ret a := rfl
@[simp] theorem lift_error (e : ε) : (lift (.error e) : Prog T δ σ ε α) = fail e := rfl

def putList (t : K) (l : List (T t)) : Prog T δ σ ε Unit := put t l (ret ())

def getList (t : K) (n : ℕ) : Prog T δ σ ε (List.Vector (T t) n) := get t n ret

def getOne (t : K) : Prog T δ σ ε (T t) := get t 1 fun x => ret x.head

/-- The shared memory. -/
def loadMem : Prog T δ σ ε σ := load ret

def act (d : δ) : Prog T δ σ ε Unit := op d (ret ())

/-- A loop over a list. -/
def forEach {γ : Type} : List γ → (γ → Prog T δ σ ε Unit) → Prog T δ σ ε Unit
  | [], _ => ret ()
  | a :: l, f => f a >>= fun _ => forEach l f

end Prog

/-! ## Events -/

/-- What a thread has done in a step. -/
inductive Event (T : K → Type) (δ σ : Type) where
  | out (l : List (Msg T))
  | inp (l : List (Msg T))
  | load (m : σ)
  | op (d : δ)

namespace Event

def outs : Event T δ σ → List (Msg T)
  | out l => l
  | _ => []

def ins : Event T δ σ → List (Msg T)
  | inp l => l
  | _ => []

def ops : Event T δ σ → List δ
  | op d => [d]
  | _ => []

/-- Both events are the same but for what they take in. -/
def Similar : Event T δ σ → Event T δ σ → Prop
  | out l, out l' => l = l'
  | inp l, inp l' => l.length = l'.length
  | load _, load _ => True
  | op d, op d' => d = d'
  | _, _ => False

end Event

/-- What was written along the events. -/
def outs (es : List (Event T δ σ)) : List (Msg T) := es.flatMap Event.outs

/-- What was read. -/
def ins (es : List (Event T δ σ)) : List (Msg T) := es.flatMap Event.ins

/-- The actions on the memory. -/
def ops (es : List (Event T δ σ)) : List δ := es.flatMap Event.ops

section Lists

variable {e : Event T δ σ} {es es' : List (Event T δ σ)} {l : List (Msg T)} {m : σ} {d : δ}

@[simp] theorem outs_nil : outs ([] : List (Event T δ σ)) = [] := rfl
@[simp] theorem ins_nil : ins ([] : List (Event T δ σ)) = [] := rfl
@[simp] theorem ops_nil : ops ([] : List (Event T δ σ)) = [] := rfl
@[simp] theorem outs_cons : outs (e :: es) = e.outs ++ outs es := rfl
@[simp] theorem ins_cons : ins (e :: es) = e.ins ++ ins es := rfl
@[simp] theorem ops_cons : ops (e :: es) = e.ops ++ ops es := rfl
@[simp] theorem outs_append : outs (es ++ es') = outs es ++ outs es' := List.flatMap_append
@[simp] theorem ins_append : ins (es ++ es') = ins es ++ ins es' := List.flatMap_append
@[simp] theorem ops_append : ops (es ++ es') = ops es ++ ops es' := List.flatMap_append
@[simp] theorem outs_out : (Event.out l : Event T δ σ).outs = l := rfl
@[simp] theorem outs_inp : (Event.inp l : Event T δ σ).outs = [] := rfl
@[simp] theorem outs_load : (Event.load m : Event T δ σ).outs = [] := rfl
@[simp] theorem outs_op : (Event.op d : Event T δ σ).outs = [] := rfl
@[simp] theorem ins_out : (Event.out l : Event T δ σ).ins = [] := rfl
@[simp] theorem ins_inp : (Event.inp l : Event T δ σ).ins = l := rfl
@[simp] theorem ins_load : (Event.load m : Event T δ σ).ins = [] := rfl
@[simp] theorem ins_op : (Event.op d : Event T δ σ).ins = [] := rfl
@[simp] theorem ops_out : (Event.out l : Event T δ σ).ops = [] := rfl
@[simp] theorem ops_inp : (Event.inp l : Event T δ σ).ops = [] := rfl
@[simp] theorem ops_load : (Event.load m : Event T δ σ).ops = [] := rfl
@[simp] theorem ops_op : (Event.op d : Event T δ σ).ops = [d] := rfl

end Lists

/-! ## Following a program -/

/-- One action of a program. -/
inductive Move : Prog T δ σ ε α → Event T δ σ → Prog T δ σ ε α → Prop
  | put {t : K} {l : List (T t)} {k} : Move (.put t l k) (.out (tag t l)) k
  | get {t : K} {n : ℕ} {k} (x : List.Vector (T t) n) : Move (.get t n k) (.inp (tag t x.toList)) (k x)
  | load {k} (m : σ) : Move (.load k) (.load m) (k m)
  | op {d : δ} {k} : Move (.op d k) (.op d) k

/-- What a program becomes along a list of events. -/
inductive Follow : Prog T δ σ ε α → List (Event T δ σ) → Prog T δ σ ε α → Prop
  | nil {p} : Follow p [] p
  | cons {p e q es r} : Move p e q → Follow q es r → Follow p (e :: es) r

/-- The program returns `v` after the events. -/
abbrev Ends (p : Prog T δ σ ε α) (es : List (Event T δ σ)) (v : α) : Prop := Follow p es (.ret v)

section Follow

variable {p q r : Prog T δ σ ε α} {e : Event T δ σ} {es es' sc : List (Event T δ σ)} {v w : α}

theorem follow_append : Follow p (es ++ es') r ↔ ∃ q, Follow p es q ∧ Follow q es' r := by
  induction es generalizing p with
  | nil => exact ⟨fun h => ⟨p, .nil, h⟩, fun ⟨q, h, h'⟩ => by cases h; exact h'⟩
  | cons e es ih =>
    constructor
    · rintro (_ | ⟨hm, h⟩)
      obtain ⟨q, h1, h2⟩ := ih.1 h
      exact ⟨q, .cons hm h1, h2⟩
    · rintro ⟨q, _ | ⟨hm, h⟩, h2⟩
      exact .cons hm (ih.2 ⟨q, h, h2⟩)

theorem Follow.snoc (h : Follow p es q) (hm : Move q e r) : Follow p (es ++ [e]) r :=
  follow_append.2 ⟨q, h, .cons hm .nil⟩

theorem follow_nil : Follow p [] q ↔ q = p := ⟨fun h => by cases h; rfl, fun h => h ▸ .nil⟩

@[simp] theorem follow_ret {a : α} : Follow (.ret a) es q ↔ es = [] ∧ q = .ret a := by
  constructor
  · rintro (_ | ⟨hm, _⟩)
    · exact ⟨rfl, rfl⟩
    · cases hm
  · rintro ⟨rfl, rfl⟩; exact .nil

@[simp] theorem follow_fail {f : ε} : Follow (.fail f : Prog T δ σ ε α) es q ↔ es = [] ∧ q = .fail f := by
  constructor
  · rintro (_ | ⟨hm, _⟩)
    · exact ⟨rfl, rfl⟩
    · cases hm
  · rintro ⟨rfl, rfl⟩; exact .nil

theorem follow_put {t : K} {l : List (T t)} {k : Prog T δ σ ε α} : Follow (.put t l k) es q ↔
    (es = [] ∧ q = .put t l k) ∨ ∃ es', es = .out (tag t l) :: es' ∧ Follow k es' q := by
  constructor
  · rintro (_ | ⟨hm, h⟩)
    · exact Or.inl ⟨rfl, rfl⟩
    · cases hm; exact Or.inr ⟨_, rfl, h⟩
  · rintro (⟨rfl, rfl⟩ | ⟨es', rfl, h⟩)
    · exact .nil
    · exact .cons .put h

theorem follow_load {k : σ → Prog T δ σ ε α} : Follow (.load k) es q ↔
    (es = [] ∧ q = .load k) ∨ ∃ m es', es = .load m :: es' ∧ Follow (k m) es' q := by
  constructor
  · rintro (_ | ⟨hm, h⟩)
    · exact Or.inl ⟨rfl, rfl⟩
    · cases hm; exact Or.inr ⟨_, _, rfl, h⟩
  · rintro (⟨rfl, rfl⟩ | ⟨m, es', rfl, h⟩)
    · exact .nil
    · exact .cons (.load m) h

@[simp] theorem ends_ret {a : α} : Ends (.ret a : Prog T δ σ ε α) es v ↔ es = [] ∧ v = a := by
  simp [Ends, follow_ret]

@[simp] theorem ends_fail {f : ε} : ¬ Ends (.fail f : Prog T δ σ ε α) es v := by simp [Ends, follow_fail]

@[simp] theorem ends_put {t : K} {l : List (T t)} {k : Prog T δ σ ε α} :
    Ends (.put t l k) es v ↔ ∃ es', es = .out (tag t l) :: es' ∧ Ends k es' v := by
  simp [Ends, follow_put]

@[simp] theorem ends_get {t : K} {n : ℕ} {k : List.Vector (T t) n → Prog T δ σ ε α} :
    Ends (.get t n k) es v ↔ ∃ (x : List.Vector (T t) n) (es' : _), es = .inp (tag t x.toList) :: es' ∧ Ends (k x) es' v := by
  constructor
  · rintro (_ | ⟨hm, h⟩)
    cases hm
    exact ⟨_, _, rfl, h⟩
  · rintro ⟨x, es', rfl, h⟩
    exact .cons (.get x) h

@[simp] theorem ends_load {k : σ → Prog T δ σ ε α} :
    Ends (.load k) es v ↔ ∃ m es', es = .load m :: es' ∧ Ends (k m) es' v := by
  simp [Ends, follow_load]

@[simp] theorem ends_op {d : δ} {k : Prog T δ σ ε α} : Ends (.op d k) es v ↔ ∃ es', es = .op d :: es' ∧ Ends k es' v := by
  constructor
  · rintro (_ | ⟨hm, h⟩)
    cases hm
    exact ⟨_, rfl, h⟩
  · rintro ⟨es', rfl, h⟩
    exact .cons .op h

theorem vector_one {γ : Type} (x : List.Vector γ 1) : x.toList = [x.head] := by
  obtain ⟨a, y, rfl⟩ := x.exists_eq_cons
  rw [List.Vector.toList_cons, List.Vector.eq_nil y]
  rfl

theorem ends_lift_bind {x : Except ε β} {f : β → Prog T δ σ ε α} :
    Ends (Prog.lift x >>= f) es v ↔ ∃ b, x = .ok b ∧ Ends (f b) es v := by
  cases x <;> simp

theorem ends_putList_bind {t : K} {l : List (T t)} {f : Unit → Prog T δ σ ε α} :
    Ends (Prog.putList t l >>= f) es v ↔ ∃ es', es = .out (tag t l) :: es' ∧ Ends (f ()) es' v := by
  simp [Prog.putList]

theorem ends_getOne_bind {t : K} {f : T t → Prog T δ σ ε α} :
    Ends (Prog.getOne t >>= f) es v ↔ ∃ a es', es = .inp (tag t [a]) :: es' ∧ Ends (f a) es' v := by
  simp only [Prog.getOne, Prog.get_bind, Prog.ret_bind, ends_get]
  constructor
  · rintro ⟨x, es', rfl, h⟩
    exact ⟨x.head, es', by rw [vector_one x], h⟩
  · rintro ⟨a, es', rfl, h⟩; exact ⟨a ::ᵥ .nil, es', rfl, h⟩

theorem ends_getList_bind {t : K} {n : ℕ} {f : List.Vector (T t) n → Prog T δ σ ε α} :
    Ends (Prog.getList t n >>= f) es v ↔ ∃ (x : List.Vector (T t) n) (es' : _), es = .inp (tag t x.toList) :: es' ∧ Ends (f x) es' v := by
  simp [Prog.getList]

/-- The events of a sequence are those of its parts. -/
theorem ends_bind {p : Prog T δ σ ε β} {f : β → Prog T δ σ ε α} :
    Ends (p >>= f) es v ↔ ∃ es₁ es₂ b, es = es₁ ++ es₂ ∧ Ends p es₁ b ∧ Ends (f b) es₂ v := by
  induction p generalizing es with
  | ret a => simp
  | fail e => simp
  | put t l k ih =>
    simp only [Prog.put_bind, ends_put, ih]
    constructor
    · rintro ⟨es', rfl, es₁, es₂, b, rfl, h1, h2⟩; exact ⟨_ :: es₁, es₂, b, rfl, ⟨es₁, rfl, h1⟩, h2⟩
    · rintro ⟨_, es₂, b, rfl, ⟨es₁, rfl, h1⟩, h2⟩; exact ⟨es₁ ++ es₂, rfl, es₁, es₂, b, rfl, h1, h2⟩
  | get t n k ih =>
    simp only [Prog.get_bind, ends_get, ih]
    constructor
    · rintro ⟨x, es', rfl, es₁, es₂, b, rfl, h1, h2⟩; exact ⟨_ :: es₁, es₂, b, rfl, ⟨x, es₁, rfl, h1⟩, h2⟩
    · rintro ⟨_, es₂, b, rfl, ⟨x, es₁, rfl, h1⟩, h2⟩; exact ⟨x, es₁ ++ es₂, rfl, es₁, es₂, b, rfl, h1, h2⟩
  | load k ih =>
    simp only [Prog.load_bind, ends_load, ih]
    constructor
    · rintro ⟨x, es', rfl, es₁, es₂, b, rfl, h1, h2⟩; exact ⟨_ :: es₁, es₂, b, rfl, ⟨x, es₁, rfl, h1⟩, h2⟩
    · rintro ⟨_, es₂, b, rfl, ⟨x, es₁, rfl, h1⟩, h2⟩; exact ⟨x, es₁ ++ es₂, rfl, es₁, es₂, b, rfl, h1, h2⟩
  | op d k ih =>
    simp only [Prog.op_bind, ends_op, ih]
    constructor
    · rintro ⟨es', rfl, es₁, es₂, b, rfl, h1, h2⟩; exact ⟨_ :: es₁, es₂, b, rfl, ⟨es₁, rfl, h1⟩, h2⟩
    · rintro ⟨_, es₂, b, rfl, ⟨es₁, rfl, h1⟩, h2⟩; exact ⟨es₁ ++ es₂, rfl, es₁, es₂, b, rfl, h1, h2⟩

/-- The events of a loop are those of its rounds. -/
theorem ends_forEach {γ : Type} {f : γ → Prog T δ σ ε Unit} : ∀ {l : List γ} {es : List (Event T δ σ)},
    Ends (Prog.forEach l f) es () ↔
      ∃ ess : List (List (Event T δ σ)), es = ess.flatten ∧ List.Forall₂ (fun a es => Ends (f a) es ()) l ess
  | [], es => by simp [Prog.forEach]
  | a :: l, es => by
    simp only [Prog.forEach, ends_bind, ends_forEach, List.forall₂_cons_left_iff]
    constructor
    · rintro ⟨es₁, _, _, rfl, h1, ess, rfl, h2⟩; exact ⟨es₁ :: ess, rfl, es₁, ess, h1, h2, rfl⟩
    · rintro ⟨_, rfl, es₁, ess, h1, h2, rfl⟩; exact ⟨es₁, ess.flatten, (), rfl, h1, ess, rfl, h2⟩

/-- What a loop collects, when each round collects a known list. -/
theorem forEach_collects {γ ν : Type} {f : γ → Prog T δ σ ε Unit} {g : γ → List ν} {F : Event T δ σ → List ν}
    (hg : ∀ a es, Ends (f a) es () → es.flatMap F = g a) : ∀ {l : List γ} {es : List (Event T δ σ)},
    Ends (Prog.forEach l f) es () → es.flatMap F = l.flatMap g
  | [], es, h => by
    obtain ⟨rfl, _⟩ := ends_ret.1 h
    rfl
  | a :: l, es, h => by
    obtain ⟨es₁, es₂, _, rfl, h1, h2⟩ := ends_bind.1 h
    rw [List.flatMap_append, hg a es₁ h1, forEach_collects hg h2, List.flatMap_cons]

/-! ## Determinism -/

theorem move_unique (h : Move p e q) (h' : Move p e r) : q = r := by
  cases h with
  | put => cases h'; rfl
  | op => cases h'; rfl
  | load m => cases h'; rfl
  | get x =>
    generalize hl : Event.inp (tag _ x.toList) = e at h'
    cases h' with
    | get y =>
      rw [List.Vector.eq _ _ (tag_inj.1 (Event.inp.inj hl))]

/-- The events determine what a program becomes. -/
theorem follow_unique (h : Follow p es q) (h' : Follow p es r) : q = r := by
  induction h with
  | nil => exact (follow_nil.1 h').symm
  | cons hm _ ih =>
    cases h' with
    | cons hm' h' =>
      rw [move_unique hm hm'] at ih
      exact ih h'

theorem move_similar {e' : Event T δ σ} (h : Move p e q) (h' : Move p e' r) : e.Similar e' := by
  cases h with
  | put => cases h'; rfl
  | op => cases h'; rfl
  | load m => cases h'; trivial
  | get x => cases h' with | get y => simp [Event.Similar]

/-- A program that takes in what its script does, as far as it has come, has followed its script. -/
theorem follow_initial (hf : Follow p es q) : ∀ {sc}, Ends p sc v → (ins sc = [] ∨ ∃ l, ins es <+: ins sc ++ l) →
    (∀ m m', .load m ∈ es → .load m' ∈ sc → m = m') → es <+: sc := by
  induction hf with
  | nil => exact fun _ _ _ => List.nil_prefix
  | @cons p e q es r hm _ ih =>
    rintro sc hsc hins hload
    cases hsc with
    | nil => cases hm
    | @cons _ e₀ q₀ sc _ hm₀ hsc =>
      -- the program does the same kind of event in both, and what is read or loaded agrees
      have he : e = e₀ := by
        have hsim := move_similar hm hm₀
        cases e with
        | out l => cases e₀ with
          | out l₀ => exact congrArg Event.out hsim
          | inp | load | op => exact hsim.elim
        | op d => cases e₀ with
          | op d₀ => exact congrArg Event.op hsim
          | inp | load | out => exact hsim.elim
        | load m => cases e₀ with
          | load m₀ => exact congrArg Event.load (hload m m₀ (by simp) (by simp))
          | inp | op | out => exact hsim.elim
        | inp l => cases e₀ with
          | inp l₀ =>
            apply congrArg Event.inp
            rcases hins with h0 | ⟨u, h1⟩
            · -- nothing is read at all
              obtain rfl : l₀ = [] := (List.append_eq_nil_iff.1 h0).1
              exact List.eq_nil_of_length_eq_zero hsim
            · -- two prefixes of one list of the same length
              have hl : l <+: ins (.inp l₀ :: sc) ++ u := (List.prefix_append l (ins es)).trans h1
              rw [ins_cons, List.append_assoc] at hl
              exact List.IsPrefix.eq_of_length (List.prefix_of_prefix_length_le hl (List.prefix_append l₀ _) hsim.le) hsim
          | load | op | out => exact hsim.elim
      subst he
      rw [← move_unique hm hm₀] at hsc
      have hrest : ins sc = [] ∨ ∃ l, ins es <+: ins sc ++ l := by
        refine hins.imp (fun h => (List.append_eq_nil_iff.1 h).2) fun ⟨u, h⟩ => ⟨u, ?_⟩
        rwa [ins_cons, ins_cons, List.append_assoc, List.prefix_append_right_inj] at h
      exact List.cons_prefix_cons.2 ⟨rfl, ih hsc hrest fun m m' h h' =>
        hload m m' (List.mem_cons_of_mem _ h) (List.mem_cons_of_mem _ h')⟩

/-- Part of the way through its script a program can go on. -/
theorem script_move (hsc : Ends p (es ++ e :: es') v) (hf : Follow p es q) : ∃ q', Move q e q' := by
  obtain ⟨q', h1, h2⟩ := follow_append.1 hsc
  rw [follow_unique h1 hf] at h2
  cases h2 with
  | cons hm' _ => exact ⟨_, hm'⟩

/-- At the end of its script it returns. -/
theorem script_end (hsc : Ends p sc v) (hf : Follow p sc q) : q = .ret v := follow_unique hf hsc

theorem script_ret (hsc : Ends p sc v) (hes : es <+: sc) (hf : Ends p es w) : es = sc ∧ v = w := by
  obtain ⟨rest, rfl⟩ := hes
  obtain ⟨q', h1, h2⟩ := follow_append.1 hsc
  rw [follow_unique h1 hf] at h2
  obtain ⟨rfl, h⟩ := follow_ret.1 h2
  exact ⟨by simp, Prog.ret.inj h⟩

end Follow

/-! ## What a program can write -/

section Says

/-- However far the program has come, it has written the beginning of a list that `S` allows for what it has read. -/
def Says (p : Prog T δ σ ε α) (S : List (Msg T) → List (Msg T) → Prop) : Prop :=
  ∀ es q, Follow p es q → ∃ l, S (ins es) l ∧ outs es <+: l

variable {S : List (Msg T) → List (Msg T) → Prop}

theorem says_ret {a : α} (hS : ∃ l, S [] l) : Says (.ret a : Prog T δ σ ε α) S := by
  intro es q h
  obtain ⟨l, hl⟩ := hS
  obtain ⟨rfl, _⟩ := follow_ret.1 h
  exact ⟨l, hl, List.nil_prefix⟩

theorem says_fail {f : ε} (hS : ∃ l, S [] l) : Says (.fail f : Prog T δ σ ε α) S := by
  intro es q h
  obtain ⟨l, hl⟩ := hS
  obtain ⟨rfl, _⟩ := follow_fail.1 h
  exact ⟨l, hl, List.nil_prefix⟩

theorem says_put {t : K} {l : List (T t)} {k : Prog T δ σ ε α} (h : Says k fun r l' => S r (tag t l ++ l')) :
    Says (.put t l k) S := by
  intro es q hf
  rcases follow_put.1 hf with ⟨rfl, _⟩ | ⟨es', rfl, hf'⟩
  · obtain ⟨l', hl', _⟩ := h [] k .nil
    exact ⟨_, hl', List.nil_prefix⟩
  · obtain ⟨l', hl', hp⟩ := h es' q hf'
    exact ⟨_, hl', (List.prefix_append_right_inj _).2 hp⟩

theorem says_get {t : K} {n : ℕ} {k : List.Vector (T t) n → Prog T δ σ ε α} (hS : ∃ l, S [] l)
    (h : ∀ x : List.Vector (T t) n, Says (k x) fun r l => S (tag t x.toList ++ r) l) : Says (.get t n k) S := by
  rintro es q (_ | ⟨hm, hf⟩)
  · obtain ⟨l, hl⟩ := hS
    exact ⟨l, hl, List.nil_prefix⟩
  · cases hm with
    | get x =>
      obtain ⟨l, hl, hp⟩ := h x _ q hf
      exact ⟨l, hl, by simpa using hp⟩

theorem says_lift_bind {x : Except ε β} {k : β → Prog T δ σ ε α} (hS : ∃ l, S [] l) (h : ∀ b, x = .ok b → Says (k b) S) :
    Says (Prog.lift x >>= k) S := by
  cases x with
  | ok b => exact h b rfl
  | error f => exact says_fail hS

end Says

end Thread
