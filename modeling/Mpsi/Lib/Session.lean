/-
What the two ends of a byte stream have to agree on when nothing on the wire says where a message
ends: the size of every message, which may depend on the messages before it (`Session`).

Two ends that keep to one session and have the same bytes have the same messages (`agree`). An end may
also take a message in several parts: `cut` cuts the messages from some number on.
-/
import Mathlib.Data.List.SplitLengths
import Mathlib.Tactic

variable {β : Type}

/-- The messages of a stream by their sizes, each known once the messages before it are. -/
inductive Session (β : Type) where
  | stop
  | msg (size : ℕ) (next : List β → Session β)

namespace Session

/-- Messages of these sizes, and then `S`. -/
def sizes : List ℕ → Session β → Session β
  | [], S => S
  | n :: ns, S => .msg n fun _ => sizes ns S

/-- What is left of a session after some messages, if they keep to it. -/
def after : Session β → List (List β) → Option (Session β)
  | S, [] => some S
  | .stop, _ :: _ => none
  | .msg n next, m :: ms => if m.length = n then (next m).after ms else none

variable {S T X Y : Session β} {m : List β} {ms xs ys : List (List β)} {n : ℕ} {ns : List ℕ} {next : List β → Session β}

@[simp] theorem after_nil : S.after [] = some S := by cases S <;> rfl

@[simp] theorem stop_after_cons : (stop : Session β).after (m :: ms) = none := rfl

theorem msg_after_cons : (msg n next).after (m :: ms) = if m.length = n then (next m).after ms else none := rfl

theorem after_append : S.after (xs ++ ys) = (S.after xs).bind fun T => T.after ys := by
  induction xs generalizing S with
  | nil => simp
  | cons m xs ih =>
    cases S with
    | stop => rfl
    | msg n next =>
      rw [List.cons_append, msg_after_cons, msg_after_cons]
      split
      · exact ih
      · rfl

/-- One message more. -/
theorem after_snoc (h : S.after xs = some (.msg m.length next)) : S.after (xs ++ [m]) = some (next m) := by
  rw [after_append, h, Option.bind_some, msg_after_cons, if_pos rfl, after_nil]

/-- Messages with the same bytes so far are the same messages. -/
theorem agree (hx : S.after xs = some X) (hy : S.after ys = some Y)
    (h : xs.flatten <+: ys.flatten ∨ ys.flatten <+: xs.flatten) : xs <+: ys ∨ ys <+: xs := by
  induction xs generalizing S ys with
  | nil => exact Or.inl List.nil_prefix
  | cons m xs ih =>
    cases ys with
    | nil => exact Or.inr List.nil_prefix
    | cons m' ys =>
      cases S with
      | stop => cases hx
      | msg n next =>
        rw [msg_after_cons] at hx hy
        split at hx
        · rename_i hm
          split at hy
          · rename_i hm'
            -- the sizes are the same, so the first messages are
            have hmm : m = m' := by
              rw [List.flatten_cons, List.flatten_cons] at h
              have hc : m <+: m' ∨ m' <+: m := by
                rcases h with h | h
                · exact List.prefix_or_prefix_of_prefix ((List.prefix_append _ _).trans h) (List.prefix_append _ _)
                · exact (List.prefix_or_prefix_of_prefix ((List.prefix_append _ _).trans h) (List.prefix_append _ _)).symm
              rcases hc with hc | hc
              · exact hc.eq_of_length (hm.trans hm'.symm)
              · exact (hc.eq_of_length (hm'.trans hm.symm)).symm
            subst hmm
            simp only [List.flatten_cons, List.prefix_append_right_inj] at h
            simp only [List.cons_prefix_cons, true_and]
            exact ih hx hy h
          · cases hy
        · cases hx

/-- Nothing follows the messages of a whole session. -/
theorem eq_of_stop (hx : S.after xs = some .stop) (hy : S.after ys = some Y) (h : xs <+: ys) : xs = ys := by
  obtain ⟨t, rfl⟩ := h
  rw [after_append, hx, Option.bind_some] at hy
  cases t with
  | nil => simp
  | cons m t => cases hy

/-! ## Sizes -/

theorem sizes_after (h : ms.map List.length = ns) : (sizes ns S).after ms = some S := by
  induction ms generalizing ns with
  | nil => subst h; simp [sizes]
  | cons m ms ih =>
    subst h
    rw [List.map_cons, sizes, msg_after_cons, if_pos rfl]
    exact ih rfl

/-- The messages of a session of fixed sizes. -/
theorem sizes_stop_after : (sizes ns (.stop : Session β)).after ms = some T →
    ∃ rest, ns = ms.map List.length ++ rest ∧ T = sizes rest .stop := by
  induction ms generalizing ns with
  | nil =>
    intro h
    rw [after_nil] at h
    exact ⟨ns, rfl, (Option.some.inj h).symm⟩
  | cons m ms ih =>
    intro h
    cases ns with
    | nil => cases h
    | cons n ns =>
      unfold sizes at h
      rw [msg_after_cons] at h
      split at h
      · rename_i hm
        obtain ⟨rest, rfl, rfl⟩ := ih h
        exact ⟨rest, by simp [hm], rfl⟩
      · cases h

theorem sizes_append {ns' : List ℕ} : sizes (ns ++ ns') S = sizes ns (sizes ns' S) := by
  induction ns with
  | nil => rfl
  | cons n ns ih => simp only [List.cons_append, sizes, ih]

/-! ## Messages in parts -/

/-- The messages with those from number `k` on cut into parts of the sizes `ns`. -/
def cut (k : ℕ) (ns : List ℕ) (ms : List (List β)) : List (List β) :=
  ms.take k ++ (ms.drop k).flatMap ns.splitLengths

theorem cut_of_length_le {k : ℕ} (h : ms.length ≤ k) : cut k ns ms = ms := by
  unfold cut
  rw [List.take_of_length_le h, List.drop_eq_nil_of_le h, List.flatMap_nil, List.append_nil]

/-- When only the last message of a session is cut, the parts keep to the session of their sizes. -/
theorem cut_after {ns₀ : List ℕ} (h : (sizes (ns₀ ++ [ns.sum]) (.stop : Session β)).after ms = some T) :
    (cut ns₀.length ns ms).flatten = ms.flatten ∧
      ∃ T', (sizes (ns₀ ++ ns) .stop).after (cut ns₀.length ns ms) = some T' ∧ (T = .stop → T' = .stop) := by
  obtain ⟨rest, hrest, rfl⟩ := sizes_stop_after h
  have hlen : ms.length + rest.length = ns₀.length + 1 := by
    have := congrArg List.length hrest
    simpa using this.symm
  cases rest with
  | nil =>
    -- all messages are there, the last one as its parts
    have hms : ms.length = ns₀.length + 1 := by simpa using hlen
    obtain ⟨ms₀, m, rfl⟩ : ∃ ms₀ m, ms = ms₀ ++ [m] := by
      rcases List.eq_nil_or_concat ms with rfl | ⟨ms₀, m, hm⟩
      · cases hms
      · exact ⟨ms₀, m, by simpa using hm⟩
    rw [List.append_nil, List.map_append] at hrest
    obtain ⟨rfl, hm⟩ := List.append_inj' hrest rfl
    have hm' : m.length = ns.sum := by simpa using hm.symm
    have hcut : cut (ms₀.map List.length).length ns (ms₀ ++ [m]) = ms₀ ++ ns.splitLengths m := by
      simp [cut]
    refine ⟨?_, .stop, ?_, fun _ => rfl⟩
    · rw [hcut, List.flatten_append, List.flatten_append, List.flatten_splitLengths _ _ hm'.le]
      simp
    · rw [hcut]
      apply sizes_after
      rw [List.map_append, List.map_splitLengths_length _ _ hm'.ge]
  | cons n rest =>
    have hle : ms.length ≤ ns₀.length := by simp at hlen; omega
    rw [cut_of_length_le hle]
    refine ⟨rfl, ?_⟩
    have hpre : ms.map List.length <+: ns₀ := by
      have h1 : ms.map List.length <+: ns₀ ++ [ns.sum] := ⟨_, hrest.symm⟩
      exact List.prefix_of_prefix_length_le h1 (List.prefix_append _ _) (by simpa using hle)
    obtain ⟨t, rfl⟩ := hpre
    refine ⟨sizes (t ++ ns) .stop, ?_, fun hT => ?_⟩
    · rw [List.append_assoc, sizes_append]
      exact sizes_after rfl
    · cases hT

end Session
