/-
The Bloom filter: `create_BF_threads` gives the items to 37 threads, and `bf_thread` sets the bits of
its items and collects them in the sets `h_kokhav`.

Whatever the order of the threads' actions, the filter and the sets are those of all items
(`bloom_mem_eq`).
-/
import Mpsi.Data.Fault
import Mpsi.Lib.OrdSet
import Mpsi.Lib.Pool

namespace Mpsi

open Thread

/-- The Bloom filter and the sets `h_kokhav`. -/
structure BloomMem where
  bits : ℕ → Bool
  h_kokhav : ℕ → OrdSet ℕ

/-- The writes of `bf_thread`: `BF->set_bit(h, 1)` and `h_kokhav[i].insert(h)`. -/
inductive BloomOp where
  | setBit (h : ℕ)
  | insert (i h : ℕ)
  deriving DecidableEq

def BloomOp.exec : BloomOp → BloomMem → Except Fault BloomMem
  | .setBit h, m => .ok { m with bits := Function.update m.bits h true }
  | .insert i h, m => .ok { m with h_kokhav := Function.update m.h_kokhav i ((m.h_kokhav i).insert h) }

/-! ## The threads -/

section Threads

variable {K : Type} {T : K → Type}

/-- `w % Nbf`. -/
def hashMod (Nbf w : ℕ) : Prog T BloomOp BloomMem Fault ℕ := if Nbf = 0 then .fail .divByZero else .ret (w % Nbf)

/-- The AES output number `j` for an item. -/
def hashBlock (aes : Block → Block → Block) (seed : Block) (item : ℤ) (j : ℕ) : Block :=
  aes seed (toBlock item 0 ^^^ toBlock 0 j)

/-- The round of `bf_thread` for item number `i`. -/
def bfItem (aes : Block → Block → Block) (seed : Block) (Nbf seeds_num i : ℕ) (item : ℤ) :
    Prog T BloomOp BloomMem Fault Unit := do
  Prog.forEach (List.range (seeds_num / 2)) fun j => do
    let h1 ← hashMod Nbf (hashBlock aes seed item j).low
    let h2 ← hashMod Nbf (hashBlock aes seed item j).high
    Prog.act (.setBit h1)
    Prog.act (.setBit h2)
    Prog.act (.insert i h1)
    Prog.act (.insert i h2)
  if seeds_num % 2 = 1 then do
    let h1 ← hashMod Nbf (hashBlock aes seed item (seeds_num / 2)).low
    Prog.act (.setBit h1)
    Prog.act (.insert i h1)
  else pure ()

/-- `functions::bf_thread` on the items from `start` on before `stop`. -/
def bfThread (aes : Block → Block → Block) (seed : Block) (Nbf seeds_num : ℕ) (items : List ℤ) (start stop : ℕ) :
    Prog T BloomOp BloomMem Fault Unit :=
  Prog.forEach (List.range' start (stop - start)) fun i => do
    let item ← Prog.lift (readAt none items i)
    bfItem aes seed Nbf seeds_num i item

/-- Where the items of thread `a` begin: 36 threads get a 36th of the items each. -/
def bfStart (len : ℕ) (a : Fin 37) : ℕ := a * (len / 36)

/-- Where they end; the last thread gets what remains. -/
def bfStop (len : ℕ) (a : Fin 37) : ℕ := if a.val < 36 then (a + 1) * (len / 36) else len

/-- `functions::create_BF_threads`, with the filter of `Bitstring(Nbf)`. -/
def bloomStage (χ : Type) (aes : Block → Block → Block) (seed : Block) (Nbf seeds_num : ℕ) (items : List ℤ) :
    Stage T BloomOp BloomMem Fault χ (fun _ : Fin 37 => Unit) where
  prog := fun a => bfThread aes seed Nbf seeds_num items (bfStart items.length a) (bfStop items.length a)
  port := fun _ => ⟨none, none⟩
  exec := BloomOp.exec
  init := ⟨fun _ => false, fun _ => .empty⟩

end Threads

/-! ## The hashes of an item -/

/-- The hashes of an item in the order of `bf_thread`. -/
def hashes (aes : Block → Block → Block) (seed : Block) (Nbf seeds_num : ℕ) (item : ℤ) : List ℕ :=
  (List.range (seeds_num / 2)).flatMap (fun j =>
    [(hashBlock aes seed item j).low % Nbf, (hashBlock aes seed item j).high % Nbf]) ++
  if seeds_num % 2 = 1 then [(hashBlock aes seed item (seeds_num / 2)).low % Nbf] else []

/-- `h*(item)`. -/
def hStar (aes : Block → Block → Block) (seed : Block) (Nbf seeds_num : ℕ) (item : ℤ) : OrdSet ℕ :=
  (hashes aes seed Nbf seeds_num item).foldr OrdSet.insert .empty

theorem mem_hStar {aes : Block → Block → Block} {seed : Block} {Nbf seeds_num : ℕ} {item : ℤ} {c : ℕ} :
    c ∈ (hStar aes seed Nbf seeds_num item).elems ↔ c ∈ hashes aes seed Nbf seeds_num item := by
  unfold hStar
  induction hashes aes seed Nbf seeds_num item with
  | nil => simp
  | cons a l ih => simp [ih]

theorem hashes_lt {aes : Block → Block → Block} {seed : Block} {Nbf seeds_num : ℕ} {item : ℤ} {c : ℕ} (hN : 0 < Nbf)
    (h : c ∈ hashes aes seed Nbf seeds_num item) : c < Nbf := by
  simp only [hashes, List.mem_append, List.mem_flatMap, List.mem_cons, List.not_mem_nil, or_false] at h
  rcases h with ⟨j, _, rfl | rfl⟩ | h
  · exact Nat.mod_lt _ hN
  · exact Nat.mod_lt _ hN
  · split at h
    · rw [List.mem_singleton.1 h]; exact Nat.mod_lt _ hN
    · cases h

theorem hashes_eq_nil {aes : Block → Block → Block} {seed : Block} {Nbf : ℕ} {item : ℤ} :
    hashes aes seed Nbf 0 item = [] := rfl

theorem hashes_ne_nil {aes : Block → Block → Block} {seed : Block} {Nbf seeds_num : ℕ} {item : ℤ} (h : 0 < seeds_num) :
    hashes aes seed Nbf seeds_num item ≠ [] := by
  unfold hashes
  by_cases hodd : seeds_num % 2 = 1
  · simp [hodd]
  · obtain ⟨k, hk⟩ : ∃ k, seeds_num / 2 = k + 1 := ⟨seeds_num / 2 - 1, by omega⟩
    simp [hk, List.range_succ]

/-! ## What the threads do -/

section Ops

variable {K : Type} {T : K → Type} {aes : Block → Block → Block} {seed : Block} {Nbf seeds_num : ℕ} {items : List ℤ}

theorem ends_hashMod {β : Type} {w : ℕ} {f : ℕ → Prog T BloomOp BloomMem Fault β} {es} {v : β} :
    Ends (hashMod Nbf w >>= f) es v ↔ Nbf ≠ 0 ∧ Ends (f (w % Nbf)) es v := by
  unfold hashMod
  split
  · simp_all
  · simp_all

/-- `d` is one of the writes for item `i` with the hashes `hs`. -/
def Writes (i : ℕ) (hs : List ℕ) (d : BloomOp) : Prop := ∃ h ∈ hs, d = .setBit h ∨ d = .insert i h

/-- The writes for item number `i` in the order of `bf_thread`. -/
def itemOps (aes : Block → Block → Block) (seed : Block) (Nbf seeds_num i : ℕ) (item : ℤ) : List BloomOp :=
  (List.range (seeds_num / 2)).flatMap (fun j =>
    [.setBit ((hashBlock aes seed item j).low % Nbf), .setBit ((hashBlock aes seed item j).high % Nbf),
      .insert i ((hashBlock aes seed item j).low % Nbf), .insert i ((hashBlock aes seed item j).high % Nbf)]) ++
  if seeds_num % 2 = 1 then
    [.setBit ((hashBlock aes seed item (seeds_num / 2)).low % Nbf),
      .insert i ((hashBlock aes seed item (seeds_num / 2)).low % Nbf)]
  else []

theorem ops_bfItem {i : ℕ} {item : ℤ} {es : List (Event T BloomOp BloomMem)}
    (h : Ends (bfItem aes seed Nbf seeds_num i item) es ()) : ops es = itemOps aes seed Nbf seeds_num i item := by
  obtain ⟨es₁, es₂, _, rfl, h1, h2⟩ := ends_bind.1 h
  rw [ops_append, itemOps]
  congr 1
  · refine forEach_collects (F := Event.ops) (fun j es hes => ?_) h1
    simp only [ends_hashMod, Prog.act, Prog.op_bind, Prog.ret_bind, ends_op, ends_ret] at hes
    obtain ⟨_, _, _, rfl, _, rfl, _, rfl, _, rfl, rfl, _⟩ := hes
    rfl
  · split at h2
    · rename_i ho
      simp only [ends_hashMod, Prog.act, Prog.op_bind, Prog.ret_bind, ends_op, ends_ret] at h2
      obtain ⟨_, _, rfl, _, rfl, rfl, _⟩ := h2
      rw [if_pos ho]; rfl
    · rename_i ho
      simp only [Prog.pure_eq, ends_ret] at h2
      rw [if_neg ho, h2.1]; rfl

theorem mem_itemOps {i : ℕ} {item : ℤ} {d : BloomOp} :
    d ∈ itemOps aes seed Nbf seeds_num i item ↔ Writes i (hashes aes seed Nbf seeds_num item) d := by
  simp only [itemOps, Writes, hashes, List.mem_append, List.mem_flatMap, List.mem_cons, List.not_mem_nil, or_false]
  constructor
  · rintro (⟨j, hj, rfl | rfl | rfl | rfl⟩ | hd)
    · exact ⟨_, Or.inl ⟨j, hj, Or.inl rfl⟩, Or.inl rfl⟩
    · exact ⟨_, Or.inl ⟨j, hj, Or.inr rfl⟩, Or.inl rfl⟩
    · exact ⟨_, Or.inl ⟨j, hj, Or.inl rfl⟩, Or.inr rfl⟩
    · exact ⟨_, Or.inl ⟨j, hj, Or.inr rfl⟩, Or.inr rfl⟩
    · split at hd
      · rename_i ho
        rw [if_pos ho]
        simp only [List.mem_cons, List.not_mem_nil, or_false] at hd
        exact ⟨_, Or.inr (List.mem_singleton_self _), hd⟩
      · cases hd
  · rintro ⟨h, ⟨j, hj, rfl | rfl⟩ | hh, hd⟩
    · exact Or.inl ⟨j, hj, by rcases hd with rfl | rfl <;> simp⟩
    · exact Or.inl ⟨j, hj, by rcases hd with rfl | rfl <;> simp⟩
    · split at hh
      · rename_i ho
        rw [List.mem_singleton.1 hh] at hd
        rw [if_pos ho]
        exact Or.inr (by rcases hd with rfl | rfl <;> simp)
      · cases hh

/-- A round that hashes its item divides by `Nbf`. -/
theorem bfItem_Nbf {i : ℕ} {item : ℤ} {es : List (Event T BloomOp BloomMem)}
    (h : Ends (bfItem aes seed Nbf seeds_num i item) es ()) (hne : hashes aes seed Nbf seeds_num item ≠ []) : Nbf ≠ 0 := by
  obtain ⟨es₁, es₂, _, rfl, h1, h2⟩ := ends_bind.1 h
  by_cases hodd : seeds_num % 2 = 1
  · rw [if_pos hodd] at h2
    exact (ends_hashMod.1 h2).1
  · cases hk : seeds_num / 2 with
    | zero =>
      obtain rfl : seeds_num = 0 := by omega
      exact absurd rfl hne
    | succ k =>
      rw [hk, List.range_succ_eq_map] at h1
      obtain ⟨_, _, _, _, hround, _⟩ := ends_bind.1 h1
      exact (ends_hashMod.1 hround).1

/-- What a thread that has returned has written, item by item. -/
theorem ops_bfThread {start stop : ℕ} {es : List (Event T BloomOp BloomMem)}
    (h : Ends (bfThread aes seed Nbf seeds_num items start stop) es ()) :
    ops es = (List.range' start (stop - start)).flatMap fun i => items[i]?.elim [] (itemOps aes seed Nbf seeds_num i) := by
  refine forEach_collects (F := Event.ops) (fun i es hes => ?_) h
  obtain ⟨item, hi, he⟩ := ends_lift_bind.1 hes
  obtain ⟨n, hn, hin⟩ := readAt_none_ok.1 hi
  cases Nat.cast_injective hn
  rw [hin]
  exact ops_bfItem he

theorem bfThread_ops {start stop : ℕ} {es : List (Event T BloomOp BloomMem)}
    (h : Ends (bfThread aes seed Nbf seeds_num items start stop) es ()) (d : BloomOp) :
    d ∈ ops es ↔ ∃ i item, start ≤ i ∧ i < stop ∧ items[i]? = some item ∧
      Writes i (hashes aes seed Nbf seeds_num item) d := by
  have hitem : ∀ i, d ∈ items[i]?.elim [] (itemOps aes seed Nbf seeds_num i) ↔
      ∃ item, items[i]? = some item ∧ Writes i (hashes aes seed Nbf seeds_num item) d := by
    intro i
    cases items[i]? with
    | none => simp
    | some item => simp [mem_itemOps]
  rw [ops_bfThread h, List.mem_flatMap]
  constructor
  · rintro ⟨i, hi, hd⟩
    obtain ⟨h1, h2⟩ := List.mem_range'_1.1 hi
    obtain ⟨item, h3, h4⟩ := (hitem i).1 hd
    exact ⟨i, item, h1, by omega, h3, h4⟩
  · rintro ⟨i, item, h1, h2, h3, h4⟩
    exact ⟨i, List.mem_range'_1.2 ⟨h1, by omega⟩, (hitem i).2 ⟨item, h3, h4⟩⟩

theorem bfThread_Nbf {start stop i : ℕ} {item : ℤ} {es : List (Event T BloomOp BloomMem)}
    (h : Ends (bfThread aes seed Nbf seeds_num items start stop) es ()) (h1 : start ≤ i) (h2 : i < stop)
    (hi : items[i]? = some item) (hne : hashes aes seed Nbf seeds_num item ≠ []) : Nbf ≠ 0 := by
  obtain ⟨ess, rfl, hf⟩ := ends_forEach.1 h
  obtain ⟨k, hk, hki⟩ := List.getElem_of_mem (show i ∈ List.range' start (stop - start) from List.mem_range'_1.2 ⟨h1, by omega⟩)
  have hk' : k < ess.length := by rw [← hf.length_eq]; exact hk
  obtain ⟨item', hr, he⟩ := ends_lift_bind.1 (hf.get hk hk')
  obtain ⟨n, hn, hin⟩ := readAt_none_ok.1 hr
  have hni : n = i := by
    rw [← hki]
    exact (Nat.cast_injective hn).symm
  rw [hni, hi] at hin
  cases hin
  exact bfItem_Nbf he hne

/-- The program can come to its end with writes to its memory alone. -/
def Acts (p : Prog T BloomOp BloomMem Fault Unit) : Prop := ∃ es, Ends p es () ∧ ∀ ev ∈ es, ∃ d, ev = .op d

theorem acts_ret : Acts (.ret () : Prog T BloomOp BloomMem Fault Unit) := ⟨[], ends_ret.2 ⟨rfl, rfl⟩, by simp⟩

theorem acts_op {d : BloomOp} {k : Prog T BloomOp BloomMem Fault Unit} (h : Acts k) : Acts (.op d k) := by
  obtain ⟨es, hes, ho⟩ := h
  refine ⟨.op d :: es, ends_op.2 ⟨es, rfl, hes⟩, fun ev hev => ?_⟩
  rcases List.mem_cons.1 hev with rfl | hev
  · exact ⟨d, rfl⟩
  · exact ho ev hev

theorem acts_bind {p : Prog T BloomOp BloomMem Fault Unit} {f : Unit → Prog T BloomOp BloomMem Fault Unit} (h : Acts p)
    (h' : Acts (f ())) : Acts (p >>= f) := by
  obtain ⟨es₁, h1, ho1⟩ := h
  obtain ⟨es₂, h2, ho2⟩ := h'
  exact ⟨es₁ ++ es₂, ends_bind.2 ⟨es₁, es₂, (), rfl, h1, h2⟩, fun ev hev => (List.mem_append.1 hev).elim (ho1 ev) (ho2 ev)⟩

theorem acts_forEach {γ : Type} {f : γ → Prog T BloomOp BloomMem Fault Unit} : ∀ {l : List γ},
    (∀ a ∈ l, Acts (f a)) → Acts (Prog.forEach l f)
  | [], _ => acts_ret
  | _ :: _, h => acts_bind (h _ (by simp)) (acts_forEach fun b hb => h b (List.mem_cons_of_mem _ hb))

theorem acts_bfItem {i : ℕ} {item : ℤ} (hN : hashes aes seed Nbf seeds_num item ≠ [] → Nbf ≠ 0) :
    Acts (bfItem (T := T) aes seed Nbf seeds_num i item) := by
  by_cases hseeds : seeds_num = 0
  · subst hseeds
    exact acts_ret
  · have hmod : ∀ w, hashMod (T := T) Nbf w = .ret (w % Nbf) := fun w =>
      if_neg (hN (hashes_ne_nil (Nat.pos_of_ne_zero hseeds)))
    unfold bfItem
    simp only [hmod, Prog.ret_bind, Prog.act, Prog.op_bind]
    refine acts_bind (acts_forEach fun _ _ => acts_op (acts_op (acts_op (acts_op acts_ret)))) ?_
    split
    · exact acts_op (acts_op acts_ret)
    · exact acts_ret

/-- A thread comes to its end when it can hash its items. -/
theorem acts_bfThread {start stop : ℕ} (hs : stop ≤ items.length)
    (hN : ∀ item ∈ items, hashes aes seed Nbf seeds_num item ≠ [] → Nbf ≠ 0) :
    Acts (bfThread (T := T) aes seed Nbf seeds_num items start stop) := by
  apply acts_forEach
  intro i hi
  have hlt : i < items.length := by have := List.mem_range'_1.1 hi; omega
  rw [readAt_nat i hlt]
  exact acts_bfItem (hN items[i] (List.getElem_mem hlt))

end Ops

/-- Every item has its thread, -/
theorem exists_bf_thread {len i : ℕ} (hi : i < len) : ∃ a : Fin 37, bfStart len a ≤ i ∧ i < bfStop len a := by
  by_cases h : i < 36 * (len / 36)
  · have hj : 0 < len / 36 := by omega
    have ha : i / (len / 36) < 36 := (Nat.div_lt_iff_lt_mul hj).2 h
    refine ⟨⟨i / (len / 36), by omega⟩, Nat.div_mul_le_self _ _, ?_⟩
    unfold bfStop
    rw [if_pos ha]
    exact Nat.lt_mul_of_div_lt (Nat.lt_succ_self _) hj
  · refine ⟨⟨36, by omega⟩, ?_, ?_⟩
    · simp only [bfStart]; omega
    · simp [bfStop, hi]

/-- and only one. -/
theorem bf_thread_unique {len i : ℕ} {a b : Fin 37} (ha : bfStart len a ≤ i) (ha' : i < bfStop len a) (hb : bfStart len b ≤ i)
    (hb' : i < bfStop len b) : a = b := by
  have hlt : ∀ {a b : Fin 37}, a < b → bfStop len a ≤ bfStart len b := by
    intro a b hab
    have h36 : a.val < 36 := by omega
    unfold bfStop
    rw [if_pos h36, bfStart]
    exact Nat.mul_le_mul_right _ hab
  rcases lt_trichotomy a b with hab | hab | hab
  · have := hlt hab; omega
  · exact hab
  · have := hlt hab; omega

theorem bfStop_le (len : ℕ) (a : Fin 37) : bfStop len a ≤ len := by
  unfold bfStop
  split
  · rename_i h
    have : (a.val + 1) * (len / 36) ≤ 36 * (len / 36) := Nat.mul_le_mul_right _ h
    omega
  · exact le_rfl

section Stage

variable {K : Type} {T : K → Type} {χ : Type} {aes : Block → Block → Block} {seed : Block} {Nbf seeds_num : ℕ} {items : List ℤ}

/-- The threads use no streams. -/
theorem bloomStage_ported {mineW mineR : χ → Prop} :
    (bloomStage (T := T) χ aes seed Nbf seeds_num items).Ported mineW mineR := by
  constructor <;> intros <;> contradiction

/-- They can all return. -/
theorem exists_bloom_script (hN : ∀ item ∈ items, hashes aes seed Nbf seeds_num item ≠ [] → Nbf ≠ 0) {w r : χ → List (Msg T)} :
    ∃ sc, (bloomStage χ aes seed Nbf seeds_num items).Script w r w r sc (fun _ => ()) := by
  have h : ∀ a : Fin 37, Acts (T := T) (bfThread aes seed Nbf seeds_num items (bfStart items.length a) (bfStop items.length a)) :=
    fun a => acts_bfThread (bfStop_le _ a) hN
  choose sc hsc hops using h
  refine ⟨sc, hsc, fun a x hx => ?_, fun d x => ?_, fun hc => ?_, fun hc => ?_, fun a _ l hl => ?_, fun a _ l hl => ?_,
    fun _ => List.prefix_rfl⟩
  · obtain ⟨d, hd⟩ := hops a _ hx; cases hd
  · cases d <;> exact ⟨_, rfl⟩
  · cases hc
  · cases hc
  · obtain ⟨d, hd⟩ := hops a _ hl; cases hd
  · obtain ⟨d, hd⟩ := hops a _ hl; cases hd

end Stage

/-! ## The filter and the sets -/

/-- The bits of the filter of a list of items. -/
def bloomBits (aes : Block → Block → Block) (seed : Block) (Nbf seeds_num : ℕ) (items : List ℤ) (c : ℕ) : Bool :=
  decide (∃ item ∈ items, c ∈ hashes aes seed Nbf seeds_num item)

/-- The set of item number `i`. -/
def bloomSets (aes : Block → Block → Block) (seed : Block) (Nbf seeds_num : ℕ) (items : List ℤ) (i : ℕ) : OrdSet ℕ :=
  match items[i]? with
  | some item => hStar aes seed Nbf seeds_num item
  | none => .empty

section Mem

variable {K : Type} {T : K → Type} {χ : Type} {aes : Block → Block → Block} {seed : Block} {Nbf seeds_num : ℕ}
  {items : List ℤ} {o : Fin 37 → List BloomOp} {m : BloomMem}

/-- The actions add up in any order. -/
theorem bloom_ran (h : (bloomStage (T := T) χ aes seed Nbf seeds_num items).Ran o m) :
    (∀ c, m.bits c = true ↔ ∃ a, .setBit c ∈ o a) ∧
      ∀ i c, c ∈ (m.h_kokhav i).elems ↔ ∃ a, .insert i c ∈ o a := by
  induction h with
  | start => simp [bloomStage]
  | @step o m a d m' _ hx ih =>
    -- the operations are those of before and this one
    have hmem : ∀ d', (∃ b, d' ∈ Function.update o a (o a ++ [d]) b) ↔ (∃ b, d' ∈ o b) ∨ d' = d := by
      intro d'
      constructor
      · rintro ⟨b, hb⟩
        by_cases hba : b = a
        · subst hba
          rw [Function.update_self, List.mem_append, List.mem_singleton] at hb
          exact hb.imp_left fun hb => ⟨b, hb⟩
        · rw [Function.update_of_ne hba] at hb
          exact Or.inl ⟨b, hb⟩
      · rintro (⟨b, hb⟩ | rfl)
        · by_cases hba : b = a
          · subst hba; exact ⟨b, by simp [hb]⟩
          · exact ⟨b, by simpa [hba] using hb⟩
        · exact ⟨a, by simp⟩
    simp only [hmem, ← ih.1, ← ih.2]
    cases d with
    | setBit h =>
      cases hx
      refine ⟨fun c => ?_, fun i c => by simp⟩
      by_cases hc : c = h
      · subst hc; simp
      · simp [hc]
    | insert i h =>
      cases hx
      refine ⟨fun c => by simp, fun i' c => ?_⟩
      by_cases hi : i' = i
      · subst hi; simp [or_comm]
      · simp [hi]

theorem bloom_mem_eq (h : (bloomStage (T := T) χ aes seed Nbf seeds_num items).Ran o m)
    (ho : ∀ d, (∃ a, d ∈ o a) ↔ ∃ i item, items[i]? = some item ∧ Writes i (hashes aes seed Nbf seeds_num item) d) :
    m.bits = bloomBits aes seed Nbf seeds_num items ∧ m.h_kokhav = bloomSets aes seed Nbf seeds_num items := by
  obtain ⟨hb, hh⟩ := bloom_ran h
  constructor
  · funext c
    rw [Bool.eq_iff_iff, hb, ho, bloomBits, decide_eq_true_iff]
    constructor
    · rintro ⟨i, item, hi, h, hm, he | he⟩
      · cases he; exact ⟨item, List.mem_of_getElem? hi, hm⟩
      · cases he
    · rintro ⟨item, hi, hm⟩
      obtain ⟨i, hi⟩ := List.getElem?_of_mem hi
      exact ⟨i, item, hi, c, hm, Or.inl rfl⟩
  · funext i
    apply OrdSet.ext
    intro c
    rw [hh, ho, bloomSets]
    constructor
    · rintro ⟨i', item, hi, h, hm, he | he⟩
      · cases he
      · cases he; rw [hi]; exact mem_hStar.2 hm
    · intro hc
      split at hc
      · rename_i item hi
        exact ⟨i, item, hi, c, mem_hStar.1 hc, Or.inr rfl⟩
      · cases hc

/-- The threads that have all returned have together written the hashes of all items. -/
theorem bloom_all_ops {es : Fin 37 → List (Event T BloomOp BloomMem)}
    (h : ∀ a, Ends ((bloomStage χ aes seed Nbf seeds_num items).prog a) (es a) ()) (d : BloomOp) :
    (∃ a, d ∈ ops (es a)) ↔ ∃ i item, items[i]? = some item ∧ Writes i (hashes aes seed Nbf seeds_num item) d := by
  constructor
  · rintro ⟨a, hd⟩
    obtain ⟨i, item, _, _, hi, hw⟩ := (bfThread_ops (h a) d).1 hd
    exact ⟨i, item, hi, hw⟩
  · rintro ⟨i, item, hi, hw⟩
    obtain ⟨a, h1, h2⟩ := exists_bf_thread (List.getElem?_eq_some_iff.1 hi).1
    exact ⟨a, (bfThread_ops (h a) d).2 ⟨i, item, h1, h2, hi, hw⟩⟩

end Mem

end Mpsi
