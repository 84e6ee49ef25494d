/-
Who writes and who reads which stream, and which thread of a phase uses which one: `setUp_out`,
`offline_out` and their likes name the streams of the ports by the two players.
-/
import Mpsi.Run.Party

namespace Mpsi

open Thread Stream

/-- The player that writes a stream; none of the `n` players if there is no such stream. -/
def writer (n : ℕ) (c : Sock) : ℕ :=
  match c.decode n with
  | some d => d.src
  | none => n

/-- The player that reads it. -/
def reader (n : ℕ) (c : Sock) : ℕ :=
  match c.decode n with
  | some d => d.dst
  | none => n

theorem writer_sock {n : ℕ} {d : Chan} (h : d.Valid n) : writer n (d.sock n) = d.src := by
  unfold writer
  rw [decode_sock h]

theorem reader_sock {n : ℕ} {d : Chan} (h : d.Valid n) : reader n (d.sock n) = d.dst := by
  unfold reader
  rw [decode_sock h]

theorem exists_writer {n i : ℕ} {c : Sock} (hi : i < n) (h : writer n c = i) : ∃ d : Chan, d.Valid n ∧ d.src = i ∧ d.sock n = c := by
  unfold writer at h
  split at h
  · rename_i d hd
    exact ⟨d, (sock_of_decode hd).1, h, (sock_of_decode hd).2⟩
  · omega

theorem exists_reader {n i : ℕ} {c : Sock} (hi : i < n) (h : reader n c = i) : ∃ d : Chan, d.Valid n ∧ d.dst = i ∧ d.sock n = c := by
  unfold reader at h
  split at h
  · rename_i d hd
    exact ⟨d, (sock_of_decode hd).1, h, (sock_of_decode hd).2⟩
  · omega

/-- A list for each stream, as lists for the sockets. -/
def onChan {α : Type} (n : ℕ) (f : Chan → List α) (c : Sock) : List α :=
  match c.decode n with
  | some d => f d
  | none => []

theorem onChan_sock {α : Type} {n : ℕ} {f : Chan → List α} {d : Chan} (h : d.Valid n) : onChan n f (d.sock n) = f d := by
  unfold onChan
  rw [decode_sock h]

theorem onChan_initial {α : Type} {n : ℕ} {f g : Chan → List α} (h : ∀ d, f d <+: g d) (c : Sock) : onChan n f c <+: onChan n g c := by
  unfold onChan
  split
  · exact h _
  · exact List.prefix_rfl

/-! ## Streams of the instances -/

/-- What belongs to the stream between an instance of player `i` and player `q`, with `snd` for the one
its sender uses and `rcv` for the one of its receiver; nothing between two Pi. -/
def apport {α : Type} (i q : ℕ) (main : Bool) (snd rcv : ℕ → List α) : List α :=
  if i ≠ 0 ∧ q ≠ 0 then []
  else if main = decide (i = 0) then snd (if i = 0 then q - 1 else 0)
  else rcv (if i = 0 then q - 1 else 0)

/-- The streams an instance reads. -/
def senderBack (i a : ℕ) : Chan := (senderChan i a).back

def receiverBack (i a : ℕ) : Chan := (receiverChan i a).back

section Apport

variable {α : Type} {n i a : ℕ} {snd rcv : ℕ → List α}

theorem apport_sender (ha : a < slots n i) : apport i (senderChan i a).dst (senderChan i a).main snd rcv = snd a := by
  unfold slots at ha
  unfold apport senderChan instPeer
  by_cases hi : i = 0
  · simp [hi]
  · have : a = 0 := by simpa [hi] using ha
    simp [hi, this]

theorem apport_receiver (ha : a < slots n i) : apport i (receiverChan i a).dst (receiverChan i a).main snd rcv = rcv a := by
  unfold slots at ha
  unfold apport receiverChan instPeer
  by_cases hi : i = 0
  · simp [hi]
  · have : a = 0 := by simpa [hi] using ha
    simp [hi, this]

theorem senderBack_valid (hi : i < n) (ha : a < slots n i) : (senderBack i a).Valid n := (senderChan_valid hi ha).back

theorem receiverBack_valid (hi : i < n) (ha : a < slots n i) : (receiverBack i a).Valid n := (receiverChan_valid hi ha).back

theorem apport_senderBack (ha : a < slots n i) : apport i (senderBack i a).src (senderBack i a).main snd rcv = snd a :=
  apport_sender ha

theorem apport_receiverBack (ha : a < slots n i) : apport i (receiverBack i a).src (receiverBack i a).main snd rcv = rcv a :=
  apport_receiver ha

/-- A stream of player `i` is the one of an instance's sender, of an instance's receiver, or between two
Pi. -/
theorem chan_cases {d : Chan} (h : d.Valid n) :
    (∃ a, a < slots n d.src ∧ d = senderChan d.src a) ∨ (∃ a, a < slots n d.src ∧ d = receiverChan d.src a) ∨
      (d.main = true ∧ d.src ≠ 0 ∧ d.dst ≠ 0) := by
  obtain ⟨s, t, m⟩ := d
  have h1 := h.src
  have h2 := h.dst
  have h3 := h.ne
  have h4 := h.second
  simp only at h1 h2 h3 h4 ⊢
  by_cases hs : s = 0
  · subst hs
    have ht : t - 1 + 1 = t := by omega
    cases m
    · exact Or.inr (Or.inl ⟨t - 1, by simp [slots]; omega, by simp [receiverChan, instPeer, ht]⟩)
    · exact Or.inl ⟨t - 1, by simp [slots]; omega, by simp [senderChan, instPeer, ht]⟩
  · by_cases ht : t = 0
    · subst ht
      cases m
      · exact Or.inl ⟨0, by simp [slots, hs], by simp [senderChan, instPeer, hs]⟩
      · exact Or.inr (Or.inl ⟨0, by simp [slots, hs], by simp [receiverChan, instPeer, hs]⟩)
    · cases m
      · exact absurd (h4 rfl) (by simp [hs, ht])
      · exact Or.inr (Or.inr ⟨rfl, hs, ht⟩)

theorem chan_back_cases {d : Chan} (h : d.Valid n) :
    (∃ a, a < slots n d.dst ∧ d = senderBack d.dst a) ∨ (∃ a, a < slots n d.dst ∧ d = receiverBack d.dst a) ∨
      (d.main = true ∧ d.src ≠ 0 ∧ d.dst ≠ 0) := by
  have hb : ∀ {d' : Chan}, d.back = d' → d = d'.back := by rintro _ rfl; rfl
  rcases chan_cases h.back with ⟨a, ha, hd⟩ | ⟨a, ha, hd⟩ | ⟨hm, h1, h2⟩
  · exact Or.inl ⟨a, ha, hb hd⟩
  · exact Or.inr (Or.inl ⟨a, ha, hb hd⟩)
  · exact Or.inr (Or.inr ⟨hm, h2, h1⟩)

theorem senderChan_inj {b : ℕ} (ha : a < slots n i) (hb : b < slots n i) (h : senderChan i a = senderChan i b) : a = b := by
  unfold slots at ha hb
  simp only [senderChan, instPeer, Chan.mk.injEq] at h
  by_cases hi : i = 0
  · simpa [hi] using h
  · simp only [if_neg hi] at ha hb; omega

theorem receiverChan_inj {b : ℕ} (ha : a < slots n i) (hb : b < slots n i) (h : receiverChan i a = receiverChan i b) : a = b := by
  unfold slots at ha hb
  simp only [receiverChan, instPeer, Chan.mk.injEq] at h
  by_cases hi : i = 0
  · simpa [hi] using h
  · simp only [if_neg hi] at ha hb; omega

theorem senderChan_ne {b : ℕ} : senderChan i a ≠ receiverChan i b := by
  intro h
  have hm := congrArg Chan.main h
  by_cases hi : i = 0 <;> simp [senderChan, receiverChan, hi] at hm

theorem senderChan_pi {d : Chan} (h1 : d.src ≠ 0) (h2 : d.dst ≠ 0) (b : ℕ) : d ≠ senderChan i b ∧ d ≠ receiverChan i b := by
  constructor
  · rintro rfl
    by_cases hi : i = 0 <;> simp [senderChan, instPeer, hi] at h1 h2
  · rintro rfl
    by_cases hi : i = 0 <;> simp [receiverChan, instPeer, hi] at h1 h2

end Apport

/-! ## Streams of the threads -/

section Ports

variable {κ : Type} {n i : ℕ} {c : Sock}

theorem setUp_out (hi : i < n) {a : SetUp} : (setUpPort n i a).out = some c ↔
    ∃ q, q < n ∧ q ≠ i ∧ a = .write ⟨place i q, (Chan.mk i q true).sock n⟩ ∧ c = (Chan.mk i q true).sock n := by
  cases a with
  | read l => simp [setUpPort]
  | write l =>
    by_cases hl : l ∈ links n i
    · obtain ⟨q, hq, hne, rfl⟩ := (mem_links hi).1 hl
      simp only [setUpPort, if_pos hl, Option.some.injEq, SetUp.write.injEq, Link.mk.injEq]
      constructor
      · rintro rfl; exact ⟨q, hq, hne, ⟨rfl, rfl⟩, rfl⟩
      · rintro ⟨q', _, _, ⟨_, h2⟩, rfl⟩; exact h2
    · simp only [setUpPort, if_neg hl, SetUp.write.injEq, false_iff, not_exists, not_and, reduceCtorEq]
      rintro q hq hne rfl _
      exact hl ((mem_links hi).2 ⟨q, hq, hne, rfl⟩)

theorem setUp_inp (hi : i < n) {a : SetUp} : (setUpPort n i a).inp = some c ↔
    ∃ q, q < n ∧ q ≠ i ∧ a = .read ⟨place i q, (Chan.mk i q true).sock n⟩ ∧ c = (Chan.mk q i true).sock n := by
  have hpeer : ∀ q, q ≠ i → ((Chan.mk i q true).sock n).peer = (Chan.mk q i true).sock n := fun q hq =>
    peer_sock (d := Chan.mk i q true) (Ne.symm hq) (by simp)
  cases a with
  | write l => simp [setUpPort]
  | read l =>
    by_cases hl : l ∈ links n i
    · obtain ⟨q, hq, hne, rfl⟩ := (mem_links hi).1 hl
      simp only [setUpPort, if_pos hl, Option.some.injEq, SetUp.read.injEq, Link.mk.injEq, hpeer q hne]
      constructor
      · rintro rfl; exact ⟨q, hq, hne, ⟨rfl, rfl⟩, rfl⟩
      · rintro ⟨q', hq', hne', ⟨h1, _⟩, rfl⟩
        rw [place_inj hne hne' h1]
    · simp only [setUpPort, if_neg hl, SetUp.read.injEq, false_iff, not_exists, not_and, reduceCtorEq]
      rintro q hq hne rfl _
      exact hl ((mem_links hi).2 ⟨q, hq, hne, rfl⟩)

theorem setUp_valid {q : ℕ} (hi : i < n) (hq : q < n) (hne : q ≠ i) : (Chan.mk i q true).Valid n ∧ (Chan.mk q i true).Valid n :=
  ⟨⟨hi, hq, Ne.symm hne, by simp⟩, ⟨hq, hi, hne, by simp⟩⟩

/-- The ports of the set-up's stages. -/
theorem setUp_ported (hi : i < n) : (∀ {a c}, (setUpPort n i a).out = some c → writer n c = i) ∧
    (∀ {a c}, (setUpPort n i a).inp = some c → reader n c = i) ∧
    (∀ {a b c}, (setUpPort n i a).out = some c → (setUpPort n i b).out = some c → a = b) ∧
    ∀ {a b c}, (setUpPort n i a).inp = some c → (setUpPort n i b).inp = some c → a = b := by
  refine ⟨fun {a c} h => ?_, fun {a c} h => ?_, fun {a b c} h h' => ?_, fun {a b c} h h' => ?_⟩
  · obtain ⟨q, hq, hne, rfl, rfl⟩ := (setUp_out hi).1 h
    exact writer_sock (setUp_valid hi hq hne).1
  · obtain ⟨q, hq, hne, rfl, rfl⟩ := (setUp_inp hi).1 h
    exact reader_sock (setUp_valid hi hq hne).2
  · obtain ⟨q, hq, hne, rfl, rfl⟩ := (setUp_out hi).1 h
    obtain ⟨q', hq', hne', rfl, hc⟩ := (setUp_out hi).1 h'
    have := sock_inj (setUp_valid hi hq hne).1 (setUp_valid hi hq' hne').1 hc
    cases this; rfl
  · obtain ⟨q, hq, hne, rfl, rfl⟩ := (setUp_inp hi).1 h
    obtain ⟨q', hq', hne', rfl, hc⟩ := (setUp_inp hi).1 h'
    have := sock_inj (setUp_valid hi hq hne).2 (setUp_valid hi hq' hne').2 hc
    cases this; rfl

/-- The end an instance reads at is the stream back. -/
theorem senderSock_peer {a : ℕ} (hi : i < n) (ha : a < slots n i) : (senderSock n i a).peer = (senderBack i a).sock n := by
  have h := senderChan_valid hi ha
  rw [senderSock_eq, peer_sock h.ne h.second, senderBack]

theorem receiverSock_peer {a : ℕ} (hi : i < n) (ha : a < slots n i) :
    (receiverSock n i a).peer = (receiverBack i a).sock n := by
  have h := receiverChan_valid hi ha
  rw [receiverSock_eq, peer_sock h.ne h.second, receiverBack]

/-- Sending ends of different instances. -/
theorem inst_out_inj {a b : ℕ} (hi : i < n) (ha : a < slots n i) (hb : b < slots n i) :
    (senderSock n i a = senderSock n i b → a = b) ∧ (receiverSock n i a = receiverSock n i b → a = b) ∧
      senderSock n i a ≠ receiverSock n i b := by
  simp only [senderSock_eq, receiverSock_eq]
  exact ⟨fun h => senderChan_inj ha hb (sock_inj (senderChan_valid hi ha) (senderChan_valid hi hb) h),
    fun h => receiverChan_inj ha hb (sock_inj (receiverChan_valid hi ha) (receiverChan_valid hi hb) h),
    fun h => senderChan_ne (sock_inj (senderChan_valid hi ha) (receiverChan_valid hi hb) h)⟩

theorem peer_inj {c c' : Sock} (h : c.peer = c'.peer) : c = c' := by
  rw [← Sock.peer_peer c, h, Sock.peer_peer]

theorem inst_writer {a : ℕ} (hi : i < n) (ha : a < slots n i) :
    writer n (senderSock n i a) = i ∧ writer n (receiverSock n i a) = i ∧
      reader n (senderSock n i a).peer = i ∧ reader n (receiverSock n i a).peer = i := by
  rw [senderSock_peer hi ha, receiverSock_peer hi ha, senderSock_eq, receiverSock_eq]
  exact ⟨writer_sock (senderChan_valid hi ha), writer_sock (receiverChan_valid hi ha),
    reader_sock (senderChan_valid hi ha).back, reader_sock (receiverChan_valid hi ha).back⟩

end Ports

/-! ## What the phases add to the streams -/

section Grown

variable {μ ι : Type} {n i : ℕ}

/-- The set-up adds to the first connection of each pair. -/
theorem setUp_grown_out {add : SetUp → List μ} {base W : Sock → List μ} (hi : i < n)
    (h : Grown (fun c => writer n c = i) (fun a => (setUpPort n i a).out) add base W) {d : Chan} (hd : d.Valid n)
    (hs : d.src = i) :
    W (d.sock n) = base (d.sock n) ++ if d.main then add (.write ⟨place i d.dst, d.sock n⟩) else [] := by
  obtain ⟨s, t, m⟩ := d
  simp only at hs
  subst hs
  cases m with
  | true => exact h.owned ((setUp_out hi).2 ⟨t, hd.dst, Ne.symm hd.ne, rfl, rfl⟩)
  | false =>
    refine (h.rest (writer_sock hd) fun a ha => ?_).trans (List.append_nil _).symm
    obtain ⟨q, hq, hne, rfl, hc⟩ := (setUp_out hi).1 ha
    have := sock_inj hd (setUp_valid hi hq hne).1 hc
    cases this

theorem setUp_grown_inp {add : SetUp → List μ} {base R : Sock → List μ} (hi : i < n)
    (h : Grown (fun c => reader n c = i) (fun a => (setUpPort n i a).inp) add base R) {d : Chan} (hd : d.Valid n)
    (hs : d.dst = i) :
    R (d.sock n) = base (d.sock n) ++ if d.main then add (.read ⟨place i d.src, d.back.sock n⟩) else [] := by
  obtain ⟨s, t, m⟩ := d
  simp only at hs
  subst hs
  cases m with
  | true => exact h.owned ((setUp_inp hi).2 ⟨s, hd.src, hd.ne, rfl, rfl⟩)
  | false =>
    refine (h.rest (reader_sock hd) fun a ha => ?_).trans (List.append_nil _).symm
    obtain ⟨q, hq, hne, rfl, hc⟩ := (setUp_inp hi).1 ha
    have := sock_inj hd (setUp_valid hi hq hne).2 hc
    cases this

/-- An array filled by the set-up holds at the place of `q` what the thread for `q` returned. -/
theorem fillArray_place {α : Type} (hi : i < n) {q : ℕ} (hq : q < n) (hne : q ≠ i) (v : Link → α) (d : α) :
    fillArray n i v d (place i q) = v ⟨place i q, (Chan.mk i q true).sock n⟩ := by
  have hmem := (mem_links hi (l := ⟨place i q, (Chan.mk i q true).sock n⟩)).2 ⟨q, hq, hne, rfl⟩
  unfold fillArray
  cases hf : (links n i).find? fun l => l.slot = place i q with
  | none => exact absurd (List.find?_eq_none.1 hf _ hmem) (by simp)
  | some l =>
    obtain ⟨q', hq', hne', rfl⟩ := (mem_links hi).1 (List.mem_of_find?_eq_some hf)
    have hp : place i q' = place i q := by simpa using List.find?_some hf
    rw [place_inj hne' hne hp]

/-- Which thread uses which stream of the instances: `snd` those of the senders and `rcv` those of the
receivers. -/
structure Uses (n i : ℕ) (own : ι → Option Sock) (sock₁ sock₂ : ℕ → Sock) (snd rcv : ℕ → Option ι) : Prop where
  sender : ∀ {a t}, a < slots n i → snd a = some t → own t = some (sock₁ a)
  receiver : ∀ {a t}, a < slots n i → rcv a = some t → own t = some (sock₂ a)
  owner : ∀ {t c}, own t = some c → ∃ a, a < slots n i ∧ ((snd a = some t ∧ c = sock₁ a) ∨ (rcv a = some t ∧ c = sock₂ a))

/-- A stream no thread has is the one of a slot without a thread. -/
theorem Uses.sender_none {own : ι → Option Sock} {sock₁ sock₂ : ℕ → Sock} {snd rcv : ℕ → Option ι} {a : ℕ}
    (u : Uses n i own sock₁ sock₂ snd rcv) (ha : a < slots n i) (h : ∀ t, own t ≠ some (sock₁ a)) : snd a = none := by
  cases ht : snd a with
  | none => rfl
  | some t => exact absurd (u.sender ha ht) (h t)

theorem Uses.receiver_none {own : ι → Option Sock} {sock₁ sock₂ : ℕ → Sock} {snd rcv : ℕ → Option ι} {a : ℕ}
    (u : Uses n i own sock₁ sock₂ snd rcv) (ha : a < slots n i) (h : ∀ t, own t ≠ some (sock₂ a)) : rcv a = none := by
  cases ht : rcv a with
  | none => rfl
  | some t => exact absurd (u.receiver ha ht) (h t)

theorem apport_nil {q : ℕ} {m : Bool} : apport i q m (fun _ => ([] : List μ)) (fun _ => []) = [] := by
  unfold apport; split <;> simp

theorem apport_pi {q : ℕ} {m : Bool} {snd rcv : ℕ → List μ} (hi : i ≠ 0) (hq : q ≠ 0) : apport i q m snd rcv = [] :=
  if_pos ⟨hi, hq⟩

/-- A stream that at most one thread uses. -/
theorem grown_slot {mine : Sock → Prop} {add : ι → List μ} {base W : Sock → List μ} {own : ι → Option Sock} {x : Option ι}
    {c : Sock} (h : Grown mine own add base W) (hmine : mine c) (hx : ∀ t, x = some t → own t = some c)
    (honly : ∀ t, own t = some c → x = some t) : W c = base c ++ x.elim [] add := by
  cases x with
  | some t => exact h.owned (hx t rfl)
  | none =>
    rw [h.rest hmine]
    · exact (List.append_nil _).symm
    · intro t ht
      cases honly t ht

theorem inst_grown_out {add : ι → List μ} {base W : Sock → List μ} {own : ι → Option Sock} {snd rcv : ℕ → Option ι}
    (hi : i < n) (h : Grown (fun c => writer n c = i) own add base W)
    (u : Uses n i own (senderSock n i) (receiverSock n i) snd rcv) {d : Chan} (hd : d.Valid n) (hs : d.src = i) :
    W (d.sock n) = base (d.sock n) ++
      apport i d.dst d.main (fun a => (snd a).elim [] add) (fun a => (rcv a).elim [] add) := by
  have hrest : ∀ t, own t = some (d.sock n) → ∃ a, a < slots n i ∧
      ((snd a = some t ∧ d = senderChan i a) ∨ (rcv a = some t ∧ d = receiverChan i a)) := by
    intro t ht
    rcases u.owner ht with ⟨a, ha, ⟨h1, h2⟩ | ⟨h1, h2⟩⟩
    · rw [senderSock_eq] at h2
      exact ⟨a, ha, Or.inl ⟨h1, sock_inj hd (senderChan_valid hi ha) h2⟩⟩
    · rw [receiverSock_eq] at h2
      exact ⟨a, ha, Or.inr ⟨h1, sock_inj hd (receiverChan_valid hi ha) h2⟩⟩
  rcases chan_cases hd with ⟨a, ha, he⟩ | ⟨a, ha, he⟩ | ⟨_, h1, h2⟩
  · rw [hs] at ha he
    subst he
    rw [apport_sender ha]
    apply grown_slot h (writer_sock hd)
    · intro t ht
      rw [← senderSock_eq]
      exact u.sender ha ht
    · intro t hown
      rcases hrest t hown with ⟨b, hb, ⟨h1, h2⟩ | ⟨_, h2⟩⟩
      · rw [senderChan_inj ha hb h2, h1]
      · exact absurd h2 senderChan_ne
  · rw [hs] at ha he
    subst he
    rw [apport_receiver ha]
    apply grown_slot h (writer_sock hd)
    · intro t ht
      rw [← receiverSock_eq]
      exact u.receiver ha ht
    · intro t hown
      rcases hrest t hown with ⟨b, hb, ⟨_, h2⟩ | ⟨h1, h2⟩⟩
      · exact absurd h2.symm senderChan_ne
      · rw [receiverChan_inj ha hb h2, h1]
  · rw [apport_pi (hs ▸ h1) h2, List.append_nil]
    apply h.rest
    · rw [writer_sock hd]
      exact hs
    intro t hown
    rcases hrest t hown with ⟨b, hb, ⟨_, he⟩ | ⟨_, he⟩⟩
    · exact (senderChan_pi h1 h2 b).1 he
    · exact (senderChan_pi h1 h2 b).2 he

theorem inst_grown_inp {add : ι → List μ} {base R : Sock → List μ} {own : ι → Option Sock} {snd rcv : ℕ → Option ι}
    (hi : i < n) (h : Grown (fun c => reader n c = i) own add base R)
    (u : Uses n i own (fun a => (senderSock n i a).peer) (fun a => (receiverSock n i a).peer) snd rcv) {d : Chan}
    (hd : d.Valid n) (hs : d.dst = i) :
    R (d.sock n) = base (d.sock n) ++
      apport i d.src d.main (fun a => (snd a).elim [] add) (fun a => (rcv a).elim [] add) := by
  -- the channel of a thread is that of its slot
  have hrest : ∀ t, own t = some (d.sock n) → ∃ a, a < slots n i ∧
      ((snd a = some t ∧ d.back = senderChan i a) ∨ (rcv a = some t ∧ d.back = receiverChan i a)) := by
    intro t ht
    rcases u.owner ht with ⟨a, ha, ⟨h1, h2⟩ | ⟨h1, h2⟩⟩
    · rw [senderSock_peer hi ha] at h2
      exact ⟨a, ha, Or.inl ⟨h1, congrArg Chan.back (sock_inj hd (senderChan_valid hi ha).back h2)⟩⟩
    · rw [receiverSock_peer hi ha] at h2
      exact ⟨a, ha, Or.inr ⟨h1, congrArg Chan.back (sock_inj hd (receiverChan_valid hi ha).back h2)⟩⟩
  rcases chan_back_cases hd with ⟨a, ha, he⟩ | ⟨a, ha, he⟩ | ⟨_, h1, h2⟩
  · rw [hs] at ha he
    subst he
    rw [apport_senderBack ha]
    apply grown_slot h (reader_sock hd)
    · intro t ht
      rw [← senderSock_peer hi ha]
      exact u.sender ha ht
    · intro t hown
      rcases hrest t hown with ⟨b, hb, ⟨h1, h2⟩ | ⟨_, h2⟩⟩
      · rw [senderChan_inj ha hb h2, h1]
      · exact absurd h2 senderChan_ne
  · rw [hs] at ha he
    subst he
    rw [apport_receiverBack ha]
    apply grown_slot h (reader_sock hd)
    · intro t ht
      rw [← receiverSock_peer hi ha]
      exact u.receiver ha ht
    · intro t hown
      rcases hrest t hown with ⟨b, hb, ⟨_, h2⟩ | ⟨h1, h2⟩⟩
      · exact absurd h2.symm senderChan_ne
      · rw [receiverChan_inj ha hb h2, h1]
  · rw [apport_pi (hs ▸ h2) h1, List.append_nil]
    apply h.rest
    · rw [reader_sock hd]
      exact hs
    intro t hown
    rcases hrest t hown with ⟨b, hb, ⟨_, he⟩ | ⟨_, he⟩⟩
    · exact (senderChan_pi (d := d.back) h2 h1 b).1 he
    · exact (senderChan_pi (d := d.back) h2 h1 b).2 he

end Grown

end Mpsi
