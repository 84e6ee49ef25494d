/-
The sockets of the parties: which port each one listens on or connects to (`set_ports`, the
constructors of `P0` and `Pi`, `init_receiver` and `init_sender` of the offline phase), and which
socket a party uses towards another one.

A connection is known by the listening host and its port, a socket by the connection and its end.
`decode_sock` recovers the two parties from a socket, so that the sockets of different pairs and of
the two connections between P0 and a Pi never meet, and `peer_sock` says that what `p` uses towards
`q` is the other end of what `q` uses towards `p`.
-/
import Mathlib.Algebra.BigOperators.Group.Finset.Basic
import Mathlib.Tactic

namespace Mpsi

/-- One end of a connection: the listening host, its port, and whether this is the listening end. -/
structure Sock where
  host : ℕ
  port : ℕ
  listener : Bool
  deriving DecidableEq, Inhabited

/-- The other end. -/
def Sock.peer (c : Sock) : Sock := { c with listener := !c.listener }

@[simp] theorem Sock.peer_peer (c : Sock) : c.peer.peer = c := by
  cases c; simp [Sock.peer]

/-! ## The program's sockets -/

/-- `functions::set_ports`: the ports `ports[i][0]` and `ports[i][1]` of a player. -/
def ports (player parties i : ℕ) : ℕ × ℕ := (8000 + i * parties + player, 8000 + player * parties + i)

/-- The sending socket `s` of P0's instance for player `i` (`P0::P0`). -/
def p0Sender (parties i : ℕ) : Sock := ⟨0, (ports 0 parties i).1, true⟩

/-- The receiving socket `recv` of that instance (`offline_apport_receiver`). -/
def p0Receiver (parties i : ℕ) : Sock := ⟨i, (ports 0 parties i).2, false⟩

/-- The receiving socket `recv` of a Pi, connected to P0 (`Pi::Pi`). -/
def piReceiver (parties player : ℕ) : Sock := ⟨0, (ports player parties 0).2, false⟩

/-- The sending socket `s` of a Pi (`offline_apport_sender`). -/
def piSender (parties player : ℕ) : Sock := ⟨player, (ports player parties 0).1, true⟩

/-- The array `receivers` of a Pi: its sockets to the players before it. -/
def piReceivers (parties player : ℕ) : List Sock :=
  (List.range' 1 (player - 1)).map fun p => ⟨p, (ports player parties p).2, false⟩

/-- The array `senders` of a Pi: its sockets to the players behind it. -/
def piSenders (parties player : ℕ) : List Sock :=
  (List.range' (player + 1) (parties - 1 - player)).map fun p => ⟨player, (ports player parties p).1, true⟩

/-- The socket of `Pi::write_to_player` and `Pi::read_from_player`. -/
def piSock (parties player other_player : ℕ) : Sock :=
  if other_player = 0 then piReceiver parties player
  else if other_player < player then (piReceivers parties player).getD (other_player - 1) default
  else (piSenders parties player).getD (other_player - player - 1) default

/-- The place of another player in the arrays `keys`, `keys_recv`, `commits_recv` and `seeds_recv`. -/
def place (player p : ℕ) : ℕ := if p > player then p - 1 else p

/-- A socket of the set-up phases with the place of its player in the arrays. -/
structure Link where
  slot : ℕ
  sock : Sock
  deriving DecidableEq

/-- The threads of `secret_sharing_seed_p0` and `seeds_agreement_p0`: one for each instance of P0, the
instance `p` being the one for player `p + 1`. -/
def p0Links (parties : ℕ) : List Link := (List.range (parties - 1)).map fun p => ⟨p, p0Sender parties (p + 1)⟩

/-- Those of `secret_sharing_seed_pi` and `seeds_agreement_pi`: one for each other player. -/
def piLinks (parties player : ℕ) : List Link :=
  ((List.range parties).filter (· ≠ player)).map fun p => ⟨place player p, piSock parties player p⟩

def links (parties player : ℕ) : List Link := if player = 0 then p0Links parties else piLinks parties player

/-- The socket an instance uses as the sender of an OT. -/
def senderSock (parties player slot : ℕ) : Sock :=
  if player = 0 then p0Sender parties (slot + 1) else piSender parties player

/-- The socket it uses as the receiver. -/
def receiverSock (parties player slot : ℕ) : Sock :=
  if player = 0 then p0Receiver parties (slot + 1) else piReceiver parties player

/-! ## Streams between players -/

/-- A direction of a connection: from whom, to whom, and whether it is the connection of the set-up
or the second one between P0 and a Pi. -/
structure Chan where
  src : ℕ
  dst : ℕ
  main : Bool
  deriving DecidableEq

/-- A stream there is among `n` parties. -/
structure Chan.Valid (n : ℕ) (d : Chan) : Prop where
  src : d.src < n
  dst : d.dst < n
  ne : d.src ≠ d.dst
  second : d.main = false → d.src = 0 ∨ d.dst = 0

instance (n : ℕ) (d : Chan) : Decidable (d.Valid n) :=
  decidable_of_iff (d.src < n ∧ d.dst < n ∧ d.src ≠ d.dst ∧ (d.main = false → d.src = 0 ∨ d.dst = 0))
    ⟨fun h => ⟨h.1, h.2.1, h.2.2.1, h.2.2.2⟩, fun h => ⟨h.src, h.dst, h.ne, h.second⟩⟩

/-- The same stream back. -/
def Chan.back (d : Chan) : Chan := ⟨d.dst, d.src, d.main⟩

theorem Chan.Valid.back {n : ℕ} {d : Chan} (h : d.Valid n) : d.back.Valid n :=
  ⟨h.dst, h.src, h.ne.symm, fun hm => (h.second hm).symm⟩

/-- The end it is written at. The connection of the set-up is opened by the later player and the second
one by P0. -/
def Chan.sock (n : ℕ) (d : Chan) : Sock :=
  let connector := if d.main then max d.src d.dst else 0
  let listener := if d.main then min d.src d.dst else max d.src d.dst
  ⟨listener, 8000 + connector * n + listener, d.src = listener⟩

/-- The stream that would be written at an end, read off its port. -/
def Sock.stream (n : ℕ) (c : Sock) : Chan :=
  let connector := (c.port - 8000) / n
  let listener := (c.port - 8000) % n
  if c.listener then ⟨listener, connector, connector ≠ 0⟩ else ⟨connector, listener, connector ≠ 0⟩

/-- The stream written at an end, if there is one. -/
def Sock.decode (n : ℕ) (c : Sock) : Option Chan :=
  if (c.stream n).Valid n ∧ (c.stream n).sock n = c then some (c.stream n) else none

theorem port_div_mod {n con lis : ℕ} (h : lis < n) :
    (8000 + con * n + lis - 8000) / n = con ∧ (8000 + con * n + lis - 8000) % n = lis := by
  have he : 8000 + con * n + lis - 8000 = lis + con * n := by omega
  rw [he, Nat.add_mul_div_right _ _ (by omega), Nat.div_eq_of_lt h, Nat.add_mul_mod_self_right, Nat.mod_eq_of_lt h]
  exact ⟨Nat.zero_add con, rfl⟩

theorem stream_sock {n : ℕ} {d : Chan} (h : d.Valid n) : (d.sock n).stream n = d := by
  obtain ⟨p, q, m⟩ := d
  have hp := h.src
  have hq := h.dst
  have hne := h.ne
  have hsec := h.second
  simp only at hp hq hne hsec
  have hlis : (if m then min p q else max p q) < n := by split <;> omega
  simp only [Sock.stream, Chan.sock, (port_div_mod hlis).1, (port_div_mod hlis).2]
  cases m with
  | true =>
    rcases lt_or_gt_of_ne hne with hlt | hlt
    · simp [min_eq_left hlt.le, max_eq_right hlt.le]; omega
    · simp [min_eq_right hlt.le, max_eq_left hlt.le, hlt.ne']; omega
  | false =>
    rcases hsec rfl with rfl | rfl
    · simp [hne]
    · simp

theorem decode_sock {n : ℕ} {d : Chan} (h : d.Valid n) : (d.sock n).decode n = some d := by
  unfold Sock.decode
  rw [stream_sock h, if_pos ⟨h, rfl⟩]

theorem sock_of_decode {n : ℕ} {c : Sock} {d : Chan} (h : c.decode n = some d) : d.Valid n ∧ d.sock n = c := by
  unfold Sock.decode at h
  split at h
  · rename_i hd; cases h; exact hd
  · cases h

/-- Different streams are written at different ends. -/
theorem sock_inj {n : ℕ} {d d' : Chan} (h : d.Valid n) (h' : d'.Valid n) (he : d.sock n = d'.sock n) : d = d' := by
  have h1 := decode_sock h
  rw [he, decode_sock h'] at h1
  exact (Option.some_injective _ h1).symm

/-- What comes back is written at the other end. -/
theorem peer_sock {n : ℕ} {d : Chan} (hne : d.src ≠ d.dst) (hsec : d.main = false → d.src = 0 ∨ d.dst = 0) :
    (d.sock n).peer = d.back.sock n := by
  obtain ⟨p, q, m⟩ := d
  simp only at hne hsec
  cases m with
  | true =>
    simp only [Chan.sock, Chan.back, Sock.peer, max_comm q p, min_comm q p, if_true]
    congr 1
    rcases lt_or_gt_of_ne hne with hlt | hlt
    · simp [min_eq_left hlt.le, hne.symm]
    · simp [min_eq_right hlt.le, hne]
  | false =>
    simp only [Chan.sock, Chan.back, Sock.peer, max_comm q p]
    congr 1
    rcases hsec rfl with rfl | rfl
    · simp [hne]
    · simp [hne.symm]

/-! ## Which socket leads where -/

theorem piReceivers_get {n p q : ℕ} (hq : q ≠ 0) (hlt : q < p) :
    (piReceivers n p).getD (q - 1) default = ⟨q, (ports p n q).2, false⟩ := by
  have hq1 : 1 + (q - 1) = q := by omega
  have hlen : q - 1 < p - 1 := by omega
  simp [piReceivers, List.getD_eq_getElem?_getD, hlen, hq1]

theorem piSenders_get {n p q : ℕ} (hlt : p < q) (hq : q < n) :
    (piSenders n p).getD (q - p - 1) default = ⟨p, (ports p n q).1, true⟩ := by
  have hq1 : p + 1 + (q - p - 1) = q := by omega
  have hlen : q - p - 1 < n - 1 - p := by omega
  simp [piSenders, List.getD_eq_getElem?_getD, hlen, hq1]

/-- The socket of `write_to_player` and `read_from_player` is the end of the set-up connection. -/
theorem piSock_eq {n p q : ℕ} (hp : p ≠ 0) (hne : q ≠ p) (hq : q < n) : piSock n p q = (Chan.mk p q true).sock n := by
  unfold piSock
  by_cases h0 : q = 0
  · subst h0
    simp [piReceiver, ports, Chan.sock, hp]
  · rw [if_neg h0]
    rcases lt_or_gt_of_ne hne with hlt | hlt
    · rw [if_pos hlt, piReceivers_get h0 hlt]
      simp [ports, Chan.sock, min_eq_right hlt.le, max_eq_left hlt.le, hne.symm]
    · rw [if_neg (by omega), piSenders_get hlt hq]
      simp [ports, Chan.sock, min_eq_left hlt.le, max_eq_right hlt.le]

/-- So is the sending socket of P0's instances. -/
theorem p0Sender_eq (n q : ℕ) : p0Sender n q = (Chan.mk 0 q true).sock n := by
  simp [p0Sender, ports, Chan.sock]

/-- The set-up threads of a party: one for each other party, over their connection. -/
theorem mem_links {n p : ℕ} (hp : p < n) {l : Link} :
    l ∈ links n p ↔ ∃ q, q < n ∧ q ≠ p ∧ l = ⟨place p q, (Chan.mk p q true).sock n⟩ := by
  unfold links
  by_cases h0 : p = 0
  · subst h0
    simp only [if_true, p0Links, List.mem_map, List.mem_range]
    constructor
    · rintro ⟨i, hi, rfl⟩
      exact ⟨i + 1, by omega, by omega, by simp [place, p0Sender_eq]⟩
    · rintro ⟨q, hq, hq0, rfl⟩
      refine ⟨q - 1, by omega, ?_⟩
      have hq1 : q - 1 + 1 = q := by omega
      simp [place, p0Sender_eq, hq1, Nat.pos_of_ne_zero hq0]
  · simp only [if_neg h0, piLinks, List.mem_map, List.mem_filter, List.mem_range, decide_eq_true_eq]
    constructor
    · rintro ⟨q, ⟨hq, hne⟩, rfl⟩
      exact ⟨q, hq, hne, by rw [piSock_eq h0 hne hq]⟩
    · rintro ⟨q, hq, hne, rfl⟩
      exact ⟨q, ⟨hq, hne⟩, by rw [piSock_eq h0 hne hq]⟩

/-- The other player of an instance. -/
def instPeer (player slot : ℕ) : ℕ := if player = 0 then slot + 1 else 0

/-- The number of instances a player has: P0 one for each other player, a Pi one for P0. -/
def slots (parties player : ℕ) : ℕ := if player = 0 then parties - 1 else 1

/-- What an instance writes as the sender of its OTs. -/
def senderChan (player slot : ℕ) : Chan := ⟨player, instPeer player slot, player = 0⟩

/-- What it writes as their receiver. -/
def receiverChan (player slot : ℕ) : Chan := ⟨player, instPeer player slot, player ≠ 0⟩

theorem senderSock_eq {n p a : ℕ} : senderSock n p a = (senderChan p a).sock n := by
  unfold senderSock senderChan instPeer
  by_cases h0 : p = 0
  · subst h0; simp [p0Sender_eq]
  · simp [h0, piSender, ports, Chan.sock]

theorem receiverSock_eq {n p a : ℕ} : receiverSock n p a = (receiverChan p a).sock n := by
  unfold receiverSock receiverChan instPeer
  by_cases h0 : p = 0
  · subst h0; simp [p0Receiver, ports, Chan.sock]
  · simp [h0, piReceiver, ports, Chan.sock]

theorem senderChan_valid {n p a : ℕ} (hp : p < n) (ha : a < slots n p) : (senderChan p a).Valid n := by
  unfold slots at ha
  unfold senderChan instPeer
  split at ha
  · rename_i h0; subst h0
    exact ⟨hp, by simp; omega, by simp, by simp⟩
  · rename_i h0
    exact ⟨hp, by simp [h0]; omega, by simp [h0], by simp [h0]⟩

theorem receiverChan_valid {n p a : ℕ} (hp : p < n) (ha : a < slots n p) : (receiverChan p a).Valid n := by
  unfold slots at ha
  unfold receiverChan instPeer
  split at ha
  · rename_i h0; subst h0
    exact ⟨hp, by simp; omega, by simp, by simp⟩
  · rename_i h0
    exact ⟨hp, by simp [h0]; omega, by simp [h0], by simp [h0]⟩

/-! ## Places -/

theorem place_lt {n p q : ℕ} (hp : p < n) (hq : q < n) (hne : q ≠ p) : place p q < n - 1 := by
  unfold place; split <;> omega

theorem place_inj {p q q' : ℕ} (hne : q ≠ p) (hne' : q' ≠ p) (h : place p q = place p q') : q = q' := by
  unfold place at h; split at h <;> split at h <;> omega

theorem exists_place_eq {n p a : ℕ} (hp : p < n) (ha : a < n - 1) : ∃ q, q < n ∧ q ≠ p ∧ place p q = a := by
  by_cases h : a < p
  · exact ⟨a, by omega, by omega, by unfold place; rw [if_neg (by omega)]⟩
  · exact ⟨a + 1, by omega, by omega, by unfold place; rw [if_pos (by omega)]; rfl⟩

/-- A sum over the places is a sum over the other players. -/
theorem sum_places {G : Type} [AddCommMonoid G] {n p : ℕ} (hp : p < n) (f g : ℕ → G)
    (h : ∀ q, q < n → q ≠ p → f (place p q) = g q) :
    ∑ a ∈ Finset.range (n - 1), f a = ∑ q ∈ (Finset.range n).erase p, g q := by
  refine (Finset.sum_bij (fun q _ => place p q) ?_ ?_ ?_ ?_).symm
  · intro q hq
    simp only [Finset.mem_erase, Finset.mem_range] at hq
    exact Finset.mem_range.2 (place_lt hp hq.2 hq.1)
  · intro q hq q' hq' he
    exact place_inj (Finset.mem_erase.1 hq).1 (Finset.mem_erase.1 hq').1 he
  · intro a ha
    obtain ⟨q, hq, hne, rfl⟩ := exists_place_eq hp (Finset.mem_range.1 ha)
    exact ⟨q, Finset.mem_erase.2 ⟨hne, Finset.mem_range.2 hq⟩, rfl⟩
  · intro q hq
    simp only [Finset.mem_erase, Finset.mem_range] at hq
    exact (h q hq.2 hq.1).symm

end Mpsi
