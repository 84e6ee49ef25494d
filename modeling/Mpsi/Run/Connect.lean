/-
How the connections of the set-up come about: P0 starts a thread for each of its instances, which
listens for one player (`creating_p0_instance`, `P0::P0`); a Pi connects to P0, then to the players
before it one after the other, and then listens for those behind it one after the other (`Pi::Pi`).

Every wait is for an action of a lower pair of players, the one with the smaller listener first
(`rank`), so no cycle of waiting parties is reachable. The parties may run on any machines, also all
on one: the port numbers of all listening sockets differ, so a connection always joins the two
players it is meant for (`setup_connects`). Every step leaves less to do, so the set-up comes to its end
(`exists_connected`).
-/
import Mpsi.Lib.Blocking
import Mpsi.Lib.Reach
import Mpsi.Run.Sockets

namespace Mpsi.Connect

open Blocking Relation

/-! ## The scripts -/

/-- A thread that opens sockets: an instance of P0, or a Pi. -/
inductive Site where
  | inst (k : ℕ)
  | pi (player : ℕ)
  deriving DecidableEq

/-- Whose thread it is. -/
def Site.party : Site → ℕ
  | inst _ => 0
  | pi player => player

/-- Where a socket is kept: `s.connect_sock` and `recv.sock` of `Party`, or an entry of one of the two
arrays of a Pi. -/
inductive Slot where
  | s
  | recv
  | senders (i : ℤ)
  | receivers (i : ℤ)
  deriving DecidableEq

/-- The blocking calls: `bind` and `listen`, `accept`, and the loop around `connect`. -/
inductive Act where
  | listen (port : ℕ)
  | accept (slot : Slot) (port : ℕ)
  | connect (slot : Slot) (p : ℕ) (port : ℕ)
  deriving DecidableEq

/-- `Party::init_sender`. -/
def initSender (slot : Slot) (port : ℕ) : List Act := [.listen port, .accept slot port]

/-- `Party::init_receiver` with the address of player `p`. -/
def initReceiver (slot : Slot) (p port : ℕ) : List Act := [.connect slot p port]

/-- `Pi::Pi`. -/
def piActs (parties player : ℕ) : List Act :=
  initReceiver .recv 0 (ports player parties 0).2 ++
    ((List.range' 1 (player - 1)).flatMap fun p : ℕ => initReceiver (.receivers ((p : ℤ) - 1)) p (ports player parties p).2) ++
    ((List.range' (player + 1) (parties - 1 - player)).flatMap fun p : ℕ =>
      initSender (.senders ((p : ℤ) - player - 1)) (ports player parties p).1)

/-- The instance `k` of P0 listens on `ports[k+1][0]`; the players are numbered from 1 on. -/
def acts (parties : ℕ) : Site → List Act
  | .inst k => if k + 1 < parties then initSender .s (ports 0 parties (k + 1)).1 else []
  | .pi player => if 1 ≤ player ∧ player < parties then piActs parties player else []

def script (parties : ℕ) (t : Site) : List (Site × Act) := (acts parties t).map fun a => (t, a)

/-- The socket of `Pi::write_to_player` and `Pi::read_from_player`. -/
def slotTo (player other_player : ℕ) : Slot :=
  if other_player = 0 then .recv
  else if other_player < player then .receivers ((other_player : ℤ) - 1)
  else .senders ((other_player : ℤ) - player - 1)

/-- The entry lies in the array that `Pi::Pi` allocates. -/
def Slot.InRange (parties player : ℕ) : Slot → Prop
  | .senders i => 0 ≤ i ∧ i < (parties : ℤ) - 1 - player
  | .receivers i => 0 ≤ i ∧ i < (player : ℤ) - 1
  | _ => True

/-! ## The actions by pairs of players -/

/-- The thread that listens for `q` on the side of `p`, and the socket it gets. -/
def server (p q : ℕ) : Site := if p = 0 then .inst (q - 1) else .pi p

def serverSlot (p q : ℕ) : Slot := if p = 0 then .s else slotTo p q

/-- The port on which `p` listens for `q`. -/
def portFor (parties p q : ℕ) : ℕ := 8000 + q * parties + p

section Scripts

variable {n : ℕ}

theorem portFor_inj {p q p' q' : ℕ} (hp : p < n) (hp' : p' < n) (h : portFor n p q = portFor n p' q') :
    p = p' ∧ q = q' := by
  obtain ⟨hd, hm⟩ : (portFor n p q - 8000) / n = q ∧ (portFor n p q - 8000) % n = p := port_div_mod hp
  obtain ⟨hd', hm'⟩ : (portFor n p' q' - 8000) / n = q' ∧ (portFor n p' q' - 8000) % n = p' := port_div_mod hp'
  rw [h] at hd hm
  exact ⟨hm.symm.trans hm', hd.symm.trans hd'⟩

theorem server_party {p q : ℕ} : (server p q).party = p := by
  unfold server
  split
  · rename_i h; exact h.symm
  · rfl

theorem mem_piActs {player : ℕ} {a : Act} : a ∈ piActs n player ↔
    a = .connect .recv 0 (portFor n 0 player) ∨
      (∃ p, 1 ≤ p ∧ p < player ∧ a = .connect (.receivers ((p : ℤ) - 1)) p (portFor n p player)) ∨
      ∃ q, player < q ∧ q < n ∧ (a = .listen (portFor n player q) ∨
        a = .accept (.senders ((q : ℤ) - player - 1)) (portFor n player q)) := by
  simp only [piActs, initReceiver, initSender, List.mem_append, List.mem_flatMap, List.mem_cons,
    List.not_mem_nil, or_false, List.mem_range'_1, or_assoc]
  refine or_congr Iff.rfl (or_congr ?_ ?_)
  · constructor
    · rintro ⟨p, ⟨h1, h2⟩, rfl⟩
      exact ⟨p, h1, by omega, rfl⟩
    · rintro ⟨p, h1, h2, rfl⟩
      exact ⟨p, ⟨h1, by omega⟩, rfl⟩
  · constructor
    · rintro ⟨q, ⟨h1, h2⟩, h⟩
      exact ⟨q, by omega, by omega, h⟩
    · rintro ⟨q, h1, h2, h⟩
      exact ⟨q, ⟨by omega, by omega⟩, h⟩

theorem mem_script {t u : Site} {a : Act} : (u, a) ∈ script n t ↔ u = t ∧ a ∈ acts n t := by
  unfold script
  rw [List.mem_map]
  constructor
  · rintro ⟨b, hb, he⟩
    cases he
    exact ⟨rfl, hb⟩
  · rintro ⟨rfl, ha⟩
    exact ⟨a, ha, rfl⟩

theorem server_eq_inst {p q k : ℕ} : server p q = .inst k ↔ p = 0 ∧ q - 1 = k := by
  unfold server
  split <;> simp [*]

theorem server_eq_pi {p q player : ℕ} : server p q = .pi player ↔ p ≠ 0 ∧ p = player := by
  unfold server
  split <;> simp [*]

theorem serverSlot_pi {p q : ℕ} (hp : p ≠ 0) (hpq : p < q) : serverSlot p q = .senders ((q : ℤ) - p - 1) := by
  unfold serverSlot
  rw [if_neg hp, slotTo, if_neg (by omega), if_neg (by omega)]

/-- What the threads do as servers. -/
theorem serving_mem {t : Site} {a : Act} (ha : ∀ slot p port, a ≠ .connect slot p port) : a ∈ acts n t ↔
    ∃ p q, p < q ∧ q < n ∧ t = server p q ∧ a ∈ initSender (serverSlot p q) (portFor n p q) := by
  cases t with
  | inst k =>
    simp only [acts]
    constructor
    · intro h
      split at h
      · rename_i hk
        exact ⟨0, k + 1, Nat.succ_pos k, hk, rfl, h⟩
      · cases h
    · rintro ⟨p, q, hpq, hq, ht, h⟩
      obtain ⟨rfl, rfl⟩ := server_eq_inst.1 ht.symm
      rw [if_pos (by omega), Nat.sub_add_cancel (by omega)]
      exact h
  | pi player =>
    simp only [acts]
    constructor
    · intro h
      split at h
      · rename_i hplayer
        -- the two kinds of connects are not asked for
        rcases mem_piActs.1 h with rfl | ⟨p, _, _, rfl⟩ | ⟨q, hpq, hq, h⟩
        · exact absurd rfl (ha _ _ _)
        · exact absurd rfl (ha _ _ _)
        · have h0 : player ≠ 0 := by omega
          refine ⟨player, q, hpq, hq, (server_eq_pi.2 ⟨h0, rfl⟩).symm, ?_⟩
          rw [serverSlot_pi h0 hpq]
          simpa [initSender] using h
      · cases h
    · rintro ⟨p, q, hpq, hq, ht, h⟩
      obtain ⟨h0, rfl⟩ := server_eq_pi.1 ht.symm
      rw [serverSlot_pi h0 hpq] at h
      rw [if_pos ⟨by omega, by omega⟩]
      exact mem_piActs.2 (Or.inr (Or.inr ⟨q, hpq, hq, by simpa [initSender] using h⟩))

theorem listen_mem {t : Site} {port : ℕ} : .listen port ∈ acts n t ↔
    ∃ p q, p < q ∧ q < n ∧ t = server p q ∧ port = portFor n p q := by
  rw [serving_mem (by simp)]
  simp [initSender]

theorem accept_mem {t : Site} {slot : Slot} {port : ℕ} : .accept slot port ∈ acts n t ↔
    ∃ p q, p < q ∧ q < n ∧ t = server p q ∧ slot = serverSlot p q ∧ port = portFor n p q := by
  rw [serving_mem (by simp)]
  simp [initSender]

theorem connect_mem {t : Site} {slot : Slot} {p port : ℕ} : .connect slot p port ∈ acts n t ↔
    ∃ q, p < q ∧ q < n ∧ t = .pi q ∧ slot = slotTo q p ∧ port = portFor n p q := by
  cases t with
  | inst k =>
    -- P0 connects to nobody
    refine iff_of_false ?_ (by simp)
    simp only [acts]
    split <;> simp [initSender]
  | pi player =>
    simp only [acts]
    split
    · rename_i h
      rw [mem_piActs]
      simp only [reduceCtorEq, and_false, exists_false, or_self, or_false, Act.connect.injEq, Site.pi.injEq]
      constructor
      · rintro (⟨rfl, rfl, rfl⟩ | ⟨p', h1, h2, rfl, rfl, rfl⟩)
        · exact ⟨player, by omega, h.2, rfl, rfl, rfl⟩
        · exact ⟨player, h2, h.2, rfl, by rw [slotTo, if_neg (by omega), if_pos h2], rfl⟩
      · rintro ⟨q, hpq, hq, rfl, rfl, rfl⟩
        by_cases h0 : p = 0
        · subst h0
          exact Or.inl ⟨rfl, rfl, rfl⟩
        · exact Or.inr ⟨p, by omega, hpq, by rw [slotTo, if_neg h0, if_pos hpq], rfl, rfl⟩
    · rename_i h
      apply iff_of_false (by simp)
      rintro ⟨q, hpq, hq, ht, -⟩
      cases ht; omega

/-! ## The order of the waits -/

/-- The connecting player of a port. -/
def connector (n port : ℕ) : ℕ := (port - 8000) / n

/-- The pair of players of an action, the listener first, and the three actions of a pair in their
order. -/
def rank (n : ℕ) : Site × Act → ℕ
  | (t, .listen port) => 3 * (t.party * n + connector n port)
  | (_, .connect _ p port) => 3 * (p * n + connector n port) + 1
  | (t, .accept _ port) => 3 * (t.party * n + connector n port) + 2

/-- `connect` goes on when the other side listens, `accept` when the other side has connected. -/
def Waits (n : ℕ) (a b : Site × Act) : Prop :=
  ∃ p q, p < q ∧ q < n ∧
    ((a = (.pi q, .connect (slotTo q p) p (portFor n p q)) ∧ b = (server p q, .listen (portFor n p q))) ∨
      (a = (server p q, .accept (serverSlot p q) (portFor n p q)) ∧
        b = (.pi q, .connect (slotTo q p) p (portFor n p q))))

theorem connector_portFor {p q : ℕ} (hp : p < n) : connector n (portFor n p q) = q := (port_div_mod hp).1

/-- A pair with a smaller listener has the smaller number. -/
theorem pair_lt {p p' q : ℕ} (q' : ℕ) (hp : p < p') (hq : q < n) : p * n + q < p' * n + q' := by
  have h := Nat.mul_le_mul_right n (Nat.succ_le_of_lt hp)
  rw [Nat.succ_mul] at h
  omega

theorem rising_pi {player : ℕ} (h1 : 1 ≤ player) (h2 : player < n) :
    (piActs n player).Pairwise fun a b => rank n (.pi player, a) < rank n (.pi player, b) := by
  have hcon : ∀ {p : ℕ}, p < n → connector n (ports player n p).2 = player := fun hp => connector_portFor hp
  have hsrv : ∀ {p : ℕ}, connector n (ports player n p).1 = p := connector_portFor h2
  unfold piActs
  rw [List.pairwise_append, List.pairwise_append, List.pairwise_flatMap, List.pairwise_flatMap]
  refine ⟨⟨List.pairwise_singleton _ _, ⟨fun p _ => List.pairwise_singleton _ _, ?_⟩, ?_⟩, ⟨fun q hq => ?_, ?_⟩, ?_⟩
  · -- connecting to one player after the other
    refine (List.pairwise_lt_range' 1).imp_of_mem fun {p p'} hp hp' hlt a ha b hb => ?_
    obtain rfl := List.mem_singleton.1 ha
    obtain rfl := List.mem_singleton.1 hb
    have hp2 := List.mem_range'_1.1 hp
    have hp2' := List.mem_range'_1.1 hp'
    have hpair := pair_lt player hlt h2
    simp only [rank, hcon (show p < n by omega), hcon (show p' < n by omega)]
    omega
  · intro a ha b hb
    obtain rfl := List.mem_singleton.1 ha
    obtain ⟨p, hp, hb⟩ := List.mem_flatMap.1 hb
    obtain rfl := List.mem_singleton.1 hb
    have hp2 := List.mem_range'_1.1 hp
    have hpair := pair_lt player (show 0 < p by omega) h2
    simp only [rank, hcon (show p < n by omega), hcon (show 0 < n by omega)]
    omega
  · apply List.pairwise_pair.2
    simp only [rank]
    omega
  · -- serving one player after the other
    refine (List.pairwise_lt_range' 1).imp_of_mem fun {q q'} _ _ hlt a ha b hb => ?_
    have hrank : ∀ {q : ℕ} {a : Act} {i : ℤ}, a ∈ initSender (.senders i) (ports player n q).1 →
        3 * (player * n + q) ≤ rank n (.pi player, a) ∧ rank n (.pi player, a) ≤ 3 * (player * n + q) + 2 := by
      intro q a i ha
      simp only [initSender, List.mem_cons, List.not_mem_nil, or_false] at ha
      rcases ha with rfl | rfl <;> simp only [rank, Site.party, hsrv] <;> omega
    have h3 := (hrank ha).2
    have h4 := (hrank hb).1
    omega
  · -- all players connected to come before the Pi itself
    intro a ha b hb
    obtain ⟨q, _, hb⟩ := List.mem_flatMap.1 hb
    have hb3 : 3 * (player * n + q) ≤ rank n (.pi player, b) := by
      simp only [initSender, List.mem_cons, List.not_mem_nil, or_false] at hb
      rcases hb with rfl | rfl <;> simp only [rank, Site.party, hsrv] <;> omega
    obtain ⟨p, hp, i, rfl⟩ : ∃ p, p < player ∧ ∃ slot, a = .connect slot p (ports player n p).2 := by
      rcases List.mem_append.1 ha with ha | ha
      · exact ⟨0, h1, _, List.mem_singleton.1 ha⟩
      · obtain ⟨p, hp, ha⟩ := List.mem_flatMap.1 ha
        have hp2 := List.mem_range'_1.1 hp
        exact ⟨p, by omega, _, List.mem_singleton.1 ha⟩
    have hpair := pair_lt q hp h2
    simp only [rank, hcon (show p < n by omega)] at hb3 ⊢
    omega

theorem ranked (n : ℕ) : Ranked (script n) (Waits n) (rank n) := by
  -- the ranks rise along each script, what a call waits for has a lower one, and somebody makes it
  refine ⟨fun t => ?_, fun t a _ b hb => ?_, fun t a _ b hb => ?_⟩
  · unfold script
    rw [List.pairwise_map]
    cases t with
    | inst k =>
      simp only [acts]
      split
      · apply List.pairwise_pair.2
        simp only [rank]
        omega
      · exact .nil
    | pi player =>
      simp only [acts]
      split
      · rename_i h
        exact rising_pi h.1 h.2
      · exact .nil
  · rcases hb with ⟨p, q, hpq, hq, ⟨rfl, rfl⟩ | ⟨rfl, rfl⟩⟩
    · simp only [rank, server_party]
      omega
    · simp only [rank, server_party]
      omega
  · rcases hb with ⟨p, q, hpq, hq, ⟨rfl, rfl⟩ | ⟨rfl, rfl⟩⟩
    · exact ⟨server p q, mem_script.2 ⟨rfl, listen_mem.2 ⟨p, q, hpq, hq, rfl, rfl⟩⟩⟩
    · exact ⟨.pi q, mem_script.2 ⟨rfl, connect_mem.2 ⟨q, hpq, hq, rfl, rfl, rfl⟩⟩⟩

end Scripts

/-! ## Slots -/

def Act.slot : Act → Option Slot
  | .listen _ => none
  | .accept slot _ => some slot
  | .connect slot _ _ => some slot

theorem slotTo_inj {i p q : ℕ} (h : slotTo i p = slotTo i q) : p = q := by
  unfold slotTo at h
  split_ifs at h <;> simp only [Slot.receivers.injEq, Slot.senders.injEq] at h <;> omega

/-- The action that fills an entry of a Pi. -/
theorem act_of_slot {n i : ℕ} {a : Act} {x : Slot} (ha : a ∈ acts n (.pi i)) (hx : a.slot = some x) :
    ∃ o, x = slotTo i o ∧
      a = if o < i then .connect (slotTo i o) o (portFor n o i) else .accept (slotTo i o) (portFor n i o) := by
  cases a with
  | listen port => cases hx
  | accept slot port =>
    cases hx
    obtain ⟨p, q, hpq, hq, ht, rfl, rfl⟩ := accept_mem.1 ha
    obtain ⟨h0, rfl⟩ := server_eq_pi.1 ht.symm
    refine ⟨q, by rw [serverSlot, if_neg h0], ?_⟩
    rw [if_neg (by omega), serverSlot, if_neg h0]
  | connect slot p port =>
    cases hx
    obtain ⟨q, hpq, hq, ht, rfl, rfl⟩ := connect_mem.1 ha
    cases ht
    exact ⟨p, rfl, by rw [if_pos hpq]⟩

/-- A thread uses an entry once. -/
theorem slot_inj {n : ℕ} {t : Site} {a b : Act} {x : Slot} (ha : a ∈ acts n t) (hb : b ∈ acts n t)
    (hax : a.slot = some x) (hbx : b.slot = some x) : a = b := by
  cases t with
  | inst k =>
    have hone : ∀ {c : Act}, c ∈ acts n (.inst k) → c.slot = some x → c = .accept .s (ports 0 n (k + 1)).1 := by
      intro c hc hcx
      simp only [acts] at hc
      split at hc
      · simp only [initSender, List.mem_cons, List.not_mem_nil, or_false] at hc
        rcases hc with rfl | rfl
        · cases hcx
        · rfl
      · cases hc
    rw [hone ha hax, hone hb hbx]
  | pi i =>
    obtain ⟨o, hxo, rfl⟩ := act_of_slot ha hax
    obtain ⟨o', hxo', rfl⟩ := act_of_slot hb hbx
    obtain rfl := slotTo_inj (hxo.symm.trans hxo')
    rfl

/-! ## Runs -/

/-- A connection: who has opened it, and to which machine and port. -/
structure Conn (H : Type) where
  client : Site
  addr : H × ℕ

/-- How far the threads are, the connections a listening socket has not accepted yet, and the sockets
of the threads. -/
structure State (H : Type) where
  pc : Site → ℕ
  pending : H × ℕ → List Site
  sock : Site → Slot → Option (Conn H)

section Run

variable {H : Type} {n : ℕ} {ips : ℕ → H}

def start : State H := ⟨fun _ => 0, fun _ => [], fun _ _ => none⟩

/-- A thread on this machine listens on the port. The listening socket stays open. -/
def State.Listening (n : ℕ) (ips : ℕ → H) (s : State H) (addr : H × ℕ) : Prop :=
  ∃ t port, (t, Act.listen port) ∈ done (script n) s.pc t ∧ addr = (ips t.party, port)

def State.store (s : State H) (t : Site) (slot : Slot) (c : Conn H) : Site → Slot → Option (Conn H) :=
  Function.update s.sock t (Function.update (s.sock t) slot (some c))

/-- A step of a thread, player `p` being at the machine `ips p`. -/
inductive Step [DecidableEq H] (n : ℕ) (ips : ℕ → H) : State H → State H → Prop
  /-- `bind` and `listen`, on a port nobody on the machine listens on. -/
  | listen {s t port} (hn : next (script n) s.pc t = some (t, .listen port))
      (hfree : ¬ s.Listening n ips (ips t.party, port)) : Step n ips s { s with pc := advance s.pc t }
  /-- `connect` returns once somebody listens there. -/
  | connect {s t slot p port} (hn : next (script n) s.pc t = some (t, .connect slot p port))
      (h : s.Listening n ips (ips p, port)) :
      Step n ips s ⟨advance s.pc t, Function.update s.pending (ips p, port) (s.pending (ips p, port) ++ [t]),
        s.store t slot ⟨t, (ips p, port)⟩⟩
  /-- `accept` returns the first connection that waits. -/
  | accept {s t slot port c rest} (hn : next (script n) s.pc t = some (t, .accept slot port))
      (h : s.pending (ips t.party, port) = c :: rest) :
      Step n ips s ⟨advance s.pc t, Function.update s.pending (ips t.party, port) rest,
        s.store t slot ⟨c, (ips t.party, port)⟩⟩

/-- All calls have returned. -/
def State.Complete (n : ℕ) (s : State H) : Prop := ∀ t, next (script n) s.pc t = none

/-- What holds of the sockets opened so far. -/
structure Inv (n : ℕ) (ips : ℕ → H) (s : State H) : Prop where
  connected : ∀ t slot p port, (t, Act.connect slot p port) ∈ done (script n) s.pc t →
    s.sock t slot = some ⟨t, (ips p, port)⟩
  waiting : ∀ t slot p port, (t, Act.connect slot p port) ∈ done (script n) s.pc t →
    t ∈ s.pending (ips p, port) ∨
      ∃ u slot', (u, Act.accept slot' port) ∈ done (script n) s.pc u ∧ ips u.party = ips p
  pending : ∀ addr, ∀ c ∈ s.pending addr, ∃ slot p, (c, Act.connect slot p addr.2) ∈ done (script n) s.pc c
  accepted : ∀ t slot port, (t, Act.accept slot port) ∈ done (script n) s.pc t →
    ∃ c, s.sock t slot = some ⟨c, (ips t.party, port)⟩ ∧
      ∃ slot' p, (c, Act.connect slot' p port) ∈ done (script n) s.pc c

theorem mem_acts_of_next {s : State H} {t : Site} {a : Act} (h : next (script n) s.pc t = some (t, a)) :
    a ∈ acts n t := (mem_script.1 (mem_of_next h)).2

theorem mem_acts_of_done {s : State H} {t u : Site} {a : Act} (h : (u, a) ∈ done (script n) s.pc t) :
    a ∈ acts n t := (mem_script.1 (mem_of_done h)).2

/-- Opening a socket leaves the ones opened before. -/
theorem store_of_done {s : State H} {t u : Site} {a b : Act} {x y : Slot} {c : Conn H}
    (hn : next (script n) s.pc t = some (t, a)) (ha : a.slot = some y) (hd : (u, b) ∈ done (script n) s.pc u)
    (hb : b.slot = some x) : s.store t y c u x = s.sock u x := by
  unfold State.store
  by_cases hu : u = t
  · subst hu
    rw [Function.update_self]
    have hxy : x ≠ y := by
      rintro rfl
      have hab := slot_inj (mem_acts_of_next hn) (mem_acts_of_done hd) ha hb
      subst hab
      exact next_not_mem_done ((ranked n).rising u) hn hd
    rw [Function.update_of_ne hxy]
  · rw [Function.update_of_ne hu]

theorem store_self (s : State H) (t : Site) (slot : Slot) (c : Conn H) : s.store t slot c t slot = some c := by
  unfold State.store
  rw [Function.update_self, Function.update_self]

theorem inv_start : Inv n ips (start : State H) := by
  refine ⟨fun t slot p port h => ?_, fun t slot p port h => ?_, fun addr c hc => (nomatch hc), fun t slot port h => ?_⟩
  all_goals exact absurd h (by rw [start, done_start]; exact List.not_mem_nil)

/-- What was done stays done. -/
theorem done_of_advance {s : State H} {t u : Site} {a : Site × Act} (hn : next (script n) s.pc t = some a) {b : Site × Act}
    (hb : b ∈ done (script n) s.pc u) : b ∈ done (script n) (advance s.pc t) u := (mem_done_advance hn).2 (Or.inl hb)

theorem Inv.listen {s : State H} {t : Site} {port : ℕ} (h : Inv n ips s) (hn : next (script n) s.pc t = some (t, .listen port)) :
    Inv n ips { s with pc := advance s.pc t } := by
  have hd : ∀ {u a}, a ≠ Act.listen port → ((u, a) ∈ done (script n) (advance s.pc t) u ↔ (u, a) ∈ done (script n) s.pc u) := by
    intro u a ha
    rw [mem_done_advance hn, or_iff_left]
    rintro ⟨_, he⟩
    cases he
    exact ha rfl
  refine ⟨fun u slot p port' hu => h.connected u slot p port' ((hd (by simp)).1 hu), fun u slot p port' hu => ?_,
    fun addr c hc => ?_, fun u slot port' hu => ?_⟩
  · rcases h.waiting u slot p port' ((hd (by simp)).1 hu) with hw | ⟨v, slot', hv, hip⟩
    · exact Or.inl hw
    · exact Or.inr ⟨v, slot', (hd (by simp)).2 hv, hip⟩
  · obtain ⟨slot, p, hu⟩ := h.pending addr c hc
    exact ⟨slot, p, (hd (by simp)).2 hu⟩
  · obtain ⟨c, hc, slot', p, hcd⟩ := h.accepted u slot port' ((hd (by simp)).1 hu)
    exact ⟨c, hc, slot', p, (hd (by simp)).2 hcd⟩

theorem Inv.connect [DecidableEq H] {s : State H} {t : Site} {slot : Slot} {p port : ℕ} (h : Inv n ips s)
    (hn : next (script n) s.pc t = some (t, .connect slot p port)) :
    Inv n ips ⟨advance s.pc t, Function.update s.pending (ips p, port) (s.pending (ips p, port) ++ [t]),
      s.store t slot ⟨t, (ips p, port)⟩⟩ := by
  have hself : (t, Act.connect slot p port) ∈ done (script n) (advance s.pc t) t :=
    (mem_done_advance hn).2 (Or.inr ⟨rfl, rfl⟩)
  refine ⟨fun u slot' p' port' hu => ?_, fun u slot' p' port' hu => ?_, fun addr c hc => ?_, fun u slot' port' hu => ?_⟩
  · -- an earlier call keeps its socket, the one of this step has just stored its own
    rcases (mem_done_advance hn).1 hu with hu | ⟨rfl, he⟩
    · rw [← h.connected u slot' p' port' hu]
      exact store_of_done hn rfl hu rfl
    · cases he
      exact store_self s _ _ _
  · dsimp only
    rcases (mem_done_advance hn).1 hu with hu | ⟨rfl, he⟩
    · rcases h.waiting u slot' p' port' hu with hw | ⟨v, slot'', hv, hip⟩
      · left
        by_cases haddr : (ips p', port') = (ips p, port)
        · rw [haddr, Function.update_self]
          rw [haddr] at hw
          exact List.mem_append_left _ hw
        · rwa [Function.update_of_ne haddr]
      · exact Or.inr ⟨v, slot'', done_of_advance hn hv, hip⟩
    · -- the connection of this step waits at the end of the queue
      cases he
      left
      rw [Function.update_self]
      simp
  · dsimp only at hc ⊢
    by_cases haddr : addr = (ips p, port)
    · subst haddr
      rw [Function.update_self, List.mem_append, List.mem_singleton] at hc
      rcases hc with hc | rfl
      · obtain ⟨slot', p', hu⟩ := h.pending _ c hc
        exact ⟨slot', p', done_of_advance hn hu⟩
      · exact ⟨slot, p, hself⟩
    · rw [Function.update_of_ne haddr] at hc
      obtain ⟨slot', p', hu⟩ := h.pending addr c hc
      exact ⟨slot', p', done_of_advance hn hu⟩
  · rcases (mem_done_advance hn).1 hu with hu | ⟨-, he⟩
    · obtain ⟨c, hc, slot'', p', hcd⟩ := h.accepted u slot' port' hu
      refine ⟨c, ?_, slot'', p', done_of_advance hn hcd⟩
      rw [← hc]
      exact store_of_done hn rfl hu rfl
    · cases he

theorem Inv.accept [DecidableEq H] {s : State H} {t : Site} {slot : Slot} {port : ℕ} {c : Site} {rest : List Site}
    (h : Inv n ips s) (hn : next (script n) s.pc t = some (t, .accept slot port)) (hpend : s.pending (ips t.party, port) = c :: rest) :
    Inv n ips ⟨advance s.pc t, Function.update s.pending (ips t.party, port) rest, s.store t slot ⟨c, (ips t.party, port)⟩⟩ := by
  have hself : (t, Act.accept slot port) ∈ done (script n) (advance s.pc t) t :=
    (mem_done_advance hn).2 (Or.inr ⟨rfl, rfl⟩)
  refine ⟨fun u slot' p' port' hu => ?_, fun u slot' p' port' hu => ?_, fun addr d hd => ?_, fun u slot' port' hu => ?_⟩
  · rcases (mem_done_advance hn).1 hu with hu | ⟨-, he⟩
    · rw [← h.connected u slot' p' port' hu]
      exact store_of_done hn rfl hu rfl
    · cases he
  · dsimp only
    rcases (mem_done_advance hn).1 hu with hu | ⟨-, he⟩
    · by_cases haddr : (ips p', port') = (ips t.party, port)
      · -- whoever waited here, this accept is one for its address
        obtain ⟨hip, rfl⟩ := Prod.mk.inj haddr
        exact Or.inr ⟨t, slot, hself, hip.symm⟩
      · rw [Function.update_of_ne haddr]
        rcases h.waiting u slot' p' port' hu with hw | ⟨v, slot'', hv, hip⟩
        · exact Or.inl hw
        · exact Or.inr ⟨v, slot'', done_of_advance hn hv, hip⟩
    · cases he
  · dsimp only at hd ⊢
    -- a queue has only lost its head
    have hd' : d ∈ s.pending addr := by
      by_cases haddr : addr = (ips t.party, port)
      · rw [haddr, Function.update_self] at hd
        rw [haddr, hpend]
        exact List.mem_cons_of_mem _ hd
      · rwa [Function.update_of_ne haddr] at hd
    obtain ⟨slot', p', hu⟩ := h.pending addr d hd'
    exact ⟨slot', p', done_of_advance hn hu⟩
  · rcases (mem_done_advance hn).1 hu with hu | ⟨rfl, he⟩
    · obtain ⟨d, hd, slot'', p', hcd⟩ := h.accepted u slot' port' hu
      refine ⟨d, ?_, slot'', p', done_of_advance hn hcd⟩
      rw [← hd]
      exact store_of_done hn rfl hu rfl
    · -- the connection taken was in the queue, so its thread has called `connect`
      cases he
      obtain ⟨slot'', p', hcd⟩ := h.pending (ips u.party, port) c (by rw [hpend]; exact List.mem_cons_self ..)
      exact ⟨c, store_self s _ _ _, slot'', p', done_of_advance hn hcd⟩

theorem Inv.step [DecidableEq H] {s s' : State H} (h : Inv n ips s) (hs : Step n ips s s') : Inv n ips s' := by
  cases hs with
  | listen hn _ => exact h.listen hn
  | connect hn _ => exact h.connect hn
  | accept hn hpend => exact h.accept hn hpend

theorem inv_of_reaches [DecidableEq H] {s : State H} (h : ReflTransGen (Step n ips) start s) : Inv n ips s :=
  Reach.inv_of_step inv_start (fun _ _ hi hs => hi.step hs) h

/-! ## No stuck state, and which sockets belong together -/

theorem site_of_next {s : State H} {t u : Site} {a : Act} (h : next (script n) s.pc t = some (u, a)) : u = t :=
  (mem_script.1 (mem_of_next h)).1

theorem site_of_done {s : State H} {t u : Site} {a : Act} (h : (u, a) ∈ done (script n) s.pc t) : u = t :=
  (mem_script.1 (mem_of_done h)).1

theorem progress [DecidableEq H] {s : State H} (hI : Inv n ips s) : s.Complete n ∨ ∃ s', Step n ips s s' := by
  rcases (ranked n).exists_ready s.pc with hall | ⟨t, ⟨u, a⟩, hn, hready⟩
  · exact Or.inl hall
  right
  obtain rfl := site_of_next hn
  have hmem := mem_acts_of_next hn
  cases a with
  | listen port =>
    refine ⟨_, .listen hn ?_⟩
    -- two listeners on one port are one call, and this one is still to come
    rintro ⟨v, port', hv, haddr⟩
    obtain ⟨-, rfl⟩ := Prod.mk.inj haddr
    obtain ⟨p, q, hpq, hq, rfl, rfl⟩ := listen_mem.1 hmem
    obtain ⟨p', q', hpq', hq', rfl, hport⟩ := listen_mem.1 (mem_acts_of_done hv)
    obtain ⟨rfl, rfl⟩ := portFor_inj (by omega) (by omega) hport
    exact next_not_mem_done ((ranked n).rising _) hn hv
  | connect slot p port =>
    obtain ⟨q, hpq, hq, rfl, rfl, rfl⟩ := connect_mem.1 hmem
    obtain ⟨v, hv⟩ := hready _ ⟨p, q, hpq, hq, Or.inl ⟨rfl, rfl⟩⟩
    obtain rfl := site_of_done hv
    exact ⟨_, .connect hn ⟨_, _, hv, by rw [server_party]⟩⟩
  | accept slot port =>
    obtain ⟨p, q, hpq, hq, rfl, rfl, rfl⟩ := accept_mem.1 hmem
    obtain ⟨v, hv⟩ := hready _ ⟨p, q, hpq, hq, Or.inr ⟨rfl, rfl⟩⟩
    obtain rfl := site_of_done hv
    rcases hI.waiting _ _ _ _ hv with hw | ⟨w, slot', hacc, _⟩
    · obtain ⟨c, rest, hpend⟩ := List.exists_cons_of_ne_nil (List.ne_nil_of_mem hw)
      exact ⟨_, .accept hn (by rw [server_party]; exact hpend)⟩
    · -- nobody else accepts on this port
      obtain ⟨p', q', hpq', hq', rfl, rfl, hport⟩ := accept_mem.1 (mem_acts_of_done hacc)
      obtain ⟨rfl, rfl⟩ := portFor_inj (by omega) (by omega) hport
      exact absurd hacc (next_not_mem_done ((ranked n).rising _) hn)

/-- The threads that have something to do. -/
def sites (n : ℕ) : Finset Site := (Finset.range n).image .inst ∪ (Finset.range n).image .pi

theorem mem_sites {t : Site} {a : Act} (h : a ∈ acts n t) : t ∈ sites n := by
  unfold sites
  cases t with
  | inst k =>
    have hk : k + 1 < n := by
      by_contra hk
      rw [acts, if_neg hk] at h
      cases h
    exact Finset.mem_union_left _ (Finset.mem_image_of_mem _ (Finset.mem_range.2 (by omega)))
  | pi player =>
    have hp : 1 ≤ player ∧ player < n := by
      by_contra hp
      rw [acts, if_neg hp] at h
      cases h
    exact Finset.mem_union_right _ (Finset.mem_image_of_mem _ (Finset.mem_range.2 hp.2))

theorem left_step [DecidableEq H] {s s' : State H} (h : Step n ips s s') :
    left (script n) (sites n) s'.pc < left (script n) (sites n) s.pc := by
  cases h with
  | listen hn | connect hn | accept hn => exact left_advance (mem_sites (mem_acts_of_next hn)) hn

/-- The set-up can come to its end. -/
theorem exists_connected [DecidableEq H] (n : ℕ) (ips : ℕ → H) : ∃ s, ReflTransGen (Step n ips) start s ∧ s.Complete n := by
  obtain ⟨s, hs, hI, hstop⟩ := Reach.exists_stopped (I := Inv n ips) (fun _ _ hI hst => hI.step hst)
    (fun s => left (script n) (sites n) s.pc) (fun _ _ _ hst => left_step hst) start inv_start
  refine ⟨s, hs, (progress hI).resolve_right ?_⟩
  rintro ⟨s', hst⟩
  exact hstop s' hst

/-- The connection of a pair of players has one end with each of them. -/
theorem ends_meet {s : State H} (hI : Inv n ips s) (hc : s.Complete n) {p q : ℕ} (hpq : p < q) (hq : q < n) :
    ∃ c, s.sock (.pi q) (slotTo q p) = some c ∧ s.sock (server p q) (serverSlot p q) = some c := by
  have hcon : (Site.pi q, Act.connect (slotTo q p) p (portFor n p q)) ∈ done (script n) s.pc (.pi q) := by
    rw [done_of_next_none (hc _)]
    exact mem_script.2 ⟨rfl, connect_mem.2 ⟨q, hpq, hq, rfl, rfl, rfl⟩⟩
  have hacc : (server p q, Act.accept (serverSlot p q) (portFor n p q)) ∈ done (script n) s.pc (server p q) := by
    rw [done_of_next_none (hc _)]
    exact mem_script.2 ⟨rfl, accept_mem.2 ⟨p, q, hpq, hq, rfl, rfl, rfl⟩⟩
  obtain ⟨c, hsock, slot', p', hd⟩ := hI.accepted _ _ _ hacc
  refine ⟨_, hI.connected _ _ _ _ hcon, ?_⟩
  obtain ⟨q', hpq', hq', rfl, -, hport⟩ := connect_mem.1 (mem_acts_of_done hd)
  obtain ⟨rfl, rfl⟩ := portFor_inj (by omega) (by omega) hport
  rw [hsock, server_party]

theorem slotTo_inRange {i q : ℕ} (hq : q < n) (hqi : q ≠ i) : (slotTo i q).InRange n i := by
  unfold slotTo
  split_ifs with h0 h1
  · trivial
  · constructor <;> omega
  · constructor <;> omega

/-- The set-up of the connections of `n` players on any machines: no reachable state is stuck, no two
listening sockets have one port number, and in the end the socket a Pi uses towards another player is
in its array and is the other end of the one that player uses towards it. -/
theorem setup_connects [DecidableEq H] (n : ℕ) (ips : ℕ → H) :
    (∀ s, ReflTransGen (Step n ips) start s → s.Complete n ∨ ∃ s', Step n ips s s') ∧
      (∀ (t t' : Site) (k k' port : ℕ), (script n t)[k]? = some (t, Act.listen port) →
        (script n t')[k']? = some (t', Act.listen port) → t = t' ∧ k = k') ∧
      ∀ s, ReflTransGen (Step n ips) start s → s.Complete n → ∀ i q, 1 ≤ i → i < n → q < n → q ≠ i →
        (slotTo i q).InRange n i ∧ ∃ c, s.sock (.pi i) (slotTo i q) = some c ∧
          (if q = 0 then s.sock (.inst (i - 1)) .s else s.sock (.pi q) (slotTo q i)) = some c := by
  refine ⟨fun s hs => progress (inv_of_reaches hs), fun t t' k k' port hk hk' => ?_, fun s hs hc i q h1 hi hq hqi => ?_⟩
  · -- a port names its pair of players, and no script makes a call twice
    obtain ⟨p, q, hpq, hq, rfl, rfl⟩ := listen_mem.1 (mem_script.1 (List.mem_of_getElem? hk)).2
    obtain ⟨p', q', hpq', hq', rfl, hport⟩ := listen_mem.1 (mem_script.1 (List.mem_of_getElem? hk')).2
    obtain ⟨rfl, rfl⟩ := portFor_inj (by omega) (by omega) hport
    have hnd : (script n (server p q)).Nodup := ((ranked n).rising _).imp fun h he => absurd h (by rw [he]; exact lt_irrefl _)
    exact ⟨rfl, (List.getElem?_inj (List.getElem?_eq_some_iff.1 hk).1 hnd).1 (hk.trans hk'.symm)⟩
  · refine ⟨slotTo_inRange hq hqi, ?_⟩
    rcases lt_or_gt_of_ne hqi with hlt | hgt
    · -- `i` has connected to `q`, which may be P0
      obtain ⟨c, h1, h2⟩ := ends_meet (inv_of_reaches hs) hc hlt hi
      refine ⟨c, h1, ?_⟩
      unfold server serverSlot at h2
      split_ifs with h0
      · rwa [if_pos h0, if_pos h0] at h2
      · rwa [if_neg h0, if_neg h0] at h2
    · -- `q` has connected to `i`
      obtain ⟨c, h2, h3⟩ := ends_meet (inv_of_reaches hs) hc hgt hq
      unfold server serverSlot at h3
      rw [if_neg (by omega), if_neg (by omega)] at h3
      rw [if_neg (by omega)]
      exact ⟨c, h3, h2⟩

/-- Three players on one machine come to the end of the set-up, and then the other two have P1 on the other side. -/
theorem setup_connects_three : ∃ s, ReflTransGen (Step 3 fun _ => ()) start s ∧ s.Complete 3 ∧
    (∃ c, s.sock (.pi 1) .recv = some c ∧ s.sock (.inst 0) .s = some c) ∧
    ∃ c, s.sock (.pi 1) (.senders 0) = some c ∧ s.sock (.pi 2) (.receivers 0) = some c := by
  obtain ⟨s, hs, hc⟩ := exists_connected 3 fun _ => ()
  have h := (setup_connects 3 fun _ => ()).2.2 s hs hc 1
  exact ⟨s, hs, hc, (h 0 le_rfl (by decide) (by decide) (by decide)).2, (h 2 le_rfl (by decide) (by decide) (by decide)).2⟩

end Run

end Mpsi.Connect
