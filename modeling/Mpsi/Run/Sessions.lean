/-
The sessions of the connections: the sizes of the messages each stream carries, phase by phase, as the
write loops hand them over and as the read loops take them. Only two things are not the same at all times
and for all: how many positions `R` has, which the message before it says, and the pieces in which P0 takes
a GBF.

The threads of every phase keep to them, whatever they receive (`keys_begin`, `agree_begin` and so on).
-/
import Mpsi.Apport.Cut
import Mpsi.Lib.Speaks
import Mpsi.Run.Bytes
import Mpsi.Run.Joins
import Mpsi.Run.Scripts

namespace Mpsi

open Thread

variable {κ : Type}

/-! ## Streams and their messages -/

/-- Whether a stream carries what an instance writes as the sender or as the receiver of its OTs. Between
two Pi there are no instances. -/
def Chan.role (d : Chan) : Option Role :=
  if d.src ≠ 0 ∧ d.dst ≠ 0 then none else if d.main = decide (d.src = 0) then some .sender else some .receiver

/-- The streams on which the Pi send their GBF. -/
def Chan.carriesGbf (d : Chan) : Bool := d.dst = 0 && !d.main

/-- The sizes of the pieces in which `get_gbf` takes a GBF. -/
def gbfPieces (chunk_size Nbf : ℕ) : List ℕ :=
  List.replicate (Nbf / chunk_size) (16 * chunk_size) ++
    if Nbf / chunk_size * chunk_size < Nbf then [16 * (Nbf - Nbf / chunk_size * chunk_size)] else []

theorem sum_gbfPieces (chunk_size Nbf : ℕ) : (gbfPieces chunk_size Nbf).sum = 16 * Nbf := by
  have hle := Nat.div_mul_le_self Nbf chunk_size
  have hmul : Nbf / chunk_size * (16 * chunk_size) = 16 * (Nbf / chunk_size * chunk_size) := by ring
  unfold gbfPieces
  split
  · simp only [List.sum_append, List.sum_replicate, smul_eq_mul, List.sum_singleton, hmul]
    omega
  · simp only [List.sum_append, List.sum_replicate, smul_eq_mul, List.sum_nil, hmul]
    omega

section Sessions

variable (L : Layout κ) (e : Env κ) (gbf : List ℕ) (d : Chan)

/-- What comes at the end: the GBF, in pieces of the sizes `gbf`. -/
def endSession : Session UInt8 := if d.carriesGbf then .sizes gbf .stop else .stop

/-- From the online phase on: the function. -/
def onlineSession : Session UInt8 :=
  match d.role with
  | some .receiver => .sizes [4 * e.Nbf] (endSession gbf d)
  | _ => endSession gbf d

/-- From the offline phase on: `Nc` and the seed of the sub-group, or `Nr`, `R` and `r`. -/
def offlineSession : Session UInt8 :=
  match d.role with
  | some .sender => .sizes [4, 16] (onlineSession e gbf d)
  | some .receiver => .msg 4 fun Nr => .sizes [4 * (toInt Nr).toNat, 16] (onlineSession e gbf d)
  | none => onlineSession e gbf d

/-- From the seeds agreement on: the commitment and the seed. -/
def agreeSession : Session UInt8 := if d.main then .sizes [L.size, 16] (offlineSession e gbf d) else offlineSession e gbf d

/-- All of a stream: first the key. -/
def keysSession : Session UInt8 := if d.main then .sizes [16] (agreeSession L e gbf d) else agreeSession L e gbf d

end Sessions

/-- A session for each stream, as sessions for the sockets. -/
def onSock (n : ℕ) (f : Chan → Session UInt8) (c : Sock) : Session UInt8 :=
  match c.decode n with
  | some d => f d
  | none => .stop

theorem onSock_sock {n : ℕ} {f : Chan → Session UInt8} {d : Chan} (h : d.Valid n) : onSock n f (d.sock n) = f d := by
  unfold onSock
  rw [decode_sock h]

section Roles

variable {n i a : ℕ} {d : Chan}

theorem role_senderChan : (senderChan i a).role = some .sender := by
  unfold Chan.role senderChan instPeer
  by_cases hi : i = 0 <;> simp [hi]

theorem role_receiverChan : (receiverChan i a).role = some .receiver := by
  unfold Chan.role receiverChan instPeer
  by_cases hi : i = 0 <;> simp [hi]

theorem role_senderBack : (senderBack i a).role = some .receiver := by
  unfold Chan.role senderBack senderChan instPeer Chan.back
  by_cases hi : i = 0 <;> simp [hi]

theorem role_receiverBack : (receiverBack i a).role = some .sender := by
  unfold Chan.role receiverBack receiverChan instPeer Chan.back
  by_cases hi : i = 0 <;> simp [hi]

theorem role_pi (h1 : d.src ≠ 0) (h2 : d.dst ≠ 0) : d.role = none := if_pos ⟨h1, h2⟩

end Roles

/-! ## Reads and writes -/

section Speaks

variable {δ σ α : Type} {L : Layout κ} {S R : Session UInt8} {next : List UInt8 → Session UInt8} {Q : Session UInt8 → Session UInt8 → Prop}

theorem speaks_getInt {f : ℤ → Proc κ δ σ α} (h : ∀ z, IsInt z → Speaks L.bytes Fits (f z) S (next (intBytes z)) Q) :
    Speaks L.bytes Fits (getInt >>= f) S (.msg 4 next) Q :=
  speaks_getOne_bind (T := Wire κ) (t := Kind.int) (fun z => L.length_ints [z]) fun z hz => by
    have hb : L.bytes (tag (T := Wire κ) Kind.int [z]) = intBytes z := L.bytes_int z
    rw [hb]
    exact h z (hz z (List.mem_singleton_self _))

theorem speaks_getBlock {f : Block → Proc κ δ σ α} (h : ∀ b, Speaks L.bytes Fits (f b) S R Q) :
    Speaks L.bytes Fits (getBlock >>= f) S (.sizes [16] R) Q :=
  speaks_getOne_bind (T := Wire κ) (t := Kind.blk) (fun b => L.length_blks [b]) fun b _ => h b

theorem speaks_getCommit {f : κ → Proc κ δ σ α} (h : ∀ c, Speaks L.bytes Fits (f c) S R Q) :
    Speaks L.bytes Fits (getCommit >>= f) S (.sizes [L.size] R) Q :=
  speaks_getOne_bind (T := Wire κ) (t := Kind.com) (fun c => L.length_com c) fun c _ => h c

theorem speaks_getInts {n : ℕ} {f : List.Vector ℤ n → Proc κ δ σ α} (h : ∀ x, Speaks L.bytes Fits (f x) S R Q) :
    Speaks L.bytes Fits (getInts n >>= f) S (.sizes [4 * n] R) Q :=
  speaks_getList_bind (T := Wire κ) (t := Kind.int) (fun x => (L.length_bytes .int _).trans (congrArg (4 * ·) x.2)) fun x _ => h x

theorem speaks_getBlocks {n : ℕ} {f : List.Vector Block n → Proc κ δ σ α} (h : ∀ x, Speaks L.bytes Fits (f x) S R Q) :
    Speaks L.bytes Fits (getBlocks n >>= f) S (.sizes [16 * n] R) Q :=
  speaks_getList_bind (T := Wire κ) (t := Kind.blk) (fun x => (L.length_bytes .blk _).trans (congrArg (16 * ·) x.2)) fun x _ => h x

theorem speaks_putInts {l : List ℤ} {f : Unit → Proc κ δ σ α} (h : Speaks L.bytes Fits (f ()) (next (L.bytes (ints l))) R Q) :
    Speaks L.bytes Fits (putInts l >>= f) (.msg (4 * l.length) next) R Q :=
  speaks_putList_bind (T := Wire κ) (t := Kind.int) (L.length_ints l) h

theorem speaks_putBlocks {l : List Block} {f : Unit → Proc κ δ σ α} (h : Speaks L.bytes Fits (f ()) S R Q) :
    Speaks L.bytes Fits (putBlocks l >>= f) (.sizes [16 * l.length] S) R Q :=
  speaks_putList_bind (T := Wire κ) (t := Kind.blk) (L.length_blks l) h

theorem speaks_putCommit {c : κ} {f : Unit → Proc κ δ σ α} (h : Speaks L.bytes Fits (f ()) S R Q) :
    Speaks L.bytes Fits (putCommit c >>= f) (.sizes [L.size] S) R Q :=
  speaks_putList_bind (T := Wire κ) (t := Kind.com) (L.length_com c) h

end Speaks

/-! ## The threads -/

section Threads

variable {δ σ : Type} {L : Layout κ} {e : Env κ} {i a : ℕ} {S R : Session UInt8}

/-- Where a thread leaves its sessions. -/
def Leaves (S R X Y : Session UInt8) : Prop := X = S ∧ Y = R

theorem leaves_self : Leaves S R S R := ⟨rfl, rfl⟩

theorem speaks_secretRead : Speaks L.bytes Fits (secretRead (κ := κ)) S (.sizes [16] R) (Leaves S R) :=
  speaks_getBlock fun _ => leaves_self

theorem speaks_secretWrite {key : Block} : Speaks L.bytes Fits (secretWrite (κ := κ) key) (.sizes [16] S) R (Leaves S R) :=
  speaks_putBlocks leaves_self

theorem speaks_seedsRead : Speaks L.bytes Fits (seedsRead (κ := κ)) S (.sizes [L.size, 16] R) (Leaves S R) :=
  speaks_getCommit (R := .sizes [16] R) fun _ => speaks_getBlock fun _ => leaves_self

theorem speaks_seedsWrite {commit : κ} : Speaks L.bytes Fits (seedsWrite commit) (.sizes [L.size, 16] S) R (Leaves S R) :=
  speaks_putCommit (S := .sizes [16] S) fun _ => speaks_putBlocks leaves_self

/-- `R` has no more positions than there are OTs. -/
theorem length_R_le {C : SubGroup e.Not} {cut : RrState}
    (h : computeRr C.elems (freshIndexes e.Not) (e.bits i a) e.Not (e.choiceStrings i a) = .ok cut) : cut.R.length ≤ e.Not := by
  obtain ⟨st, hst, hcut⟩ := computeRr_eq C (e.bits_length i a) (e.choiceStrings_length i a)
  rw [hst] at h
  cases h
  rw [hcut.R, ofNats, List.length_map]
  apply (List.length_filter_le _ _).trans
  rw [length_sortedDown]
  exact C.size_le

theorem speaks_offlineApportReceiver (hNot : e.Not < 2 ^ 31) : Speaks L.bytes Fits (offlineApportReceiver e i a)
    (.msg 4 fun Nr => .sizes [4 * (toInt Nr).toNat, 16] S) (.sizes [4, 16] R) (Leaves S R) := by
  refine speaks_getInt fun Nc _ => speaks_lift_bind fun _ _ => ?_
  refine speaks_getBlock fun seed => speaks_lift_bind fun C _ => ?_
  split
  · apply speaks_lift_bind
    intro cut hcut
    have hle := length_R_le hcut
    have hNr : (toInt (L.bytes (ints [(cut.R.length : ℤ)]))).toNat = cut.R.length := by
      rw [L.bytes_int, toInt_intBytes ⟨by omega, by omega⟩]
      rfl
    apply speaks_putInts (l := [(cut.R.length : ℤ)])
    rw [hNr]
    exact speaks_putInts (speaks_putBlocks (l := [cut.r]) (speaks_lift_bind fun _ _ => leaves_self))
  · trivial

theorem speaks_offlineApportSender : Speaks L.bytes Fits (offlineApportSender e i a) (.sizes [4, 16] S)
    (.msg 4 fun Nr => .sizes [4 * (toInt Nr).toNat, 16] R) (Leaves S R) := by
  apply speaks_lift_bind
  intro C _
  refine speaks_putInts (l := [(e.Nc : ℤ)]) (speaks_putBlocks (l := [e.seed_sub_group i a]) ?_)
  refine speaks_getInt fun Nr hNr => speaks_lift_bind fun _ _ => ?_
  rw [toInt_intBytes hNr]
  refine speaks_getInts (R := .sizes [16] R) fun R' => speaks_getBlock fun r => speaks_lift_bind fun v _ => ?_
  split
  · trivial
  · exact leaves_self

theorem speaks_onlineApportReceiver {BF : List Bool} {rcv : Receiver e.Not} (hBF : BF.length = e.Nbf) :
    Speaks L.bytes Fits (onlineApportReceiver (κ := κ) BF rcv) (.sizes [4 * e.Nbf] S) R (Leaves S R) := by
  apply speaks_lift_bind
  intro f hf
  have hlen : f.length = e.Nbf :=
    (served_of_ok (L := fun v => bif v then rcv.ones else rcv.zeros) hf).length.trans hBF
  rw [← hlen]
  exact speaks_putInts leaves_self

theorem speaks_onlineApportSender : Speaks L.bytes Fits (onlineApportSender (κ := κ) e.Nbf) S (.sizes [4 * e.Nbf] R) (Leaves S R) :=
  speaks_getInts fun _ => leaves_self

theorem speaks_chunkRound {start len : ℕ} :
    Speaks L.bytes Fits (chunkRound (κ := κ) start len) S (.sizes [16 * len] R) (Leaves S R) :=
  speaks_getBlocks fun _ => leaves_self

theorem speaks_getGbf {chunk_size Nbf : ℕ} :
    Speaks L.bytes Fits (getGbf (κ := κ) chunk_size Nbf) S (.sizes (gbfPieces chunk_size Nbf) R) (Leaves S R) := by
  have hl : Nbf / chunk_size = (List.range' 0 (Nbf / chunk_size)).length := by simp
  rw [getGbf_eq, gbfPieces, Session.sizes_append]
  conv in List.replicate _ _ => rw [hl]
  refine speaks_bind (speaks_forEach (fun i X Y => speaks_chunkRound) _) fun _ X Y h => ?_
  rw [h.1, h.2]
  split
  · exact speaks_chunkRound
  · exact leaves_self

end Threads

/-! ## The beginnings of the phases -/

section Begin

variable {δ σ ι : Type} {L : Layout κ} {e : Env κ} {n i cs : ℕ} {ws ws' rs rs' : Chan → Session UInt8}

theorem along_some {d : Chan} {f : Chan → Session UInt8} {c : Sock} (hd : d.Valid n) (hc : c = d.sock n) :
    along (some c) (onSock n f) = f d := by
  subst hc
  exact onSock_sock hd

/-- The threads of the set-up, each on its own connection. -/
theorem speaks_setUp {α : SetUp → Type} {S : Stage (Wire κ) δ σ Fault Sock α} (hS : S.port = setUpPort n i) (hi : i < n)
    (hw : ∀ d, d.main = false → ws d = ws' d) (hr : ∀ d, d.main = false → rs d = rs' d)
    (hread : ∀ q, q < n → q ≠ i → Speaks L.bytes Fits (S.prog (.read ⟨place i q, (Chan.mk i q true).sock n⟩)) .stop
      (rs ⟨q, i, true⟩) (Leaves .stop (rs' ⟨q, i, true⟩)))
    (hwrite : ∀ q, q < n → q ≠ i → Speaks L.bytes Fits (S.prog (.write ⟨place i q, (Chan.mk i q true).sock n⟩)) (ws ⟨i, q, true⟩)
      .stop (Leaves (ws' ⟨i, q, true⟩) .stop))
    (hno : ∀ l, l ∉ links n i → (∃ x, S.prog (.read l) = .ret x) ∧ ∃ x, S.prog (.write l) = .ret x) :
    S.Speaks L.bytes Fits (fun c => writer n c = i) (fun c => reader n c = i) (onSock n ws') (onSock n rs') S.start
      (onSock n ws) (onSock n rs) := by
  refine ⟨fun a => ?_, fun c hc hown => ?_, fun c hc hown => ?_⟩
  · rw [hS]
    change Speaks L.bytes Fits (S.prog a) _ _ _
    cases a with
    | read l =>
      by_cases hl : l ∈ links n i
      · obtain ⟨q, hq, hne, rfl⟩ := (mem_links hi).1 hl
        have hport : (setUpPort n i (.read ⟨place i q, (Chan.mk i q true).sock n⟩)).inp = some ((Chan.mk q i true).sock n) :=
          (setUp_inp hi).2 ⟨q, hq, hne, rfl, rfl⟩
        have hd := (setUp_valid hi hq hne).2
        rw [hport, along_some hd rfl, along_some hd rfl]
        exact hread q hq hne
      · obtain ⟨⟨x, hx⟩, _⟩ := hno l hl
        rw [hx, show setUpPort n i (.read l) = ⟨none, none⟩ by simp [setUpPort, hl]]
        exact ⟨rfl, rfl⟩
    | write l =>
      by_cases hl : l ∈ links n i
      · obtain ⟨q, hq, hne, rfl⟩ := (mem_links hi).1 hl
        have hport : (setUpPort n i (.write ⟨place i q, (Chan.mk i q true).sock n⟩)).out = some ((Chan.mk i q true).sock n) :=
          (setUp_out hi).2 ⟨q, hq, hne, rfl, rfl⟩
        have hd := (setUp_valid hi hq hne).1
        rw [hport, along_some hd rfl, along_some hd rfl]
        exact hwrite q hq hne
      · obtain ⟨_, x, hx⟩ := hno l hl
        rw [hx, show setUpPort n i (.write l) = ⟨none, none⟩ by simp [setUpPort, hl]]
        exact ⟨rfl, rfl⟩
  · -- a main stream belongs to a thread
    obtain ⟨d, hd, hs, rfl⟩ := exists_writer hi hc
    rw [onSock_sock hd, onSock_sock hd]
    rcases d with ⟨s, t, _ | _⟩
    · exact hw _ rfl
    · cases hs
      exact absurd ((setUp_out hi).2 ⟨t, hd.dst, hd.ne.symm, rfl, rfl⟩) (hS ▸ hown _)
  · obtain ⟨d, hd, hs, rfl⟩ := exists_reader hi hc
    rw [onSock_sock hd, onSock_sock hd]
    rcases d with ⟨s, t, _ | _⟩
    · exact hr _ rfl
    · cases hs
      exact absurd ((setUp_inp hi).2 ⟨s, hd.src, hd.ne, rfl, rfl⟩) (hS ▸ hown _)

/-- The threads of the instances; the streams none of them uses are at their next phase. -/
theorem speaks_inst {α : ι → Type} {S : Stage (Wire κ) δ σ Fault Sock α} (hi : i < n) {snd rcv snd' rcv' : ℕ → Option ι}
    (u : Uses n i (fun t => (S.port t).out) (senderSock n i) (receiverSock n i) snd rcv)
    (u' : Uses n i (fun t => (S.port t).inp) (fun a => (senderSock n i a).peer) (fun a => (receiverSock n i a).peer) snd' rcv')
    (hout : ∀ a, a < slots n i → (snd a = none → ws (senderChan i a) = ws' (senderChan i a)) ∧
      (rcv a = none → ws (receiverChan i a) = ws' (receiverChan i a)))
    (hinp : ∀ a, a < slots n i → (snd' a = none → rs (senderBack i a) = rs' (senderBack i a)) ∧
      (rcv' a = none → rs (receiverBack i a) = rs' (receiverBack i a)))
    (hpi : ∀ d : Chan, d.src ≠ 0 → d.dst ≠ 0 → ws d = ws' d ∧ rs d = rs' d)
    (hthread : ∀ t, Speaks L.bytes Fits (S.prog t) (along (S.port t).out (onSock n ws)) (along (S.port t).inp (onSock n rs))
      (Leaves (along (S.port t).out (onSock n ws')) (along (S.port t).inp (onSock n rs')))) :
    S.Speaks L.bytes Fits (fun c => writer n c = i) (fun c => reader n c = i) (onSock n ws') (onSock n rs') S.start
      (onSock n ws) (onSock n rs) := by
  refine ⟨hthread, fun c hc hown => ?_, fun c hc hown => ?_⟩
  · -- a stream no thread has keeps its language; those between two Pis are none of them
    obtain ⟨d, hd, hs, rfl⟩ := exists_writer hi hc
    subst hs
    rw [onSock_sock hd, onSock_sock hd]
    rcases chan_cases hd with ⟨a, ha, he⟩ | ⟨a, ha, he⟩ | ⟨_, h1, h2⟩
    · rw [he]
      apply (hout a ha).1
      apply u.sender_none ha
      intro t
      rw [senderSock_eq, ← he]
      exact hown t
    · rw [he]
      apply (hout a ha).2
      apply u.receiver_none ha
      intro t
      rw [receiverSock_eq, ← he]
      exact hown t
    · exact (hpi d h1 h2).1
  · obtain ⟨d, hd, hs, rfl⟩ := exists_reader hi hc
    subst hs
    rw [onSock_sock hd, onSock_sock hd]
    rcases chan_back_cases hd with ⟨a, ha, he⟩ | ⟨a, ha, he⟩ | ⟨_, h1, h2⟩
    · rw [he]
      apply (hinp a ha).1
      apply u'.sender_none ha
      intro t
      rw [senderSock_peer hi ha, ← he]
      exact hown t
    · rw [he]
      apply (hinp a ha).2
      apply u'.receiver_none ha
      intro t
      rw [receiverSock_peer hi ha, ← he]
      exact hown t
    · exact (hpi d h1 h2).2

end Begin

section Phases

variable {L : Layout κ} {e : Env κ} {i cs : ℕ}

/-- The threads of `compute_gbf` over a `synchGBF` with chunks of another size. -/
def gbfStage (chunk_size : ℕ) (e : Env κ) (GBF : ℕ → Block) : Stage (Wire κ) ChunkXor (ℕ → Block) Fault Sock (fun _ : ℕ => Unit) :=
  { collectStage e GBF with prog := fun a => if a < e.parties - 1 then getGbf chunk_size e.Nbf else .ret () }

/-- The threads of a phase on their way to the next, from which on the streams are as `f` says. -/
abbrev Speaking {δ σ ι : Type} {α : ι → Type} (L : Layout κ) (e : Env κ) (chunk_size i : ℕ) (S : Stage (Wire κ) δ σ Fault Sock α)
    (f : List ℕ → Chan → Session UInt8) : Pool (Wire κ) δ σ Fault α → (Sock → Session UInt8) → (Sock → Session UInt8) → Prop :=
  S.Speaks L.bytes Fits (fun c => writer e.parties c = i) (fun c => reader e.parties c = i)
    (onSock e.parties (f [16 * e.Nbf])) (onSock e.parties (f (gbfPieces chunk_size e.Nbf)))

/-- Between two phases: the streams of player `i` are as `f` says. -/
structure Reached (e : Env κ) (chunk_size i : ℕ) (f : List ℕ → Chan → Session UInt8) (w r : Sock → Session UInt8) : Prop where
  write : ∀ c, writer e.parties c = i → w c = onSock e.parties (f [16 * e.Nbf]) c
  read : ∀ c, reader e.parties c = i → r c = onSock e.parties (f (gbfPieces chunk_size e.Nbf)) c

theorem Reached.frame {f : List ℕ → Chan → Session UInt8} {w r w' r' : Sock → Session UInt8} (h : Reached e cs i f w r)
    (hw : ∀ c, writer e.parties c = i → w' c = w c) (hr : ∀ c, reader e.parties c = i → r' c = r c) : Reached e cs i f w' r' :=
  ⟨fun c hc => (hw c hc).trans (h.write c hc), fun c hc => (hr c hc).trans (h.read c hc)⟩

/-- Nothing is left. -/
def doneSession (_ : List ℕ) (_ : Chan) : Session UInt8 := .stop

theorem keys_begin (hi : i < e.parties) : Speaking L e cs i (keysStage e i) (agreeSession L e) (keysStage e i).start
    (onSock e.parties (keysSession L e [16 * e.Nbf])) (onSock e.parties (keysSession L e (gbfPieces cs e.Nbf))) := by
  refine speaks_setUp rfl hi (fun d hd => by simp [keysSession, hd]) (fun d hd => by simp [keysSession, hd])
    (fun q hq hne => ?_) (fun q hq hne => ?_) fun l hl => ⟨⟨_, if_neg hl⟩, _, if_neg hl⟩
  · rw [keysStage_read ((mem_links hi).2 ⟨q, hq, hne, rfl⟩)]
    exact speaks_secretRead
  · rw [keysStage_write ((mem_links hi).2 ⟨q, hq, hne, rfl⟩)]
    exact speaks_secretWrite

theorem agree_begin (hi : i < e.parties) : Speaking L e cs i (agreeStage e i) (offlineSession e) (agreeStage e i).start
    (onSock e.parties (agreeSession L e [16 * e.Nbf])) (onSock e.parties (agreeSession L e (gbfPieces cs e.Nbf))) := by
  refine speaks_setUp rfl hi (fun d hd => by simp [agreeSession, hd]) (fun d hd => by simp [agreeSession, hd])
    (fun q hq hne => ?_) (fun q hq hne => ?_) fun l hl => ⟨⟨_, if_neg hl⟩, _, if_neg hl⟩
  · rw [agreeStage_read ((mem_links hi).2 ⟨q, hq, hne, rfl⟩)]
    exact speaks_seedsRead
  · rw [agreeStage_write ((mem_links hi).2 ⟨q, hq, hne, rfl⟩)]
    exact speaks_seedsWrite

theorem offline_begin (hNot : e.Not < 2 ^ 31) (hi : i < e.parties) (kr : ℕ → Block) :
    Speaking L e cs i (offlineStage e i kr) (onlineSession e) (offlineStage e i kr).start
      (onSock e.parties (offlineSession e [16 * e.Nbf])) (onSock e.parties (offlineSession e (gbfPieces cs e.Nbf))) := by
  refine speaks_inst hi offline_out offline_inp (fun a ha => ⟨nofun, nofun⟩) (fun a ha => ⟨nofun, nofun⟩)
    (fun d h1 h2 => by simp [offlineSession, role_pi h1 h2]) fun t => ?_
  cases t with
  | receiver a =>
    by_cases ha : a < slots e.parties i
    · rw [offlineStage_receiver ha]
      have hport : (offlineStage e i kr).port (.receiver a) = ⟨some (receiverSock e.parties i a), some (receiverSock e.parties i a).peer⟩ :=
        if_pos ha
      have hd := receiverChan_valid hi ha
      have hb := receiverBack_valid hi ha
      rw [hport, along_some hd receiverSock_eq, along_some hd receiverSock_eq, along_some hb (receiverSock_peer hi ha),
        along_some hb (receiverSock_peer hi ha)]
      simp only [offlineSession, role_receiverChan, role_receiverBack]
      exact speaks_offlineApportReceiver hNot
    · rw [show (offlineStage e i kr).prog (.receiver a) = _ from if_neg ha,
        show (offlineStage e i kr).port (.receiver a) = ⟨none, none⟩ from if_neg ha]
      exact ⟨rfl, rfl⟩
  | sender a =>
    by_cases ha : a < slots e.parties i
    · rw [offlineStage_sender ha]
      have hport : (offlineStage e i kr).port (.sender a) = ⟨some (senderSock e.parties i a), some (senderSock e.parties i a).peer⟩ :=
        if_pos ha
      have hd := senderChan_valid hi ha
      have hb := senderBack_valid hi ha
      rw [hport, along_some hd senderSock_eq, along_some hd senderSock_eq, along_some hb (senderSock_peer hi ha),
        along_some hb (senderSock_peer hi ha)]
      simp only [offlineSession, role_senderChan, role_senderBack]
      exact speaks_offlineApportSender
    · rw [show (offlineStage e i kr).prog (.sender a) = _ from if_neg ha,
        show (offlineStage e i kr).port (.sender a) = ⟨none, none⟩ from if_neg ha]
      exact ⟨rfl, rfl⟩
  | shares =>
    -- the shares touch no stream
    by_cases hn : 2 < e.parties
    · rw [show (offlineStage e i kr).prog .shares = _ from if_pos hn]
      exact ⟨rfl, rfl⟩
    · rw [show (offlineStage e i kr).prog .shares = _ from if_neg hn]
      exact ⟨rfl, rfl⟩

theorem online_begin (hi : i < e.parties) {BF : List Bool} (hBF : BF.length = e.Nbf) (receiver : ℕ → Receiver e.Not) :
    Speaking L e cs i (onlineStage e i BF receiver) endSession (onlineStage e i BF receiver).start
      (onSock e.parties (onlineSession e [16 * e.Nbf])) (onSock e.parties (onlineSession e (gbfPieces cs e.Nbf))) := by
  refine speaks_inst hi online_out online_inp (fun a ha => ⟨fun _ => ?_, nofun⟩) (fun a ha => ⟨nofun, fun _ => ?_⟩)
    (fun d h1 h2 => by simp [onlineSession, role_pi h1 h2]) fun t => ?_
  · simp [onlineSession, role_senderChan]
  · simp [onlineSession, role_receiverBack]
  · rcases t with ⟨a, _ | _⟩
    · by_cases ha : a < slots e.parties i
      · rw [onlineStage_receiver ha]
        have hport : (onlineStage e i BF receiver).port (a, .receiver) = ⟨some (receiverSock e.parties i a), none⟩ := by
          simp [onlineStage, ha]
        have hd := receiverChan_valid hi ha
        rw [hport, along_some hd receiverSock_eq, along_some hd receiverSock_eq]
        simp only [onlineSession, role_receiverChan]
        exact speaks_onlineApportReceiver hBF
      · rw [show (onlineStage e i BF receiver).prog (a, .receiver) = _ from if_neg ha,
          show (onlineStage e i BF receiver).port (a, .receiver) = ⟨none, none⟩ by simp [onlineStage, ha]]
        exact ⟨rfl, rfl⟩
    · by_cases ha : a < slots e.parties i
      · rw [onlineStage_sender ha]
        have hport : (onlineStage e i BF receiver).port (a, .sender) = ⟨none, some (senderSock e.parties i a).peer⟩ := by
          simp [onlineStage, ha]
        have hb := senderBack_valid hi ha
        rw [hport, along_some hb (senderSock_peer hi ha), along_some hb (senderSock_peer hi ha)]
        simp only [onlineSession, role_senderBack]
        exact speaks_onlineApportSender
      · rw [show (onlineStage e i BF receiver).prog (a, .sender) = _ from if_neg ha,
          show (onlineStage e i BF receiver).port (a, .sender) = ⟨none, none⟩ by simp [onlineStage, ha]]
        exact ⟨rfl, rfl⟩

/-- Only what the sending instance of a Pi writes is a GBF. -/
theorem carriesGbf_senderChan {a : ℕ} : (senderChan i a).carriesGbf = decide (i ≠ 0) := by
  unfold Chan.carriesGbf senderChan instPeer
  by_cases hi : i = 0 <;> simp [hi]

theorem carriesGbf_iff {n : ℕ} {d : Chan} (hd : d.Valid n) : d.carriesGbf = true ↔ d.src ≠ 0 ∧ d = senderChan d.src 0 := by
  obtain ⟨s, t, m⟩ := d
  have hne := hd.ne
  have hsec := hd.second
  simp only at hne hsec
  unfold Chan.carriesGbf senderChan instPeer
  by_cases hs : s = 0
  · subst hs; simp [hne.symm]
  · cases m <;> simp [hs]

theorem collect_begin (hi : 0 < e.parties) {G : ℕ → Block} : Speaking L e cs 0 (gbfStage cs e G) doneSession (gbfStage cs e G).start
    (onSock e.parties (endSession [16 * e.Nbf])) (onSock e.parties (endSession (gbfPieces cs e.Nbf))) := by
  have hno : ∀ {d : Chan} (l : List ℕ), d.carriesGbf = false → endSession l d = doneSession l d := fun l h => by
    simp [endSession, h, doneSession]
  refine speaks_inst hi (@collect_out κ e G) (@collect_inp κ e G) (fun a ha => ⟨fun _ => hno _ ?_, fun _ => hno _ ?_⟩)
    (fun a ha => ⟨fun _ => hno _ ?_, nofun⟩) (fun d h1 h2 => ⟨hno _ ?_, hno _ ?_⟩) fun a => ?_
  · simp [carriesGbf_senderChan]
  · simp [Chan.carriesGbf, receiverChan, instPeer]
  · simp [Chan.carriesGbf, senderBack, senderChan, Chan.back]
  · simp [Chan.carriesGbf, h2]
  · simp [Chan.carriesGbf, h2]
  · by_cases ha : a < e.parties - 1
    · rw [show (gbfStage cs e G).prog a = _ from if_pos ha]
      have hport : (gbfStage cs e G).port a = ⟨none, some (receiverSock e.parties 0 a).peer⟩ := by
        simp [gbfStage, collectStage, ha, receiverSock]
      have hb := receiverBack_valid hi (a := a) (by simpa [slots] using ha)
      have hcar : (receiverBack 0 a).carriesGbf = true := by
        simp [Chan.carriesGbf, receiverBack, receiverChan, Chan.back]
      rw [hport, along_some hb (receiverSock_peer hi (by simpa [slots] using ha)),
        along_some hb (receiverSock_peer hi (by simpa [slots] using ha))]
      simp only [endSession, hcar, if_true]
      exact speaks_getGbf
    · rw [show (gbfStage cs e G).prog a = _ from if_neg ha,
        show (gbfStage cs e G).port a = ⟨none, none⟩ by simp [gbfStage, collectStage, ha]]
      exact ⟨rfl, rfl⟩

end Phases

end Mpsi
