/-
The threads of the program, phase by phase: what each of them computes, writes and reads.

Each phase of `main` is a stage, its threads started together and joined at its end. A thread that
fills an array through a pointer returns what it writes there.
-/
import Mpsi.Apport.Check
import Mpsi.Apport.Receiver
import Mpsi.Gbf.Bloom
import Mpsi.Gbf.Collect
import Mpsi.Gbf.Online
import Mpsi.Gbf.Share
import Mpsi.Run.Env

namespace Mpsi

open Thread

variable {κ : Type}

/-! ## Keys -/

/-- The threads of the set-up, one pair for each other party. -/
inductive SetUp where
  | read (l : Link)
  | write (l : Link)
  deriving DecidableEq

/-- `secret_read` and `secret_read_p0`. -/
def secretRead : Proc κ Empty Unit Block := do
  let key ← getBlock
  pure key

/-- `secret_write` and `secret_write_p0`. -/
def secretWrite (key : Block) : Proc κ Empty Unit Unit := do
  putBlocks [key]
  pure ()

abbrev KeyResult : SetUp → Type
  | .read _ => Block
  | .write _ => Unit

/-- The streams of the set-up's threads. -/
def setUpPort (parties player : ℕ) : SetUp → Port Sock
  | .read l => ⟨none, if l ∈ links parties player then some l.sock.peer else none⟩
  | .write l => ⟨if l ∈ links parties player then some l.sock else none, none⟩

/-- The threads of `secret_sharing_seed_p0` and `secret_sharing_seed_pi`. -/
def keysStage (e : Env κ) (player : ℕ) : Stage (Wire κ) Empty Unit Fault Sock KeyResult where
  prog := fun
    | .read l => if l ∈ links e.parties player then secretRead else .ret (0 : Block)
    | .write l => if l ∈ links e.parties player then secretWrite (e.keys player l.slot) else .ret ()
  port := setUpPort e.parties player
  exec := fun d => d.elim
  init := ()

/-- An array of `parties - 1` elements filled by the threads of the links. -/
def fillArray {α : Type} (parties player : ℕ) (v : Link → α) (d : α) (slot : ℕ) : α :=
  match (links parties player).find? fun l => l.slot = slot with
  | some l => v l
  | none => d

/-! ## Seeds -/

/-- `seeds_pi_read` and `seeds_p0_read`. -/
def seedsRead : Proc κ Empty Block (κ × Block) := do
  let commit ← getCommit
  let seed ← getBlock
  pure (commit, seed)

/-- `seeds_pi_write` and `seeds_p0_write`. The seed is read from the variable all threads share. -/
def seedsWrite (commit : κ) : Proc κ Empty Block Unit := do
  putCommit commit
  let seed ← Prog.loadMem
  putBlocks [seed]
  pure ()

abbrev SeedResult (κ : Type) : SetUp → Type
  | .read _ => κ × Block
  | .write _ => Unit

/-- The threads of `seeds_agreement_p0` and `seeds_agreement_pi`, over the variable `seed` as
`set_seed_commit` leaves it. -/
def agreeStage (e : Env κ) (player : ℕ) : Stage (Wire κ) Empty Block Fault Sock (SeedResult κ) where
  prog := fun
    | .read l => if l ∈ links e.parties player then seedsRead else .ret (e.commit 0, (0 : Block))
    | .write l => if l ∈ links e.parties player then seedsWrite (e.commit (e.seed player)) else .ret ()
  port := setUpPort e.parties player
  exec := fun d => d.elim
  init := e.seed player

/-- The `flag` of the agreement: every commitment received is the one of the seed received with it. -/
def commitsOk [DecidableEq κ] (commit : Block → κ) (parties : ℕ) (recv : ℕ → κ × Block) : Bool :=
  (List.range (parties - 1)).all fun j => (recv j).1 = commit (recv j).2

/-- The variable `seed` after the seeds received were added to it. -/
def xorSeeds (parties : ℕ) (seed : Block) (recv : ℕ → κ × Block) : Block :=
  (List.range (parties - 1)).foldl (fun seed p => seed ^^^ (recv p).2) seed

/-! ## Offline phase -/

/-- The threads of the offline phase: the two of `run_offline_apport` for each instance, and
`secret_sharing_aes`. -/
inductive Offline where
  | receiver (slot : ℕ)
  | sender (slot : ℕ)
  | shares
  deriving DecidableEq

/-- What the offline phase leaves in an instance as the receiver of its OTs. -/
structure Receiver (Not : ℕ) where
  Nc_recv : ℤ
  seed_recv : Block
  sub_group : SubGroup Not
  cut : RrState
  zeros : List ℤ
  ones : List ℤ

/-- What it leaves in an instance as their sender. -/
structure Sender (Not : ℕ) where
  sub_group : SubGroup Not
  msg : RMessage

/-- `Party::check_if_to_abort`. -/
def checkIfToAbort (Nc_recv Not Nbf : ℤ) : Verdict :=
  if Nc_recv > Not - Nbf then ⟨1, "Nc>Not-Nbf: session has been stopped"⟩ else ⟨0, ""⟩

/-- `functions::offline_apport_receiver`, with `recv_C`, `compute_R_r`, `send_R_r` and `get_zeros_ones`. -/
def offlineApportReceiver (e : Env κ) (player slot : ℕ) : Proc κ Unit (ℕ → Block) (Receiver e.Not) := do
  let Nc_recv ← getInt
  Prog.lift (newArray Nc_recv)
  let seed_recv ← getBlock
  let sub_group ← Prog.lift (getSubGroup e.aes e.Not Nc_recv.toNat seed_recv)
  if (checkIfToAbort Nc_recv e.Not e.Nbf).code = 0 then do
    let cut ← Prog.lift (computeRr sub_group.elems (freshIndexes e.Not) (e.bits player slot) e.Not
      (e.choiceStrings player slot))
    putInts [(cut.R.length : ℤ)]
    putInts cut.R
    putBlocks [cut.r]
    let arr ← Prog.lift (getZerosOnes cut.b e.Not Nc_recv.toNat (e.rand player slot false) (e.rand player slot true))
    pure ⟨Nc_recv, seed_recv, sub_group, cut, arr.1, arr.2⟩
  else
    .fail (.exit "aborting")

/-- `functions::offline_apport_sender`, with `set_sub_group`, `send_sub_group`, `recv_R` and
`check_if_to_abort1`. -/
def offlineApportSender (e : Env κ) (player slot : ℕ) : Proc κ Unit (ℕ → Block) (Sender e.Not) := do
  let sub_group ← Prog.lift (getSubGroup e.aes e.Not e.Nc (e.seed_sub_group player slot))
  putInts [(e.Nc : ℤ)]
  putBlocks [e.seed_sub_group player slot]
  let Nr ← getInt
  Prog.lift (newArray Nr)
  let R ← getInts Nr.toNat
  let r ← getBlock
  let v ← Prog.lift (checkIfToAbort1 none e.Nc e.maxOnes (e.strings player slot) ⟨Nr, R.toList, r, R.2⟩)
  if v.code ≠ 0 then
    .fail (.exit "Aborting now")
  else
    pure ⟨sub_group, ⟨Nr, R.toList, r, R.2⟩⟩

abbrev OfflineResult (Not : ℕ) : Offline → Type
  | .receiver _ => Receiver Not
  | .sender _ => Sender Not
  | .shares => Unit

/-- What the threads that do not run leave. -/
def Receiver.none (Not : ℕ) : Receiver Not := ⟨0, 0, .empty, ⟨[], [], 0, []⟩, [], []⟩

def Sender.none (Not : ℕ) : Sender Not := ⟨.empty, ⟨0, [], 0, rfl⟩⟩

/-- The offline phase over the array of `synchGBF`. Two parties share no zeros. -/
def offlineStage (e : Env κ) (player : ℕ) (keys_recv : ℕ → Block) :
    Stage (Wire κ) Unit (ℕ → Block) Fault Sock (OfflineResult e.Not) where
  prog := fun
    | .receiver a => if a < slots e.parties player then offlineApportReceiver e player a else .ret (Receiver.none e.Not)
    | .sender a => if a < slots e.parties player then offlineApportSender e player a else .ret (Sender.none e.Not)
    | .shares => if 2 < e.parties then Prog.act () else .ret ()
  port := fun
    | .receiver a => if a < slots e.parties player then
        ⟨some (receiverSock e.parties player a), some (receiverSock e.parties player a).peer⟩ else ⟨none, none⟩
    | .sender a => if a < slots e.parties player then
        ⟨some (senderSock e.parties player a), some (senderSock e.parties player a).peer⟩ else ⟨none, none⟩
    | .shares => ⟨none, none⟩
  exec := fun _ r => .ok (secretSharingAes e.aes e.parties e.Nbf (e.keys player) keys_recv r)
  init := e.memory player

/-! ## Online phase -/

/-- `functions::online_apport_receiver` before its pushes: `arrange_the_indexes` and `send_func`. -/
def onlineApportReceiver {Not : ℕ} (BF : List Bool) (rcv : Receiver Not) : Proc κ Empty Unit (List ℤ) := do
  let func_recv ← Prog.lift (arrangeTheIndexes none BF rcv.zeros rcv.ones rcv.cut.indexes)
  putInts func_recv
  pure func_recv

/-- `functions::online_apport_sender` before its pushes: `recv_func`. -/
def onlineApportSender (Nbf : ℕ) : Proc κ Empty Unit (List ℤ) := do
  let func_sender ← getInts Nbf
  pure func_sender.toList

/-- The producers of the online phase up to their pushes. -/
def onlineStage (e : Env κ) (player : ℕ) (BF : List Bool) (receiver : ℕ → Receiver e.Not) :
    Stage (Wire κ) Empty Unit Fault Sock (fun _ : Source => List ℤ) where
  prog := fun
    | (a, .receiver) => if a < slots e.parties player then onlineApportReceiver BF (receiver a) else .ret []
    | (a, .sender) => if a < slots e.parties player then onlineApportSender e.Nbf else .ret []
  port := fun
    | (a, .receiver) => ⟨if a < slots e.parties player then some (receiverSock e.parties player a) else none, none⟩
    | (a, .sender) => ⟨none, if a < slots e.parties player then some (senderSock e.parties player a).peer else none⟩
  exec := fun d => d.elim
  init := ()

/-! ## Output -/

/-- The chunk size of `main`. -/
def chunkSize : ℕ := 256

/-- The threads of `compute_gbf`, over P0's GBF. -/
def collectStage (e : Env κ) (GBF : ℕ → Block) : Stage (Wire κ) ChunkXor (ℕ → Block) Fault Sock (fun _ : ℕ => Unit) where
  prog := fun a => if a < e.parties - 1 then getGbf chunkSize e.Nbf else .ret ()
  port := fun a => ⟨none, if a < e.parties - 1 then some (p0Receiver e.parties (a + 1)).peer else none⟩
  exec := ChunkXor.exec
  init := GBF

/-- `functions::check_the_item`. -/
def checkTheItem (h_kokhav : OrdSet ℕ) (GBF : ℕ → Block) : Block :=
  h_kokhav.elems.foldl (fun y j => y ^^^ GBF j) (toBlock 0 0)

/-- `functions::get_intersection`: the items it prints. -/
def getIntersection (items : List ℤ) (h_kokhav : ℕ → OrdSet ℕ) (GBF : ℕ → Block) : List ℤ :=
  (items.zipIdx.filter fun x => checkTheItem (h_kokhav x.2) GBF = toBlock 0 0).map Prod.fst

end Mpsi
