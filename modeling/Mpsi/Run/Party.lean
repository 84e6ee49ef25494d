/-
A party as `main` runs it: the phases one after the other, each with its threads, from the keys to
P0's output and the GBF each Pi sends. The network of all parties takes the steps of any thread of
any party in any order.
-/
import Mpsi.Gbf.Rerandomize
import Mpsi.Run.Threads

namespace Mpsi

open Thread Stream

/-! ## What the phases leave -/

/-- After the seeds agreement: `keys_recv`, the commitments and seeds received, the common seed and
whether the line "commit is not ok" was printed. -/
structure Agreed (κ : Type) where
  keys_recv : ℕ → Block
  recv : ℕ → κ × Block
  seed : Block
  ok : Bool

/-- After the offline phase: also the GBF and the instances. -/
structure Opened (κ : Type) (Not : ℕ) extends Agreed κ where
  GBF : ℕ → Block
  receiver : ℕ → Receiver Not
  sender : ℕ → Sender Not

/-- Once the Bloom filter is there. -/
structure Filtered (κ : Type) (Not : ℕ) extends Opened κ Not where
  BF : List Bool
  h_kokhav : ℕ → OrdSet ℕ

/-- After the online phase: also the functions, and the GBF with all strings added (`shared`). -/
structure Merged (κ : Type) (Not : ℕ) extends Filtered κ Not where
  func_recv : ℕ → List ℤ
  func_sender : ℕ → List ℤ
  shared : ℕ → Block

/-! ## The states of a party -/

/-- Where a party is in `main`. -/
inductive Party (κ : Type) (Not : ℕ) where
  | keys (P : Pool (Wire κ) Empty Unit Fault KeyResult)
  | agree (keys_recv : ℕ → Block) (P : Pool (Wire κ) Empty Block Fault (SeedResult κ))
  | offline (g : Agreed κ) (P : Pool (Wire κ) Unit (ℕ → Block) Fault (OfflineResult Not))
  | bloom (o : Opened κ Not) (P : Pool (Wire κ) BloomOp BloomMem Fault (fun _ : Fin 37 => Unit))
  | online (b : Filtered κ Not) (P : Pool (Wire κ) Empty Unit Fault (fun _ : Source => List ℤ)) (pipe : Pipe Source)
  | collect (m : Merged κ Not) (P : Pool (Wire κ) ChunkXor (ℕ → Block) Fault (fun _ : ℕ => Unit))
  | sending (m : Merged κ Not) (GBF1 : ℕ → Block)
  | done (m : Merged κ Not) (GBF : ℕ → Block) (out : List ℤ)
  | halted (f : Fault)
  | idle

section Party

variable {κ : Type} [DecidableEq κ] (e : Env κ) (player : ℕ)

/-- The end of the seeds agreement, where `seed` is the variable the threads have sent. -/
def agreedOf (keys_recv : ℕ → Block) (seed : Block) (v : ∀ a, SeedResult κ a) : Agreed κ :=
  let recv := fillArray e.parties player (fun l => v (.read l)) (e.commit 0, (0 : Block))
  ⟨keys_recv, recv, xorSeeds e.parties seed recv, commitsOk e.commit e.parties recv⟩

/-- The end of the offline phase. -/
def openedOf {Not : ℕ} (g : Agreed κ) (GBF : ℕ → Block) (v : ∀ a, OfflineResult Not a) : Opened κ Not :=
  { g with GBF := GBF, receiver := fun a => v (.receiver a), sender := fun a => v (.sender a) }

/-- The end of `create_BF_threads`. -/
def filteredOf {Not : ℕ} (o : Opened κ Not) (m : BloomMem) : Filtered κ Not :=
  { o with BF := (List.range e.Nbf).map m.bits, h_kokhav := m.h_kokhav }

/-- The function a producer has when it begins its pushes. -/
def returned : Prog (Wire κ) Empty Unit Fault (List ℤ) → List ℤ
  | .ret f => f
  | _ => []

/-- What the segments of the producers point to. -/
def onlineData (BF : List Bool) (P : Pool (Wire κ) Empty Unit Fault (fun _ : Source => List ℤ)) : Online where
  BF := BF
  strings_choices := e.choiceStrings player
  func_recv := fun a => returned (P.ts (a, .receiver))
  strings := e.strings player
  func_sender := fun a => returned (P.ts (a, .sender))

/-- The end of the online phase. -/
def mergedOf {Not : ℕ} (b : Filtered κ Not) (P : Pool (Wire κ) Empty Unit Fault (fun _ : Source => List ℤ))
    (GBF : ℕ → Block) : Merged κ Not :=
  { b with
    func_recv := fun a => returned (P.ts (a, .receiver))
    func_sender := fun a => returned (P.ts (a, .sender))
    shared := GBF }

/-! ## Steps -/

/-- A party's run can end with `f`: a thread ends it, or a consumer of `run_xoring` reads outside its
arrays. -/
def Party.Faults : Party κ e.Not → Fault → Prop
  | .keys P, f => (keysStage e player).Faults P f
  | .agree _ P, f => (agreeStage e player).Faults P f
  | .offline g P, f => (offlineStage e player g.keys_recv).Faults P f
  | .bloom o P, f => (bloomStage Sock e.aes o.seed e.Nbf e.seeds_num (e.items player)).Faults P f
  | .online b P pipe, f => (onlineStage e player b.BF b.receiver).Faults P f ∨
      ∃ i g j, (pipe.cons i).phase = .xoring g j ∧ j < g.stop ∧ contribution none (onlineData e player b.BF P) g.src j = .error f
  | .collect m P, f => (collectStage e m.shared).Faults P f
  | _, _ => False

/-- One step of a party: of one of its threads, or from one phase to the next. -/
inductive PStep : Party κ e.Not → Label Sock (Atom κ) → Party κ e.Not → Prop
  | keys {P P' l} : (keysStage e player).Step P l P' → PStep (.keys P) l (.keys P')
  | keysJoin {P v} : P.Joined v →
      PStep (.keys P) .tau (.agree (fillArray e.parties player (fun l => v (.read l)) 0) (agreeStage e player).start)
  | agree {kr P P' l} : (agreeStage e player).Step P l P' → PStep (.agree kr P) l (.agree kr P')
  | agreeJoin {kr P v} : P.Joined v →
      PStep (.agree kr P) .tau (.offline (agreedOf e player kr P.mem v) (offlineStage e player kr).start)
  | offline {g P P' l} : (offlineStage e player g.keys_recv).Step P l P' → PStep (.offline g P) l (.offline g P')
  | offlineJoin {g P v} : P.Joined v →
      PStep (.offline g P) .tau (.bloom (openedOf g P.mem v)
        (bloomStage Sock e.aes g.seed e.Nbf e.seeds_num (e.items player)).start)
  | bloom {o P P' l} : (bloomStage Sock e.aes o.seed e.Nbf e.seeds_num (e.items player)).Step P l P' →
      PStep (.bloom o P) l (.bloom o P')
  | bloomJoin {o P v} : P.Joined v →
      PStep (.bloom o P) .tau (.online (filteredOf e o P.mem)
        (onlineStage e player (filteredOf e o P.mem).BF o.receiver).start (Pipe.start o.GBF))
  | online {b P P' pipe l} : (onlineStage e player b.BF b.receiver).Step P l P' →
      PStep (.online b P pipe) l (.online b P' pipe)
  | begin {b P pipe src f} : src ∈ producers (slots e.parties player) → P.ts src = .ret f → pipe.pc src = 0 →
      PStep (.online b P pipe) .tau (.online b P (pipe.begin src))
  | pipe {b P pipe pipe'} :
      PipeStep e.Nbf (slots e.parties player * 2) (contribution none (onlineData e player b.BF P)) pipe pipe' →
      PStep (.online b P pipe) .tau (.online b P pipe')
  | onlineJoin₀ {b P pipe} : player = 0 → (∀ src ∈ producers (slots e.parties player), pipe.pc src = 9) →
      pipe.Done (slots e.parties player * 2) →
      PStep (.online b P pipe) .tau (.collect (mergedOf b P pipe.gbf) (collectStage e pipe.gbf).start)
  | onlineJoin {b P pipe} : player ≠ 0 → (∀ src ∈ producers (slots e.parties player), pipe.pc src = 9) →
      pipe.Done (slots e.parties player * 2) →
      PStep (.online b P pipe) .tau (.sending (mergedOf b P pipe.gbf)
        (reRandomization (e.draws player) b.h_kokhav (e.items player).length e.Nbf pipe.gbf).GBF)
  | collect {m P P' l} : (collectStage e m.shared).Step P l P' → PStep (.collect m P) l (.collect m P')
  | output {m P v} : P.Joined v →
      PStep (.collect m P) .tau (.done m P.mem (getIntersection (e.items player) m.h_kokhav P.mem))
  | comulativeGbfPi {m G} :
      PStep (.sending m G) (.send (senderSock e.parties player 0) (blks ((List.range e.Nbf).map G))) (.done m G [])
  | fault {p f} : p.Faults e player f → PStep p .tau (.halted f)

/-- The parties before their first step. -/
def Party.start (player : ℕ) : Party κ e.Not := if player < e.parties then .keys (keysStage e player).start else .idle

/-- The states of all parties together. -/
abbrev State (κ : Type) (Not : ℕ) := Net ℕ Sock (Atom κ) (Party κ Not)

/-- The states the parties can reach when all of them follow the program. -/
def HonestReaches : State κ e.Not → Prop := Reaches (PStep e) (Party.start e)

/-- The states of one party that follows the program, whatever the others send. -/
def PartyReaches : Alone Sock (Atom κ) (Party κ e.Not) → Prop := AloneReaches (PStep e player) (Party.start e player)

end Party

end Mpsi
