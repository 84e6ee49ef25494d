/-
What a run of the protocol starts from: the parameters, the parties' items and the random values of
each party, and what lies outside the program (AES, the commitments, the random OTs).

The OT library hands the sender of an instance two strings for each position and the receiver the
one of its choice bit (`choiceStrings`).
-/
import Mpsi.Data.Fault
import Mpsi.Run.Sockets

namespace Mpsi

/-- The inputs of a run. Random values are given by the player, the place of the instance or of the
other party (`slot`), and their number. -/
structure Env (κ : Type) where
  parties : ℕ
  Nbf : ℕ
  Not : ℕ
  Nc : ℕ
  maxOnes : ℕ
  seeds_num : ℕ
  /-- AES of a key and a plaintext block. -/
  aes : Block → Block → Block
  /-- `Commit(seed)`. -/
  commit : Block → κ
  items : ℕ → List ℤ
  /-- The keys a player generates for the others (`secret_sharing_seed_p0`, `secret_sharing_seed_pi`). -/
  keys : ℕ → ℕ → Block
  /-- The player's seed (`set_seed_commit`). -/
  seed : ℕ → Block
  /-- The choice bits of an instance (`bitvector`). -/
  bits : ℕ → ℕ → List Bool
  bits_length : ∀ player slot, (bits player slot).length = Not
  /-- The strings of an instance as the sender of its OTs. -/
  strings : ℕ → ℕ → List (Block × Block)
  strings_length : ∀ player slot, (strings player slot).length = Not
  /-- The seed of the sub-group an instance opens (`seed_sub_group`). -/
  seed_sub_group : ℕ → ℕ → Block
  /-- The draws of the two shuffles of an instance, for the places of bit 0 and of bit 1. -/
  rand : ℕ → ℕ → Bool → ℕ → ℕ
  /-- The blocks a player draws in `re_randomization`. -/
  draws : ℕ → ℕ → Block
  /-- What the array of `synchGBF` holds before it is written. -/
  memory : ℕ → ℕ → Block

namespace Env

variable {κ : Type} (e : Env κ)

/-- The place at which the other party of an instance keeps its own instance of the pair. -/
def peerSlot (player : ℕ) : ℕ := if player = 0 then 0 else player - 1

/-- The strings the sender at the other end of an instance holds. -/
def peerStrings (player slot : ℕ) : List (Block × Block) := e.strings (instPeer player slot) (peerSlot player)

/-- `strings_choices[k] = strings[k][b[k]]`. -/
def choiceStrings (player slot : ℕ) : List Block :=
  List.zipWith (fun s b => if b then s.2 else s.1) (e.peerStrings player slot) (e.bits player slot)

theorem choiceStrings_length (player slot : ℕ) : (e.choiceStrings player slot).length = e.Not := by
  simp [choiceStrings, peerStrings, e.strings_length, e.bits_length]

end Env

end Mpsi
