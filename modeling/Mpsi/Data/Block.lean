/-
The 128-bit blocks of the protocol. The operator `^` of the source is `^^^` here; for the sums of
the proofs a block is an element of the group whose addition is exclusive or.
-/
import Mpsi.Lib.XorGroup
import Mathlib.Data.BitVec

namespace Mpsi

/-- `osuCrypto::block`. -/
def Block : Type := BitVec 128

namespace Block

instance : DecidableEq Block := inferInstanceAs (DecidableEq (BitVec 128))
instance : Inhabited Block := ⟨0#128⟩
instance : XorOp Block := ⟨BitVec.xor⟩
instance : Zero Block := ⟨0#128⟩
instance : Add Block := ⟨BitVec.xor⟩
instance : Neg Block := ⟨id⟩

instance : AddCommGroup Block where
  add_assoc := BitVec.xor_assoc
  zero_add _ := BitVec.zero_xor
  add_zero _ := BitVec.xor_zero
  neg_add_cancel _ := BitVec.xor_self
  add_comm := BitVec.xor_comm
  nsmul := nsmulRec
  zsmul := zsmulRec

theorem add_self_zero (a : Block) : a + a = 0 := BitVec.xor_self

instance : Module (ZMod 2) Block := AddCommGroup.zmodModule fun a => by rw [two_nsmul, add_self_zero]

@[simp] theorem xor_eq_add (a b : Block) : a ^^^ b = a + b := rfl

/-- `b.as<std::uint64_t>()[0]`. -/
def low (b : Block) : ℕ := (BitVec.toNat b) % 2 ^ 64

/-- `b.as<std::uint64_t>()[1]`. -/
def high (b : Block) : ℕ := (BitVec.toNat b) / 2 ^ 64

end Block

/-- `toBlock(x1, x2)`: the two arguments as `uint64_t`, the first in the upper half. -/
def toBlock (x1 x2 : ℤ) : Block := (BitVec.ofInt 64 x1 ++ BitVec.ofInt 64 x2 : BitVec (64 + 64))

@[simp] theorem toBlock_zero : toBlock 0 0 = 0 := rfl

end Mpsi
