/-
How the messages lie in memory: an `int` as four bytes and a block as sixteen, the lowest byte first, and a
commitment as `sizeof(Commit)` bytes.

A message of one kind has a size that depends on the number of its elements only (`length_bytes`), a full
buffer always holds a message (`exists_message`), and a count that fits an `int` is read as it was written
(`toInt_intBytes`).
-/
import Mpsi.Run.Wire
import Mathlib.Data.Nat.Digits.Lemmas

namespace Mpsi

open Thread

/-! ## Numbers -/

/-- The lowest `k` bytes of a number, the lowest first. -/
def numBytes (k n : ℕ) : List UInt8 := (List.range k).map fun j => UInt8.ofNat (n / 256 ^ j)

/-- The number whose bytes these are. -/
def ofBytes (bs : List UInt8) : ℕ := Nat.ofDigits 256 (bs.map UInt8.toNat)

@[simp] theorem length_numBytes (k n : ℕ) : (numBytes k n).length = k := by simp [numBytes]

theorem ofBytes_lt (bs : List UInt8) : ofBytes bs < 256 ^ bs.length := by
  have h : ∀ d ∈ bs.map UInt8.toNat, d < 256 := by
    intro d hd
    obtain ⟨b, _, rfl⟩ := List.mem_map.1 hd
    exact b.toNat_lt
  simpa [ofBytes] using Nat.ofDigits_lt_base_pow_length (by norm_num) h

theorem ofBytes_numBytes (k n : ℕ) : ofBytes (numBytes k n) = n % 256 ^ k := by
  induction k with
  | zero => simp [ofBytes, numBytes, Nat.mod_one]
  | succ k ih =>
    have hsplit : numBytes (k + 1) n = numBytes k n ++ [UInt8.ofNat (n / 256 ^ k)] := by
      simp [numBytes, List.range_succ]
    rw [hsplit, ofBytes, List.map_append, Nat.ofDigits_append, List.length_map, length_numBytes, Nat.mod_pow_succ, ← ih]
    simp [ofBytes]

theorem numBytes_ofBytes (bs : List UInt8) : numBytes bs.length (ofBytes bs) = bs := by
  induction bs with
  | nil => rfl
  | cons b bs ih =>
    have hcons : ofBytes (b :: bs) = b.toNat + 256 * ofBytes bs := by simp [ofBytes, Nat.ofDigits_cons]
    have hdiv : ∀ j, ofBytes (b :: bs) / 256 ^ (j + 1) = ofBytes bs / 256 ^ j := by
      intro j
      have hb := b.toNat_lt
      rw [pow_succ', ← Nat.div_div_eq_div_mul, hcons, Nat.add_mul_div_left _ _ (by norm_num), Nat.div_eq_of_lt hb, zero_add]
    unfold numBytes
    rw [List.length_cons, List.range_succ_eq_map, List.map_cons, List.map_map]
    congr 1
    · rw [hcons, pow_zero, Nat.div_one]
      apply UInt8.toNat_inj.1
      simp
    · conv_rhs => rw [← ih, numBytes]
      apply List.map_congr_left
      intro j _
      rw [Function.comp_apply, hdiv]

/-! ## Values -/

/-- The values of an `int`. -/
def IsInt (z : ℤ) : Prop := -2 ^ 31 ≤ z ∧ z < 2 ^ 31

def intBytes (z : ℤ) : List UInt8 := numBytes 4 (z % 2 ^ 32).toNat

/-- The `int` in a buffer. -/
def toInt (bs : List UInt8) : ℤ := if ofBytes bs < 2 ^ 31 then ofBytes bs else ofBytes bs - 2 ^ 32

theorem isInt_of_le {n m : ℕ} (hm : m < 2 ^ 31) (h : n ≤ m) : IsInt (n : ℤ) := ⟨by omega, by omega⟩

theorem toInt_intBytes {z : ℤ} (h : IsInt z) : toInt (intBytes z) = z := by
  obtain ⟨h1, h2⟩ := h
  have hn : ofBytes (intBytes z) = (z % 2 ^ 32).toNat := by
    unfold intBytes
    rw [ofBytes_numBytes, Nat.mod_eq_of_lt]
    omega
  unfold toInt
  rw [hn]
  split <;> omega

theorem isInt_toInt {bs : List UInt8} (h : bs.length = 4) : IsInt (toInt bs) := by
  have hlt := ofBytes_lt bs
  rw [h] at hlt
  unfold IsInt toInt
  split <;> constructor <;> omega

theorem intBytes_toInt {bs : List UInt8} (h : bs.length = 4) : intBytes (toInt bs) = bs := by
  have hlt := ofBytes_lt bs
  rw [h] at hlt
  have hmod : (toInt bs % 2 ^ 32).toNat = ofBytes bs := by
    unfold toInt
    split <;> omega
  unfold intBytes
  rw [hmod, ← h, numBytes_ofBytes]

def blockBytes (b : Block) : List UInt8 := numBytes 16 (BitVec.toNat b)

/-- The block in a buffer. -/
def bufBlock (bs : List UInt8) : Block := BitVec.ofNat 128 (ofBytes bs)

theorem blockBytes_bufBlock {bs : List UInt8} (h : bs.length = 16) : blockBytes (bufBlock bs) = bs := by
  have hlt : ofBytes bs < 2 ^ 128 := (ofBytes_lt bs).trans_eq (by rw [h]; norm_num)
  change numBytes 16 (BitVec.ofNat 128 (ofBytes bs)).toNat = bs
  rw [BitVec.toNat_ofNat, Nat.mod_eq_of_lt hlt, ← h, numBytes_ofBytes]

theorem bufBlock_blockBytes (b : Block) : bufBlock (blockBytes b) = b := by
  have hlt : BitVec.toNat b < 256 ^ 16 := BitVec.isLt b
  change BitVec.ofNat 128 (ofBytes (numBytes 16 (BitVec.toNat b))) = b
  rw [ofBytes_numBytes, Nat.mod_eq_of_lt hlt]
  exact (BitVec.ofNat_toNat 128 _).trans (BitVec.setWidth_eq _)

/-- `Commit` as it lies in memory. -/
structure Layout (κ : Type) where
  /-- `sizeof(Commit)`. -/
  size : ℕ
  com : κ ≃ List.Vector UInt8 size

/-! ## Messages -/

/-- The `int`s of a message are values of the type. -/
def Fits {κ : Type} (l : List (Atom κ)) : Prop := ∀ z : ℤ, (⟨.int, z⟩ : Atom κ) ∈ l → IsInt z

section Fits

variable {κ : Type}

@[simp] theorem fits_nil : Fits ([] : List (Atom κ)) := fun _ hz => absurd hz List.not_mem_nil

@[simp] theorem fits_append {l l' : List (Atom κ)} : Fits (l ++ l') ↔ Fits l ∧ Fits l' := by
  simp only [Fits, List.mem_append, or_imp, forall_and]

@[simp] theorem fits_ints {l : List ℤ} : Fits (ints l : List (Atom κ)) ↔ ∀ z ∈ l, IsInt z := by
  unfold Fits ints tag
  refine ⟨fun h z hz => h z (List.mem_map_of_mem hz), fun h z hz => ?_⟩
  obtain ⟨_, hy, he⟩ := List.mem_map.1 hz
  cases he
  exact h z hy

@[simp] theorem fits_blks (l : List Block) : Fits (blks l : List (Atom κ)) := fun z hz => by
  obtain ⟨y, hy, he⟩ := List.mem_map.1 hz
  cases he

@[simp] theorem fits_coms (l : List κ) : Fits (coms l : List (Atom κ)) := fun z hz => by
  obtain ⟨y, hy, he⟩ := List.mem_map.1 hz
  cases he

theorem Fits.mono {l l' : List (Atom κ)} (h : Fits l) (hl : l' <:+: l) : Fits l' := fun z hz => h z (hl.subset hz)

end Fits

namespace Layout

variable {κ : Type} (L : Layout κ)

/-- The size of an element. -/
def sizeOf : Kind → ℕ
  | .int => 4
  | .blk => 16
  | .com => L.size

def atom : Atom κ → List UInt8
  | ⟨.int, z⟩ => intBytes z
  | ⟨.blk, b⟩ => blockBytes b
  | ⟨.com, c⟩ => (L.com c).toList

/-- What the loops are given. -/
def bytes (l : List (Atom κ)) : List UInt8 := l.flatMap L.atom

@[simp] theorem bytes_nil : L.bytes [] = [] := rfl

@[simp] theorem bytes_cons (a : Atom κ) (l : List (Atom κ)) : L.bytes (a :: l) = L.atom a ++ L.bytes l := rfl

@[simp] theorem bytes_append (l l' : List (Atom κ)) : L.bytes (l ++ l') = L.bytes l ++ L.bytes l' := List.flatMap_append

theorem length_atom (a : Atom κ) : (L.atom a).length = L.sizeOf a.1 := by
  obtain ⟨t, x⟩ := a
  cases t with
  | int => exact length_numBytes _ _
  | blk => exact length_numBytes _ _
  | com => exact (L.com x).2

theorem length_bytes (t : Kind) (l : List (Wire κ t)) : (L.bytes (tag t l)).length = L.sizeOf t * l.length := by
  induction l with
  | nil => rfl
  | cons x l ih => rw [tag_cons, bytes_cons, List.length_append, length_atom, ih, List.length_cons, Nat.mul_succ, Nat.add_comm]

theorem length_ints (l : List ℤ) : (L.bytes (ints l)).length = 4 * l.length := L.length_bytes .int l

theorem length_blks (l : List Block) : (L.bytes (blks l)).length = 16 * l.length := L.length_bytes .blk l

theorem length_com (c : κ) : (L.bytes (coms [c])).length = L.size := (L.length_bytes .com [c]).trans (Nat.mul_one _)

theorem bytes_int (z : ℤ) : L.bytes (ints [z]) = intBytes z := List.append_nil _

/-- Every element's bytes are those of an element. -/
theorem exists_atom (t : Kind) {bs : List UInt8} (h : bs.length = L.sizeOf t) :
    ∃ x : Wire κ t, L.atom ⟨t, x⟩ = bs ∧ Fits [(⟨t, x⟩ : Atom κ)] := by
  cases t with
  | int =>
    refine ⟨toInt bs, intBytes_toInt h, fun z hz => ?_⟩
    cases List.mem_singleton.1 hz
    exact isInt_toInt h
  | blk =>
    refine ⟨bufBlock bs, blockBytes_bufBlock h, fun z hz => ?_⟩
    cases congrArg Sigma.fst (List.mem_singleton.1 hz)
  | com =>
    let v : List.Vector UInt8 L.size := ⟨bs, h⟩
    refine ⟨L.com.symm v, ?_, fun z hz => ?_⟩
    · change (L.com (L.com.symm v)).toList = bs
      rw [Equiv.apply_symm_apply]
      rfl
    · cases congrArg Sigma.fst (List.mem_singleton.1 hz)

/-- A read loop with a full buffer can return. -/
theorem exists_message (t : Kind) (n : ℕ) {bs : List UInt8} (h : bs.length = L.sizeOf t * n) :
    ∃ x : List.Vector (Wire κ t) n, L.bytes (tag t x.toList) = bs ∧ Fits (tag t x.toList) := by
  induction n generalizing bs with
  | zero => exact ⟨.nil, (List.eq_nil_of_length_eq_zero (by simpa using h)).symm, fun z hz => by simp at hz⟩
  | succ n ih =>
    rw [Nat.mul_succ] at h
    have hfirst : (bs.take (L.sizeOf t)).length = L.sizeOf t := by rw [List.length_take]; omega
    have hrest : (bs.drop (L.sizeOf t)).length = L.sizeOf t * n := by rw [List.length_drop]; omega
    obtain ⟨a, ha, hf⟩ := L.exists_atom t hfirst
    obtain ⟨x, hx, hfx⟩ := ih hrest
    refine ⟨a ::ᵥ x, ?_, fun z hz => ?_⟩
    · rw [List.Vector.toList_cons, tag_cons, bytes_cons, ha, hx, List.take_append_drop]
    · rw [List.Vector.toList_cons, tag_cons] at hz
      rcases List.mem_cons.1 hz with hz | hz
      · exact hf z (by rw [hz]; exact List.mem_singleton_self _)
      · exact hfx z hz

end Layout

end Mpsi
