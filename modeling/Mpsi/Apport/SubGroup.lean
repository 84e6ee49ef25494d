/-
The sub-group a sender opens: `get_sub_group` draws words from AES under the sender's seed until it
has `Nc` different positions below `Not`.
-/
import Mpsi.Data.Fault
import Mpsi.Lib.OrdSet

namespace Mpsi

/-- A sub-group of the positions below `Not`, in the order in which `get_sub_group` stores it. -/
structure SubGroup (Not : ℕ) where
  set : OrdSet ℕ
  lt : ∀ t ∈ set.elems, t < Not

namespace SubGroup

variable {Not : ℕ}

/-- The array `sub_group`. -/
def elems (C : SubGroup Not) : List ℕ := C.set.elems

def size (C : SubGroup Not) : ℕ := C.elems.length

theorem nodup (C : SubGroup Not) : C.elems.Nodup := C.set.nodup

instance : DecidableEq (SubGroup Not) := fun C D =>
  decidable_of_iff (C.set = D.set) ⟨fun h => by cases C; cases D; cases h; rfl, fun h => by rw [h]⟩

def empty : SubGroup Not := ⟨.empty, by simp⟩

/-- A word of the stream modulo `Not` joins the set. -/
def insert (w : ℕ) (h : Not ≠ 0) (C : SubGroup Not) : SubGroup Not :=
  ⟨C.set.insert (w % Not), fun t ht => by
    rcases OrdSet.mem_insert.1 ht with rfl | ht
    · exact Nat.mod_lt _ (Nat.pos_of_ne_zero h)
    · exact C.lt t ht⟩

end SubGroup

/-- The number of AES blocks `get_sub_group` computes: `(int)((Nc/2)*1.1)`, and one more for an odd `Nc`. -/
def subGroupBlocks (Nc : ℕ) : ℕ := Nc / 2 * 11 / 10 + Nc % 2

/-- The words `get_sub_group` reads, two from each block, each cast to `unsigned int`. -/
def subGroupWords (aes : Block → Block → Block) (seed : Block) (Nc : ℕ) : List ℕ :=
  (List.range (subGroupBlocks Nc)).flatMap fun i =>
    let c := aes seed (toBlock 0 i)
    [c.low % 2 ^ 32, c.high % 2 ^ 32]

/-- The `while` of `get_sub_group`: words are inserted until the set has `Nc` members. Without a word
left the source reads behind its array. -/
def fillSubGroup {Not : ℕ} (Nc : ℕ) : List ℕ → SubGroup Not → Except Fault (SubGroup Not)
  | ws, C => if C.size = Nc then .ok C else match ws with
    | [] => .error .outOfRange
    | w :: ws => if h : Not = 0 then .error .divByZero else fillSubGroup Nc ws (C.insert w h)

/-- `functions::get_sub_group`. -/
def getSubGroup (aes : Block → Block → Block) (Not Nc : ℕ) (seed : Block) : Except Fault (SubGroup Not) :=
  fillSubGroup Nc (subGroupWords aes seed Nc) .empty

theorem fillSubGroup_size {Not Nc : ℕ} : ∀ {ws : List ℕ} {C D : SubGroup Not},
    fillSubGroup Nc ws C = .ok D → D.size = Nc
  | [], C, D, h => by
    simp only [fillSubGroup] at h
    split at h
    · cases h; assumption
    · cases h
  | w :: ws, C, D, h => by
    simp only [fillSubGroup] at h
    split at h
    · cases h; assumption
    · by_cases hN : Not = 0
      · rw [dif_pos hN] at h; cases h
      · rw [dif_neg hN] at h; exact fillSubGroup_size h

theorem getSubGroup_size {aes : Block → Block → Block} {Not Nc : ℕ} {seed : Block} {C : SubGroup Not}
    (h : getSubGroup aes Not Nc seed = .ok C) : C.size = Nc := fillSubGroup_size h

end Mpsi
