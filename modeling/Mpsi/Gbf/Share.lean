/-
The shares of zero: `secret_sharing_aes` fills a party's GBF with AES outputs under the keys it has
generated and under those it has received. When what each party has received is what the other one
generated for it, every key enters two shares (`shares_sum_zero`).
-/
import Mpsi.Data.Block
import Mpsi.Run.Sockets

namespace Mpsi

open Finset

/-- `functions::secret_sharing_aes`: the array `r` after it. -/
def secretSharingAes (aes : Block → Block → Block) (parties Nbf : ℕ) (keys keys_recv : ℕ → Block) (r : ℕ → Block) :
    ℕ → Block := fun i =>
  if i < Nbf then
    (List.range (parties - 1)).foldl
      (fun r p => r ^^^ aes (keys p) (toBlock 0 i) ^^^ aes (keys_recv p) (toBlock 0 i)) (toBlock 0 0)
  else r i

theorem foldl_add_two {f g : ℕ → Block} : ∀ (l : List ℕ) (b : Block),
    l.foldl (fun r p => r ^^^ f p ^^^ g p) b = b + (l.map fun p => f p + g p).sum
  | [], b => (add_zero b).symm
  | p :: l, b => by
    rw [List.foldl_cons, foldl_add_two l, List.map_cons, List.sum_cons, Block.xor_eq_add, Block.xor_eq_add]
    simp only [add_assoc]

/-- A share is the sum over the places of the two AES outputs. -/
theorem secretSharingAes_eq {aes : Block → Block → Block} {parties Nbf : ℕ} {keys keys_recv r : ℕ → Block} {i : ℕ}
    (hi : i < Nbf) : secretSharingAes aes parties Nbf keys keys_recv r i =
      ∑ p ∈ range (parties - 1), (aes (keys p) (toBlock 0 i) + aes (keys_recv p) (toBlock 0 i)) := by
  rw [secretSharingAes, if_pos hi, foldl_add_two, toBlock_zero, zero_add, ← List.sum_toFinset _ List.nodup_range,
    List.toFinset_range]

/-- What was in the array does not matter. -/
theorem secretSharingAes_congr {aes : Block → Block → Block} {parties Nbf : ℕ} {keys keys_recv r r' : ℕ → Block} {i : ℕ}
    (hi : i < Nbf) : secretSharingAes aes parties Nbf keys keys_recv r i =
      secretSharingAes aes parties Nbf keys keys_recv r' i := by
  rw [secretSharingAes_eq hi, secretSharingAes_eq hi]

/-- Filling the array again changes nothing. -/
theorem secretSharingAes_idem {aes : Block → Block → Block} {parties Nbf : ℕ} {keys keys_recv r : ℕ → Block} :
    secretSharingAes aes parties Nbf keys keys_recv (secretSharingAes aes parties Nbf keys keys_recv r) =
      secretSharingAes aes parties Nbf keys keys_recv r := by
  funext i
  by_cases hi : i < Nbf
  · exact secretSharingAes_congr hi
  · unfold secretSharingAes
    rw [if_neg hi]

/-- The shares of all parties add up to zero. -/
theorem shares_sum_zero {aes : Block → Block → Block} {n Nbf : ℕ} {keys keys_recv r : ℕ → ℕ → Block}
    (h : ∀ p q, p < n → q < n → p ≠ q → keys_recv q (place q p) = keys p (place p q)) {i : ℕ} (hi : i < Nbf) :
    ∑ p ∈ range n, secretSharingAes aes n Nbf (keys p) (keys_recv p) (r p) i = 0 := by
  have hp : ∀ p ∈ range n, secretSharingAes aes n Nbf (keys p) (keys_recv p) (r p) i =
      ∑ q ∈ (range n).erase p, (aes (keys p (place p q)) (toBlock 0 i) + aes (keys q (place q p)) (toBlock 0 i)) := by
    intro p hp
    rw [secretSharingAes_eq hi]
    apply sum_places (mem_range.1 hp) _ _
    intro q hq hne
    rw [h q p hq (mem_range.1 hp) hne]
  rw [sum_congr rfl hp]
  exact XorGroup.sum_pairs (range n) fun p q => aes (keys p (place p q)) (toBlock 0 i)

end Mpsi
