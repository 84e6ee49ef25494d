/-
What the shares of zero hide. Some of the parties may put all they know together: the honest parties' shares
remain as undetermined as their total allows. For AES may have other values at the keys that the honest parties
have generated for one of them, which nobody else knows; so masks that cancel can be put on their shares, and
nothing computed with any other key changes (`shares_hidden`).
-/
import Mpsi.Protocol.SetUp

namespace Mpsi

open Finset XorGroup

variable {κ : Type} {e : Env κ} {H : Finset ℕ} {h₀ : ℕ} {δ : ℕ → ℕ → Block}

/-! ## Another AES -/

/-- The same parties with another AES. -/
def Env.withAes (e : Env κ) (aes : Block → Block → Block) : Env κ := { e with aes := aes }

/-- AES with the mask `δ c p` for cell `c` at the key that `p` of `H` has generated for `h₀`. -/
def maskedAes (e : Env κ) (H : Finset ℕ) (h₀ : ℕ) (δ : ℕ → ℕ → Block) (key plaintext : Block) : Block :=
  e.aes key plaintext + ∑ p ∈ H.erase h₀,
    if key = e.keys p (place p h₀) then ∑ c ∈ range e.Nbf, if plaintext = toBlock 0 c then δ c p else 0 else 0

theorem low_toBlock {c : ℕ} (hc : c < 2 ^ 64) : (toBlock 0 c).low = c := by
  unfold toBlock Block.low
  rw [BitVec.toNat_append]
  simp
  omega

/-- The plaintexts of the cells differ. -/
theorem toBlock_inj {c c' : ℕ} (hc : c < 2 ^ 64) (hc' : c' < 2 ^ 64) : toBlock 0 c = toBlock 0 c' ↔ c = c' :=
  ⟨fun h => by rw [← low_toBlock hc, h, low_toBlock hc'], fun h => h ▸ rfl⟩

theorem maskedAes_of_ne {key : Block} (h : ∀ p ∈ H, p ≠ h₀ → key ≠ e.keys p (place p h₀)) : maskedAes e H h₀ δ key = e.aes key := by
  funext plaintext
  unfold maskedAes
  rw [sum_eq_zero, add_zero]
  intro p hp
  exact if_neg (h p (mem_of_mem_erase hp) (ne_of_mem_erase hp))

/-- The keys that the others of `H` have generated for `h₀` are no other keys. -/
def OwnKeys (e : Env κ) (H : Finset ℕ) (h₀ : ℕ) : Prop :=
  ∀ p ∈ H, p ≠ h₀ → ∀ a < e.parties, ∀ b < e.parties, a ≠ b → e.keys a (place a b) = e.keys p (place p h₀) → a = p ∧ b = h₀

/-- The mask is met at the key of its party. -/
theorem maskedAes_key (hN : e.Nbf ≤ 2 ^ 64) (hkeys : OwnKeys e H h₀) {a b c : ℕ} (ha : a < e.parties) (hb : b < e.parties)
    (hab : a ≠ b) (hc : c < e.Nbf) : maskedAes e H h₀ δ (e.keys a (place a b)) (toBlock 0 c) =
      e.aes (e.keys a (place a b)) (toBlock 0 c) + mask H h₀ (δ c) a b := by
  unfold maskedAes
  have hcell : ∀ p, (∑ c' ∈ range e.Nbf, if toBlock 0 c = toBlock 0 c' then δ c' p else 0) = δ c p := by
    intro p
    rw [sum_eq_single_of_mem c (mem_range.2 hc) fun c' hc' hne => ?_, if_pos rfl]
    have hc2 := mem_range.1 hc'
    exact if_neg fun h => hne ((toBlock_inj (by omega) (by omega)).1 h).symm
  congr 1
  have hp : ∀ p ∈ H.erase h₀, (if e.keys a (place a b) = e.keys p (place p h₀)
      then ∑ c' ∈ range e.Nbf, if toBlock 0 c = toBlock 0 c' then δ c' p else 0 else 0) =
      if p = a then (if b = h₀ then δ c a else 0) else 0 := by
    intro p hp
    rw [hcell]
    by_cases hk : p = a ∧ b = h₀
    · obtain ⟨rfl, rfl⟩ := hk
      simp
    · have hne : e.keys a (place a b) ≠ e.keys p (place p h₀) := by
        intro h
        obtain ⟨rfl, rfl⟩ := hkeys p (mem_of_mem_erase hp) (ne_of_mem_erase hp) a ha b hb hab h
        exact hk ⟨rfl, rfl⟩
      rw [if_neg hne]
      split_ifs with h1 h2
      · exact absurd ⟨h1, h2⟩ hk
      · rfl
      · rfl
  rw [sum_congr rfl hp, sum_ite_eq']
  unfold mask
  split_ifs <;> simp_all

/-! ## The shares of a run -/

variable [DecidableEq κ]

/-- The share of a party in a run of all, cell by cell. -/
theorem share_eq {s : State κ e.Not} (hn : 3 ≤ e.parties) (hs : HonestReaches e s) {p : ℕ} (hp : p < e.parties) {T : ℕ → Block}
    (hT : (s.proc p).share = some T) {c : ℕ} (hc : c < e.Nbf) : T c = ∑ q ∈ (range e.parties).erase p,
      (e.aes (e.keys p (place p q)) (toBlock 0 c) + e.aes (e.keys q (place q p)) (toBlock 0 c)) := by
  obtain ⟨kr, hkr, rfl⟩ := ((partyInv_of_reaches hs).inv p).share hn hT
  rw [secretSharingAes_eq hc]
  apply sum_places hp _ _
  intro q hq hne
  rw [keys_recv_eq hs hq hp hne hkr]

/-- Masks that cancel over honest parties `H` can be put on their shares by an AES with other values only at the
keys the others have generated for `h₀`, which is one of them. All other shares stay as they are. -/
theorem shares_hidden (hn : 3 ≤ e.parties) (hN : e.Nbf ≤ 2 ^ 64) (hH : H ⊆ range e.parties) (h₀H : h₀ ∈ H)
    (hkeys : OwnKeys e H h₀) (hδ : ∀ c < e.Nbf, ∑ p ∈ H, δ c p = 0) :
    ∃ aes : Block → Block → Block, (∀ key, (∀ p ∈ H, p ≠ h₀ → key ≠ e.keys p (place p h₀)) → aes key = e.aes key) ∧
      ∀ p < e.parties, ∀ (s : State κ e.Not) (s' : State κ (e.withAes aes).Not), HonestReaches e s →
        HonestReaches (e.withAes aes) s' → ∀ T T', (s.proc p).share = some T → (s'.proc p).share = some T' →
          ∀ c < e.Nbf, T' c = T c + if p ∈ H then δ c p else 0 := by
  refine ⟨maskedAes e H h₀ δ, fun key hkey => maskedAes_of_ne hkey, fun p hp s s' hs hs' T T' hT hT' c hc => ?_⟩
  rw [share_eq hn hs hp hT hc, share_eq (e := e.withAes (maskedAes e H h₀ δ)) hn hs' hp hT' hc, ← sum_mask hH h₀H (hδ c hc), ← sum_add_distrib]
  apply sum_congr rfl
  intro q hq
  have hq2 := mem_range.1 (mem_of_mem_erase hq)
  have hne := ne_of_mem_erase hq
  change maskedAes e H h₀ δ (e.keys p (place p q)) (toBlock 0 c) + maskedAes e H h₀ δ (e.keys q (place q p)) (toBlock 0 c) = _
  rw [maskedAes_key hN hkeys hp hq2 (Ne.symm hne) hc, maskedAes_key hN hkeys hq2 hp hne hc]
  abel

/-- Three parties with different keys. -/
def keyed : Env Block := { uniform 3 (fun _ => [0]) fun _ _ => 0 with keys := fun p a => toBlock p a }

/-- The shares of parties 1 and 2 can both be changed by one block. -/
theorem shares_hidden_three : ∃ aes : Block → Block → Block,
    (∀ key, (∀ p ∈ ({1, 2} : Finset ℕ), p ≠ 2 → key ≠ toBlock p (place p 2)) → aes key = keyed.aes key) ∧
      ∀ p < 3, ∀ (s : State Block keyed.Not) (s' : State Block (keyed.withAes aes).Not), HonestReaches keyed s →
        HonestReaches (keyed.withAes aes) s' → ∀ T T', (s.proc p).share = some T → (s'.proc p).share = some T' →
          ∀ c < 1, T' c = T c + if p ∈ ({1, 2} : Finset ℕ) then toBlock 0 1 else 0 := by
  have hkeys : OwnKeys keyed {1, 2} 2 := by
    intro p hp hne a ha b hb hab h
    have ha3 : a < 3 := ha
    have hb3 : b < 3 := hb
    obtain rfl : p = 1 := by simpa [hne] using hp
    change toBlock a (place a b) = toBlock 1 1 at h
    clear ha hb
    revert hab h
    interval_cases a <;> interval_cases b <;> decide
  exact shares_hidden (e := keyed) (H := {1, 2}) le_rfl (by decide) (by decide) (by decide) hkeys fun c _ => by decide

end Mpsi
