/-
Finite sets kept as ascending lists: insertion keeps the order and adds one member, and an
iteration over the set meets every member once.
-/
import Mathlib.Data.List.Sort
import Mathlib.Algebra.BigOperators.Group.Finset.Basic
import Mathlib.Tactic

/-- A finite set as the strictly ascending list of its members. -/
structure OrdSet (α : Type) [LinearOrder α] where
  elems : List α
  asc : elems.Pairwise (· < ·)

namespace OrdSet

variable {α : Type} [LinearOrder α]

instance : DecidableEq (OrdSet α) := fun s t =>
  decidable_of_iff (s.elems = t.elems) ⟨fun h => by cases s; cases t; cases h; rfl, fun h => by rw [h]⟩

/-- The set without members. -/
def empty : OrdSet α := ⟨[], .nil⟩

def size (s : OrdSet α) : ℕ := s.elems.length

theorem nodup (s : OrdSet α) : s.elems.Nodup := s.asc.imp ne_of_lt

theorem asc_orderedInsert {l : List α} (h : l.Pairwise (· < ·)) {a : α} (ha : a ∉ l) :
    (l.orderedInsert (· ≤ ·) a).Pairwise (· < ·) := by
  have hle : (l.orderedInsert (· ≤ ·) a).Pairwise (· ≤ ·) := (h.imp le_of_lt).orderedInsert a l
  have hnd : (l.orderedInsert (· ≤ ·) a).Nodup :=
    (List.perm_orderedInsert (· ≤ ·) a l).nodup_iff.2 (List.nodup_cons.2 ⟨ha, h.imp ne_of_lt⟩)
  exact (List.pairwise_and_iff.2 ⟨hle, hnd⟩).imp fun h => lt_of_le_of_ne h.1 h.2

/-- The set with one more member. -/
def insert (a : α) (s : OrdSet α) : OrdSet α :=
  if h : a ∈ s.elems then s else ⟨s.elems.orderedInsert (· ≤ ·) a, asc_orderedInsert s.asc h⟩

@[simp] theorem mem_empty {a : α} : a ∈ (empty : OrdSet α).elems ↔ False := by simp [empty]

@[simp] theorem mem_insert {a b : α} {s : OrdSet α} : b ∈ (insert a s).elems ↔ b = a ∨ b ∈ s.elems := by
  unfold insert
  split
  · rename_i h
    constructor
    · exact Or.inr
    · rintro (rfl | hb)
      · exact h
      · exact hb
  · exact List.mem_orderedInsert (· ≤ ·)

/-- Sets with the same members are the same. -/
theorem ext {s t : OrdSet α} (h : ∀ a, a ∈ s.elems ↔ a ∈ t.elems) : s = t := by
  have he : s.elems = t.elems :=
    (List.perm_of_nodup_nodup_toFinset_eq s.nodup t.nodup (by ext a; simp [h a])).eq_of_pairwise
      (fun _ _ _ _ h1 h2 => absurd h2 (lt_asymm h1)) s.asc t.asc
  cases s; cases t; cases he; rfl

/-- An iteration adds every member once. -/
theorem sum_elems {G : Type} [AddCommMonoid G] (s : OrdSet α) (f : α → G) :
    (s.elems.map f).sum = ∑ a ∈ s.elems.toFinset, f a :=
  (List.sum_toFinset f s.nodup).symm

end OrdSet
