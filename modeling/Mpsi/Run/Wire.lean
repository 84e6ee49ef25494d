/-
What the parties send: `int`s, blocks and commitments, and the reads and writes of a thread with their
types.
-/
import Mpsi.Data.Fault
import Mpsi.Lib.Pool

namespace Mpsi

open Thread

/-- The kinds of data on a connection. -/
inductive Kind where
  | int
  | blk
  | com
  deriving DecidableEq

/-- The values of a kind, `κ` being those of `Commit`. -/
def Wire (κ : Type) : Kind → Type
  | .int => ℤ
  | .blk => Block
  | .com => κ

/-- An element of what is sent. -/
abbrev Atom (κ : Type) := Msg (Wire κ)

variable {κ δ σ α : Type}

def ints (l : List ℤ) : List (Atom κ) := tag (T := Wire κ) Kind.int l

def blks (l : List Block) : List (Atom κ) := tag (T := Wire κ) Kind.blk l

def coms (l : List κ) : List (Atom κ) := tag (T := Wire κ) Kind.com l

@[simp] theorem ints_inj {l l' : List ℤ} : (ints l : List (Atom κ)) = ints l' ↔ l = l' := tag_inj
@[simp] theorem blks_inj {l l' : List Block} : (blks l : List (Atom κ)) = blks l' ↔ l = l' := tag_inj
@[simp] theorem coms_inj {l l' : List κ} : coms l = coms l' ↔ l = l' := tag_inj
@[simp] theorem length_ints (l : List ℤ) : (ints l : List (Atom κ)).length = l.length := length_tag _ _
@[simp] theorem length_blks (l : List Block) : (blks l : List (Atom κ)).length = l.length := length_tag _ _
@[simp] theorem length_coms (l : List κ) : (coms l).length = l.length := length_tag _ _

theorem blks_append (l l' : List Block) : (blks (l ++ l') : List (Atom κ)) = blks l ++ blks l' := List.map_append

/-- A thread of the program. -/
abbrev Proc (κ δ σ α : Type) := Prog (Wire κ) δ σ Fault α

def getInt : Proc κ δ σ ℤ := Prog.getOne (T := Wire κ) Kind.int

def getBlock : Proc κ δ σ Block := Prog.getOne (T := Wire κ) Kind.blk

def getCommit : Proc κ δ σ κ := Prog.getOne (T := Wire κ) Kind.com

def getInts (n : ℕ) : Proc κ δ σ (List.Vector ℤ n) := Prog.getList (T := Wire κ) Kind.int n

def getBlocks (n : ℕ) : Proc κ δ σ (List.Vector Block n) := Prog.getList (T := Wire κ) Kind.blk n

def putInts (l : List ℤ) : Proc κ δ σ Unit := Prog.putList (T := Wire κ) Kind.int l

def putBlocks (l : List Block) : Proc κ δ σ Unit := Prog.putList (T := Wire κ) Kind.blk l

def putCommit (c : κ) : Proc κ δ σ Unit := Prog.putList (T := Wire κ) Kind.com [c]

section Ends

variable {es : List (Event (Wire κ) δ σ)} {v : α}

theorem ends_getInt {f : ℤ → Proc κ δ σ α} :
    Ends (getInt >>= f) es v ↔ ∃ i es', es = .inp (ints [i]) :: es' ∧ Ends (f i) es' v := ends_getOne_bind (T := Wire κ) (t := Kind.int)

theorem ends_getBlock {f : Block → Proc κ δ σ α} :
    Ends (getBlock >>= f) es v ↔ ∃ b es', es = .inp (blks [b]) :: es' ∧ Ends (f b) es' v := ends_getOne_bind (T := Wire κ) (t := Kind.blk)

theorem ends_getCommit {f : κ → Proc κ δ σ α} :
    Ends (getCommit >>= f) es v ↔ ∃ c es', es = .inp (coms [c]) :: es' ∧ Ends (f c) es' v := ends_getOne_bind (T := Wire κ) (t := Kind.com)

theorem ends_getInts {n : ℕ} {f : List.Vector ℤ n → Proc κ δ σ α} : Ends (getInts n >>= f) es v ↔
    ∃ (x : List.Vector ℤ n) (es' : _), es = .inp (ints x.toList) :: es' ∧ Ends (f x) es' v := ends_getList_bind (T := Wire κ) (t := Kind.int)

theorem ends_getBlocks {n : ℕ} {f : List.Vector Block n → Proc κ δ σ α} : Ends (getBlocks n >>= f) es v ↔
    ∃ (x : List.Vector Block n) (es' : _), es = .inp (blks x.toList) :: es' ∧ Ends (f x) es' v := ends_getList_bind (T := Wire κ) (t := Kind.blk)

theorem ends_putInts {l : List ℤ} {f : Unit → Proc κ δ σ α} :
    Ends (putInts l >>= f) es v ↔ ∃ es', es = .out (ints l) :: es' ∧ Ends (f ()) es' v := ends_putList_bind (T := Wire κ) (t := Kind.int)

theorem ends_putBlocks {l : List Block} {f : Unit → Proc κ δ σ α} :
    Ends (putBlocks l >>= f) es v ↔ ∃ es', es = .out (blks l) :: es' ∧ Ends (f ()) es' v := ends_putList_bind (T := Wire κ) (t := Kind.blk)

theorem ends_putCommit {c : κ} {f : Unit → Proc κ δ σ α} :
    Ends (putCommit c >>= f) es v ↔ ∃ es', es = .out (coms [c]) :: es' ∧ Ends (f ()) es' v := ends_putList_bind (T := Wire κ) (t := Kind.com)

end Ends

end Mpsi
