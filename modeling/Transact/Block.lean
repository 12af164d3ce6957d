import Transact.Quantity

/-!
The block a transaction runs in, and the hashes of the blocks before it.
-/

namespace Transact

/-- Hash of the block `offset + 1` places back; offset zero is the parent. -/
abbrev HashSource := Nat → Word

/-- How many blocks back running code can see. -/
def hashWindow : Nat := 256

/-- Hashes of the most recent blocks, the parent first. -/
structure RecentHashes where
  hashes : List Word
  length_le : hashes.length ≤ hashWindow

namespace RecentHashes

def ofList (hashes : List Word) : RecentHashes :=
  ⟨hashes.take hashWindow, by rw [List.length_take]; exact Nat.min_le_left _ _⟩

def source (h : RecentHashes) : HashSource := fun offset => h.hashes.getD offset 0

instance : Inhabited RecentHashes := ⟨ofList []⟩

end RecentHashes

/-- The part of a block that running code can read. -/
structure Header where
  number : Quantity
  /-- Who receives the fees. -/
  author : Address
  timestamp : Quantity
  difficulty : Quantity
  gasLimit : Quantity
  deriving DecidableEq

structure Block extends Header where
  /-- Gas taken by the transactions before. -/
  gasUsed : Quantity
  recentHashes : RecentHashes

namespace Block

/-- How far back block `number` lies, if it is inside the window. -/
def offsetOf (b : Block) (number : Quantity) : Option Nat :=
  let distance := b.number.toNat - number.toNat
  if 0 < distance ∧ distance ≤ hashWindow then some (distance - 1) else none

def hashFrom (b : Block) (source : HashSource) (number : Quantity) : Word :=
  (b.offsetOf number).elim 0 source

def hash (b : Block) (number : Quantity) : Word := b.hashFrom b.recentHashes.source number

theorem offsetOf_lt {b : Block} {number : Quantity} {offset : Nat}
    (h : b.offsetOf number = some offset) : offset < hashWindow := by
  simp only [offsetOf] at h
  split at h
  · simp only [Option.some.injEq] at h
    omega
  · simp at h

end Block

end Transact
