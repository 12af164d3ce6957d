import Transact.Program

/-!
Instructions as they are performed, and the execution path made of them.
-/

namespace Transact

/-- An instruction with the place where it is performed. -/
structure Step extends Instruction where
  depth : Nat
  /-- The account whose code runs. -/
  address : Address
  deriving DecidableEq

/-- A step as an execution path keeps it. -/
structure PathStep where
  depth : UInt32
  pc : UInt32
  opcode : UInt8
  gas : Quantity
  deriving DecidableEq

def Step.onPath (s : Step) : PathStep :=
  ⟨UInt32.ofNat s.depth, UInt32.ofNat s.pc, s.opcode, s.gas⟩

end Transact
