import Transact.Frame
import Transact.Rules

/-!
What messages are carried out with, and messages that wait for their code to run.
-/

namespace Transact

/-- What the messages of one transaction are carried out with. -/
structure Machine where
  rules : Rules
  block : Block
  hashes : HashSource
  interpreter : Interpreter

/-- Hashes are looked up in the block unless there is another source. -/
def Machine.ofBlock (rules : Rules) (block : Block) (hashes : Option HashSource)
    (interpreter : Interpreter) : Machine :=
  ⟨rules, block, hashes.getD block.recentHashes.source, interpreter⟩

/-- A message that was admitted and waits for its code to run. -/
structure Pending where
  context : Context
  code : Bytes
  input : Bytes
  gas : Quantity
  isCreation : Bool
  deriving DecidableEq

def Pending.newAddress (p : Pending) : Option Address :=
  if p.isCreation then some p.context.address else none

end Transact
