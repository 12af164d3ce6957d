import Std.Data.ExtTreeSet
import Transact.Quantity

/-!
Side effects that wait for the end of the transaction. A message hands them to
the one that sent it only if it succeeds.
-/

namespace Transact

structure LogEntry where
  address : Address
  topics : List Word
  data : Bytes
  deriving DecidableEq

structure Substate where
  /-- Accounts to delete. -/
  condemned : Std.ExtTreeSet Address
  /-- In the order of emission. -/
  logs : List LogEntry
  refunds : Quantity

namespace Substate

instance : EmptyCollection Substate := ⟨⟨∅, [], 0⟩⟩
instance : Inhabited Substate := ⟨∅⟩

def join (s t : Substate) : Substate :=
  ⟨s.condemned ∪ t.condemned, s.logs ++ t.logs, s.refunds + t.refunds⟩

def log (s : Substate) (entry : LogEntry) : Substate := { s with logs := s.logs ++ [entry] }

def refund (s : Substate) (amount : Quantity) : Substate :=
  { s with refunds := s.refunds + amount }

def condemn (s : Substate) (a : Address) : Substate :=
  { s with condemned := s.condemned.insert a }

end Substate

end Transact
