import Transact.Block
import Transact.Exception
import Transact.Substate

/-!
Messages between accounts, the context in which they make code run, and how they
end.
-/

namespace Transact

structure Context where
  /-- The account whose storage the code uses. -/
  address : Address
  caller : Address
  /-- Who sent the transaction. -/
  origin : Address
  value : Quantity
  gasPrice : Quantity
  deriving DecidableEq

/-- What every message of a transaction shares. -/
structure Terms where
  origin : Address
  gasPrice : Quantity
  deriving DecidableEq

def Context.terms (c : Context) : Terms := ⟨c.origin, c.gasPrice⟩

structure Call where
  /-- Who pays the value. -/
  sender : Address
  receiver : Address
  /-- Whose code runs, mostly the receiver's. -/
  codeAddress : Address
  value : Quantity
  gas : Quantity
  data : Bytes
  deriving DecidableEq

structure Creation where
  creator : Address
  endowment : Quantity
  gas : Quantity
  initCode : Bytes
  deriving DecidableEq

inductive Message
  | call (c : Call)
  | create (c : Creation)
  deriving DecidableEq

def Message.gas : Message → Quantity
  | .call c => c.gas
  | .create c => c.gas

/-- What became of the code that a creation returned. -/
inductive Deposit
  | none
  | failed (size : Nat) (gas : Quantity)
  | success (size : Nat) (gas : Quantity)
  deriving DecidableEq

namespace Deposit

def size : Deposit → Nat
  | .none => 0
  | .failed size _ | .success size _ => size

/-- Gas at hand when the code was to be paid for. -/
def gas : Deposit → Quantity
  | .none => 0
  | .failed _ gas | .success _ gas => gas

end Deposit

/-- What code reports when it stops. -/
structure Halt where
  gasLeft : Quantity
  output : Bytes
  exception : Option Exception
  deriving DecidableEq

structure Outcome where
  gas : Quantity
  output : Bytes
  exception : Option Exception
  newAddress : Option Address
  deposit : Deposit
  substate : Substate

/-- A call, as the code that made it sees it. -/
structure CallReport where
  success : Bool
  gasLeft : Quantity
  output : Bytes
  deriving DecidableEq

/-- A creation, as the code that made it sees it. -/
structure CreationReport where
  address : Option Address
  gasLeft : Quantity
  output : Bytes
  deriving DecidableEq

def CallReport.aborted : CallReport := ⟨false, 0, []⟩

def CreationReport.aborted : CreationReport := ⟨none, 0, []⟩

namespace Outcome

def ofCall (o : Outcome) : CallReport := ⟨o.exception.isNone, o.gas, o.output⟩

/-- The output of a successful creation is its code, which its creator does not
get. -/
def ofCreation (o : Outcome) : CreationReport :=
  ⟨o.newAddress, o.gas, if o.exception.isNone then [] else o.output⟩

/-- Nothing ran and all gas comes back. -/
def untouched (gas : Quantity) (newAddress : Option Address) : Outcome :=
  ⟨gas, [], none, newAddress, .none, ∅⟩

/-- Nothing ran because of `e`. -/
def refused (gas : Quantity) (e : Exception) : Outcome := ⟨gas, [], some e, none, .none, ∅⟩

end Outcome

/-- The substate of a message that succeeded joins its sender's. -/
def Substate.absorb (s : Substate) (o : Outcome) : Substate :=
  if o.exception.isNone then s.join o.substate else s

/-- How a message ended. -/
inductive Ending
  | closed (o : Outcome)
  /-- The code took away the checkpoint of the message. -/
  | uneven (o : Outcome)

end Transact
