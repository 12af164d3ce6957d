import Transact.Quantity

/-!
Transactions whose sender has already been recovered from the signature.
-/

namespace Transact

inductive Action
  | call (recipient : Address)
  | create
  deriving DecidableEq

structure Transaction where
  /-- `none` when the signature belongs to no one. -/
  sender : Option Address
  action : Action
  nonce : Quantity
  gasLimit : Quantity
  gasPrice : Quantity
  value : Quantity
  /-- Call data, or the init code of a creation. -/
  data : Bytes
  deriving DecidableEq

def Transaction.isCreation (t : Transaction) : Bool := t.action = .create

end Transact
