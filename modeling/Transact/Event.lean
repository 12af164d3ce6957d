import Transact.Message

/-!
What a listener is told: transactions, messages, self-destructions, and the end
of each run of code.
-/

namespace Transact

inductive Event
  | transactCall (caller address : Address) (value : Quantity) (data : Bytes)
      (gasLimit : Quantity)
  | transactCreate (caller : Address) (value : Quantity) (initCode : Bytes)
      (gasLimit : Quantity) (address : Address)
  | call (codeAddress : Address) (context : Context) (input : Bytes) (gas : Quantity)
      (depth : Nat)
  | create (caller address : Address) (value : Quantity) (initCode : Bytes) (gas : Quantity)
      (depth : Nat)
  | selfDestruct (address beneficiary : Address) (balance : Quantity)
  | exit (depth : Nat) (exception : Option Exception) (gasLeft : Quantity) (output : Bytes)
  deriving DecidableEq

end Transact
