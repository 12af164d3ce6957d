import Transact.Cost
import Transact.Machine.Admission
import Transact.Transaction

/-!
Which transactions may run.
-/

namespace Transact

/-- A transaction that may run. -/
structure Accepted where
  transaction : Transaction
  sender : Address
  commitment : Commitment
  /-- Gas left once the intrinsic cost is paid. -/
  gas : Quantity
  deriving DecidableEq

/-- Why a transaction may not run, and what the log says about it first. -/
structure Rejection where
  exception : Exception
  detail : Option Remark
  deriving DecidableEq

namespace Rejection

def plain (e : Exception) : Rejection := ⟨e, none⟩

def remarks (r : Rejection) : List Remark := r.detail.toList ++ [.rejected r.exception]

end Rejection

/-- The first condition that fails decides. -/
def Machine.validate {β : Type} [Store β] (m : Machine) (l : Ledger β) (t : Transaction) :
    Except Rejection Accepted := do
  let some sender := t.sender | throw (.plain .invalidSignature)
  let gas ← (payIntrinsic t.gasLimit (intrinsicGas m.rules t.isCreation t.data)).mapError .plain
  let nonce := l.nonce sender
  if nonce ≠ t.nonce then throw ⟨.invalidNonce, some (.invalidNonce nonce t.nonce)⟩
  if m.block.gasLimit.toNat < m.block.gasUsed.toNat + t.gasLimit.toNat then
    throw ⟨.blockGasLimitReached,
      some (.blockGasReached m.block.gasUsed m.block.gasLimit t.gasLimit)⟩
  let commitment := Commitment.ofAmounts t.gasLimit t.gasPrice t.value
  let commitment ← (commitment.fund (l.balance sender)).mapError .plain
  return ⟨t, sender, commitment, gas⟩

namespace Accepted

def terms (a : Accepted) : Terms := ⟨a.sender, a.transaction.gasPrice⟩

def message (a : Accepted) : Message :=
  let t := a.transaction
  match t.action with
  | .call recipient => .call ⟨a.sender, recipient, recipient, t.value, a.gas, t.data⟩
  | .create => .create ⟨a.sender, t.value, a.gas, t.data⟩

def event (a : Accepted) : Event :=
  let t := a.transaction
  match t.action with
  | .call recipient => .transactCall a.sender recipient t.value t.data t.gasLimit
  | .create =>
    .transactCreate a.sender t.value t.data t.gasLimit (contractAddress a.sender t.nonce)

/-- What `gas` costs at the price of the transaction. -/
def price (a : Accepted) (gas : Quantity) : Quantity := gas * a.transaction.gasPrice

def gasUsed (a : Accepted) (gasLeft : Quantity) : Quantity := a.transaction.gasLimit - gasLeft

end Accepted

end Transact
