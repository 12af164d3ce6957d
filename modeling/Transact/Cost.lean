import Transact.Exception
import Transact.Quantity
import Transact.Rules

/-!
What a transaction costs, in exact natural numbers. Executors add the intrinsic gas in
64 bits; while the sum is below `2 ^ 64` it is the same as here (`intrinsicGasExact_eq`).
-/

namespace Transact

/-- Gas charged before the first instruction runs. -/
def intrinsicGas (r : Rules) (creation : Bool) (data : Bytes) : Nat :=
  (if creation then r.createGas else r.callGas) +
    data.count 0 * r.zeroByteGas + data.countP (· ≠ 0) * r.nonzeroByteGas

/-- The gas left once the intrinsic cost is paid. -/
def payIntrinsic (gasLimit : Quantity) (intrinsic : Nat) : Except Exception Quantity :=
  if gasLimit.toNat < intrinsic then .error .outOfGasIntrinsic
  else .ok (gasLimit - .ofNat intrinsic)

/-- What a sender commits to with a transaction. -/
structure Commitment where
  gas : Nat
  /-- The price of that gas. -/
  fee : Nat
  /-- The fee and the value. -/
  total : Nat
  deriving DecidableEq, Repr

namespace Commitment

def nothing : Commitment := ⟨0, 0, 0⟩

def ofAmounts (gasLimit gasPrice value : Quantity) : Commitment :=
  let fee := gasLimit.toNat * gasPrice.toNat
  ⟨gasLimit.toNat, fee, fee + value.toNat⟩

/-- Refuses what `balance` does not cover. -/
def fund (c : Commitment) (balance : Quantity) : Except Exception Commitment :=
  if balance.toNat < c.total then .error .notEnoughCash else .ok c

end Commitment

/-- What the sender commits to, and the gas left once the intrinsic cost is paid.
The gas limit is checked before the balance. -/
def commit (balance gasLimit gasPrice value : Quantity) (intrinsic : Nat) :
    Except Exception (Commitment × Quantity) := do
  let gas ← payIntrinsic gasLimit intrinsic
  let commitment ← (Commitment.ofAmounts gasLimit gasPrice value).fund balance
  return (commitment, gas)

/-- Gas to store `size` bytes of code. -/
def depositCost (r : Rules) (size : Nat) : Nat := size * r.depositGas

/-- The part of the refund counter that is paid out. -/
def refundPaid (r : Rules) (gasUsed refunds : Quantity) : Except Fault Quantity :=
  (gasUsed.divExact r.refundQuotient).map (min refunds)

end Transact
