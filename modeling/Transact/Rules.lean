/-!
The gas schedule and the protocol switches, fork by fork.
-/

namespace Transact

structure Rules where
  /-- Base cost of a transaction that calls. -/
  callGas : Nat
  /-- Base cost of a transaction that creates. -/
  createGas : Nat
  zeroByteGas : Nat
  nonzeroByteGas : Nat
  /-- Cost of each byte of deposited code. -/
  depositGas : Nat
  selfDestructRefund : Nat
  /-- At most one part in this many of the gas used is refunded. -/
  refundQuotient : Nat
  callDepthLimit : Nat
  /-- Whether code that cannot be paid for fails the creation. -/
  failedDepositIsExceptional : Bool
  /-- Whether a contract starts with nonce one. -/
  createdNonceIsOne : Bool
  /-- Largest deposited code; `none` is no limit. -/
  codeSizeLimit : Option Nat
  deriving DecidableEq, Repr

namespace Rules

def frontier : Rules where
  callGas := 21000
  createGas := 21000
  zeroByteGas := 4
  nonzeroByteGas := 68
  depositGas := 200
  selfDestructRefund := 24000
  refundQuotient := 2
  callDepthLimit := 1024
  failedDepositIsExceptional := false
  createdNonceIsOne := false
  codeSizeLimit := none

def homestead : Rules :=
  { frontier with createGas := 53000, failedDepositIsExceptional := true }

def spuriousDragon : Rules :=
  { homestead with createdNonceIsOne := true, codeSizeLimit := some 0x6000 }

def byzantium : Rules := spuriousDragon

def istanbul : Rules := { byzantium with nonzeroByteGas := 16 }

instance : Inhabited Rules := ⟨istanbul⟩

end Rules

end Transact
