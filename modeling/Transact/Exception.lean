/-!
Why a transaction or a message failed. Success is the absence of an exception.
-/

namespace Transact

inductive Exception
  | invalidSignature
  | invalidNonce
  | notEnoughCash
  | blockGasLimitReached
  | outOfGasIntrinsic
  | outOfGasBase
  | outOfGas
  | badInstruction
  | badJumpDestination
  | stackUnderflow
  | stackOverflow
  | revertInstruction
  | invalidAddress
  | callDepthExceeded
  | unknown
  deriving DecidableEq, Repr

namespace Exception

def all : List Exception :=
  [invalidSignature, invalidNonce, notEnoughCash, blockGasLimitReached, outOfGasIntrinsic,
    outOfGasBase, outOfGas, badInstruction, badJumpDestination, stackUnderflow, stackOverflow,
    revertInstruction, invalidAddress, callDepthExceeded, unknown]

theorem mem_all (e : Exception) : e ∈ all := by cases e <;> decide

def name : Exception → String
  | invalidSignature => "InvalidSignature"
  | invalidNonce => "InvalidNonce"
  | notEnoughCash => "NotEnoughCash"
  | blockGasLimitReached => "BlockGasLimitReached"
  | outOfGasIntrinsic => "OutOfGasIntrinsic"
  | outOfGasBase => "OutOfGasBase"
  | outOfGas => "OutOfGas"
  | badInstruction => "BadInstruction"
  | badJumpDestination => "BadJumpDestination"
  | stackUnderflow => "StackUnderflow"
  | stackOverflow => "StackOverflow"
  | revertInstruction => "RevertInstruction"
  | invalidAddress => "InvalidAddress"
  | callDepthExceeded => "CallDepthExceeded"
  | unknown => "Unknown"

def ofName? (s : String) : Option Exception := all.find? fun e => e.name == s

/-- Refused before anything is charged. -/
def beforeExecution : Exception → Bool
  | invalidSignature | invalidNonce | notEnoughCash | blockGasLimitReached
  | outOfGasIntrinsic => true
  | _ => false

/-- Raised while code was running. -/
def duringExecution (e : Exception) : Bool := !e.beforeExecution && e != callDepthExceeded

def isRevert (e : Exception) : Bool := e == revertInstruction

/-- Whether the gas handed to the failed message is lost. -/
def forfeitsGas (e : Exception) : Bool := !e.isRevert

end Exception

end Transact
