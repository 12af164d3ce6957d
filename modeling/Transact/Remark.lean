import Transact.Hex
import Transact.Step

/-!
The lines of the log.
-/

namespace Transact

/-- What is worth a line in the log. -/
inductive Remark
  | invalidNonce (expected got : Quantity)
  | blockGasReached (used limit requested : Quantity)
  | rejected (e : Exception)
  | endowmentKept (e : Exception)
  | tooDeep (depth : Nat)
  | callOpened (receiver : Address) (depth : Nat)
  | creationOpened (address : Address) (depth : Nat)
  | depositFailed (size : Nat) (gas : Quantity)
  | committed (depth : Nat)
  | excepted (depth : Nat) (e : Exception)
  | callAborted (depth : Nat)
  | creationAborted (depth : Nat)
  | finalized (gas refunded : Quantity) (e : Option Exception)
  | emptyDeleted (a : Address)
  | instruction (s : Step)
  deriving DecidableEq

namespace Remark

def level : Remark → String
  | callOpened .. | creationOpened .. | committed _ | emptyDeleted _ | instruction _ => "TRACE"
  | callAborted _ | creationAborted _ => "WARN"
  | _ => "DEBUG"

def target : Remark → String
  | instruction _ => "executive::vmtrace"
  | _ => "executive"

def message : Remark → String
  | invalidNonce expected got => s!"Invalid nonce: expected {expected}, got {got}"
  | blockGasReached used limit requested =>
    s!"Block gas limit reached: used {used}, limit {limit}, requested {requested}"
  | rejected e => s!"Transaction rejected: {e.name}"
  | endowmentKept e => s!"Endowment not transferred: {e.name}"
  | tooDeep depth => s!"Depth {depth} failed: {Exception.callDepthExceeded.name}"
  | callOpened receiver depth =>
    s!"Checkpoint opened for call to {Hex.ofBitVec receiver} at depth {depth}"
  | creationOpened address depth =>
    s!"Checkpoint opened for creation of {Hex.ofBitVec address} at depth {depth}"
  | depositFailed size gas => s!"Code deposit of {size} bytes failed with {gas} gas left"
  | committed depth => s!"Checkpoint committed at depth {depth}"
  | excepted depth e => s!"Execution at depth {depth} excepted: {e.name}"
  | callAborted depth => s!"Nested call at depth {depth} aborted: UnevenSubstate"
  | creationAborted depth => s!"Nested creation at depth {depth} aborted: UnevenSubstate"
  | finalized gas refunded none =>
    s!"Transaction finalized: gas left {gas}, refunded {refunded}, exception None"
  | finalized gas refunded (some e) =>
    s!"Transaction finalized: gas left {gas}, refunded {refunded}, exception Some({e.name})"
  | emptyDeleted a => s!"Deleting empty account {Hex.ofBitVec a}"
  | instruction s =>
    String.intercalate " "
      [Hex.padLeft 4 (toString s.depth), Hex.padLeft 6 (toString s.pc),
        Hex.ofNat 2 s.opcode.toNat, s!"gas {s.gas} cost {s.gasCost}", Hex.ofBitVec s.address]

def line (r : Remark) : String := s!"{r.level} {r.target} {r.message}"

end Remark

/-- What is said about a step when it is performed. -/
abbrev Observer := Step → List Remark

namespace Observer

def silent : Observer := fun _ => []

/-- One line for each instruction. -/
def narrating : Observer := fun s => [.instruction s]

end Observer

end Transact
