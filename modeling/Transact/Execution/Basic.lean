import Transact.Acceptance

/-!
One transaction, or one bare message, on its way: how far it has come and what
it shows of itself.
-/

namespace Transact

inductive Stage
  | created
  | accepted
  | awaitingInterpreter
  | executed
  | finalized
  | rejected
  deriving DecidableEq

namespace Stage

def name : Stage → String
  | created => "Created"
  | accepted => "Initialized"
  | awaitingInterpreter => "AwaitingInterpreter"
  | executed => "Executed"
  | finalized => "Finalized"
  | rejected => "Rejected"

end Stage

/-- How far an execution has come, with what it holds there. Without an accepted
transaction it is a bare message. -/
inductive Phase
  | created
  | accepted (a : Accepted)
  | awaiting (a : Option Accepted) (p : Pending)
  /-- The code ran, but its checkpoint could not be closed. -/
  | stuck (a : Option Accepted) (o : Outcome)
  | executed (a : Option Accepted) (o : Outcome)
  | finalized (a : Accepted) (o : Outcome) (logs : List LogEntry)
  | rejected (e : Exception) (commitment : Commitment)

/-- The summary of a finalized transaction. -/
structure Summary where
  gasUsed : Quantity
  newAddress : Option Address
  exception : Option Exception
  output : Bytes
  deposit : Deposit
  gasRefunded : Quantity
  /-- The instructions performed; empty unless asked for. -/
  path : List PathStep

structure Execution where
  machine : Machine
  depth : Nat
  phase : Phase
  /-- Whether a summary is asked for, and whether with the path. -/
  wanted : Option Bool
  path : List PathStep
  summary : Option Summary

namespace Execution

inductive Operation
  | accept
  | execute
  | call
  | create
  | run
  | finalize
  | handOver
  | gasUsed
  deriving DecidableEq

def Operation.name : Operation → String
  | accept => "initialize"
  | execute => "execute"
  | call => "call"
  | create => "create"
  | run => "go"
  | finalize => "finalize"
  | handOver => "accrue_sub_state"
  | gasUsed => "gas_used"

inductive Error
  | rejected (e : Exception)
  | invalidStage (op : Operation) (s : Stage)
  | exceptedSubstate (e : Exception)
  | uneven
  deriving DecidableEq

def new (m : Machine) (depth : Nat) : Execution := ⟨m, depth, .created, none, [], none⟩

/-! What an execution shows of itself. -/

section View

variable (x : Execution)

def stage : Stage :=
  match x.phase with
  | .created => .created
  | .accepted _ => .accepted
  | .awaiting .. | .stuck .. => .awaitingInterpreter
  | .executed .. => .executed
  | .finalized .. => .finalized
  | .rejected .. => .rejected

/-- The outcome so far. -/
def outcome : Outcome :=
  match x.phase with
  | .created | .accepted _ => .untouched 0 none
  | .awaiting _ p => .untouched p.gas p.newAddress
  | .stuck _ o | .executed _ o | .finalized _ o _ => o
  | .rejected e _ => .refused 0 e

def accepted : Option Accepted :=
  match x.phase with
  | .created | .rejected .. => none
  | .accepted a | .finalized a .. => some a
  | .awaiting a _ | .stuck a _ | .executed a _ => a

def commitment : Commitment :=
  match x.phase with
  | .rejected _ commitment => commitment
  | _ => x.accepted.elim .nothing Accepted.commitment

def logs : List LogEntry :=
  match x.phase with
  | .finalized _ _ logs => logs
  | _ => []

def gasUsed : Except Error Quantity :=
  match x.phase with
  | .finalized a o _ => .ok (a.gasUsed o.gas)
  | _ => .error (.invalidStage .gasUsed x.stage)

end View

end Execution

end Transact
