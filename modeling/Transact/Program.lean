import Transact.Ledger.Operation
import Transact.Message

/-!
Running code as a tree of requests. A program asks for something and goes on
with the answer until it halts; it has no other way to the ledger. An
interpreter turns code into such a program.
-/

namespace Transact

/-- An instruction about to be performed. -/
structure Instruction where
  pc : Nat
  opcode : UInt8
  /-- Gas left before it. -/
  gas : Quantity
  gasCost : Quantity
  deriving DecidableEq

inductive Query
  | balance (a : Address)
  | code (a : Address)
  | present (a : Address)
  /-- Of the account whose code runs. -/
  | storage (i : Word)
  | blockHash (number : Quantity)
  deriving DecidableEq

abbrev Query.Answer : Query → Type
  | .balance _ => Quantity
  | .code _ => Bytes
  | .present _ => Bool
  | .storage _ => Word
  | .blockHash _ => Word

inductive Effect
  | setStorage (i v : Word)
  | log (topics : List Word) (data : Bytes)
  | refund (amount : Quantity)
  | selfDestruct (beneficiary : Address)
  deriving DecidableEq

/-- Something that running code has seen. -/
inductive Sighting
  | context (c : Context) (input : Bytes) (gas : Quantity)
  | header (h : Header)
  | answer (q : Query) (a : q.Answer)
  | called (o : CallReport)
  | created (o : CreationReport)
  | ledger (a : Ledger.Answer)

inductive Program
  | halt (h : Halt)
  | step (i : Instruction) (next : Program)
  | read (q : Query) (next : q.Answer → Program)
  | act (e : Effect) (next : Program)
  | call (c : Call) (next : CallReport → Program)
  | create (endowment gas : Quantity) (initCode : Bytes) (next : CreationReport → Program)
  /-- Leaves a note of `s`. -/
  | note (s : Sighting) (next : Program)
  /-- Goes to the ledger past the interface. -/
  | direct (op : Ledger.Operation) (next : Ledger.Answer → Program)

/-- Never goes past the interface. -/
def Program.Confined : Program → Prop
  | .halt _ => True
  | .step _ next | .act _ next | .note _ next => next.Confined
  | .read _ next => ∀ a, (next a).Confined
  | .call _ next => ∀ o, (next o).Confined
  | .create _ _ _ next => ∀ o, (next o).Confined
  | .direct _ _ => False

/-- What an interpreter is given to run. -/
structure Invocation where
  depth : Nat
  context : Context
  header : Header
  gas : Quantity
  code : Bytes
  input : Bytes
  deriving DecidableEq

abbrev Interpreter := Invocation → Program

def Interpreter.Confined (i : Interpreter) : Prop := ∀ v, (i v).Confined

end Transact
