import Transact.Execution.Basic
import Transact.Machine

/-!
The way of an execution. A transaction is accepted, executed, and run if there
is code to run; a bare message is dispatched and run. Every operation asks for a
certain stage and changes nothing in any other.
-/

namespace Transact.Execution

variable {β : Type} [Store β]

/-- Checks a transaction and counts it in the sender's nonce. -/
def accept (x : Execution) (t : Transaction) (w : World β) :
    Except Error Unit × Execution × World β :=
  match x.phase with
  | .created =>
    match x.machine.validate w.ledger t with
    | .ok a => (.ok (), { x with phase := .accepted a }, w.edit (·.bumpNonce a.sender))
    | .error r =>
      (.error (.rejected r.exception), { x with phase := .rejected r.exception .nothing },
        w.remarks r.remarks)
  | _ => (.error (.invalidStage .accept x.stage), x, w)

/-- Begins a message; answers whether it is done already. -/
def start (x : Execution) (a : Option Accepted) (terms : Terms) (message : Message)
    (w : World β) : Bool × Execution × World β :=
  match x.machine.begin x.depth terms message w with
  | (.done o, w) => (true, { x with phase := .executed a o }, w)
  | (.pending p, w) => (false, { x with phase := .awaiting a p }, w)

/-- Buys the gas and begins the transaction's message. -/
def execute (x : Execution) (w : World β) : Except Error Bool × Execution × World β :=
  match x.phase with
  | .accepted a =>
    match w.ledger.debit a.sender (a.price a.transaction.gasLimit) with
    | .error e => (.error (.rejected e), { x with phase := .rejected e a.commitment }, w)
    | .ok l =>
      let (done, x, w) :=
        x.start (some a) a.terms a.message ({ w with ledger := l }.event a.event)
      (.ok done, x, w)
  | _ => (.error (.invalidStage .execute x.stage), x, w)

/-- Begins a bare message. -/
def dispatch (x : Execution) (terms : Terms) (message : Message) (w : World β) :
    Except Error Bool × Execution × World β :=
  match x.phase with
  | .created =>
    let (done, x, w) := x.start none terms message w
    (.ok done, x, w)
  | _ =>
    (.error (.invalidStage (if message.isCreation then .create else .call) x.stage), x, w)

/-- Runs the pending code. -/
def run (x : Execution) (observer : Observer) (w : World β) :
    Except Error Unit × Execution × World β :=
  match x.phase with
  | .awaiting a p =>
    let (ending, ran) := x.machine.run observer x.depth p w
    let steps := if x.wanted = some true then (ran.diary.since w.diary.size).steps else []
    let x := { x with path := x.path ++ steps.map Step.onPath }
    match ending with
    | .closed o => (.ok (), { x with phase := .executed a o }, ran)
    | .uneven o => (.error .uneven, { x with phase := .stuck a o }, ran)
  | _ => (.error (.invalidStage .run x.stage), x, w)

/-- Hands the substate of a successful message to `parent`. -/
def handOver (x : Execution) (parent : Substate) :
    Except Error Unit × Execution × Substate :=
  match x.phase with
  | .executed a o =>
    match o.exception with
    | some e => (.error (.exceptedSubstate e), x, parent)
    | none =>
      (.ok (), { x with phase := .executed a { o with substate := ∅ } },
        parent.join o.substate)
  | _ => (.error (.invalidStage .handOver x.stage), x, parent)

end Transact.Execution
