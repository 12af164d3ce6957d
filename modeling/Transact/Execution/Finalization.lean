import Transact.Execution.Lifecycle

/-!
The end of a transaction: the refund, the fees, the condemned accounts, the logs
and the summary.
-/

namespace Transact.Execution

variable {β : Type} [Store β]

/-- Pays a successful transaction its refund; answers how much that was. -/
def refund (r : Rules) (a : Accepted) (o : Outcome) : Except Fault (Outcome × Quantity) :=
  match o.exception with
  | some _ => .ok (o, 0)
  | none => do
    let forCondemned := .ofNat r.selfDestructRefund * .ofNat o.substate.condemned.size
    let substate := o.substate.refund forCondemned
    let refunded ← refundPaid r (a.gasUsed o.gas) substate.refunds
    let gas ← o.gas.addExact refunded
    return ({ o with gas, substate }, refunded)

/-- The sender gets the price of the gas left, the author that of the gas used. -/
def payFees (m : Machine) (a : Accepted) (gasLeft : Quantity) (l : Ledger β) : Ledger β :=
  (l.credit a.sender (a.price gasLeft)).credit m.block.author (a.price (a.gasUsed gasLeft))

def summarize (x : Execution) (a : Accepted) (o : Outcome) (refunded : Quantity)
    (withPath : Bool) : Summary where
  gasUsed := a.gasUsed o.gas
  newAddress := o.newAddress
  exception := o.exception
  output := o.output
  deposit := o.deposit
  gasRefunded := refunded
  path := if withPath then x.path else []

/-- Settles the fees of a refunded transaction. If it succeeded, the condemned
accounts go and the logs are published. -/
def conclude (x : Execution) (a : Accepted) (o : Outcome) (refunded : Quantity) (w : World β) :
    Execution × World β :=
  let summary := x.wanted.map (x.summarize a o refunded)
  let w := w.edit (payFees x.machine a o.gas)
  let (phase, w) : Phase × World β := match o.exception with
    | some _ => (.finalized a o [], w)
    | none =>
      (.finalized a { o with substate := { o.substate with logs := [] } } o.substate.logs,
        w.edit (o.substate.condemned.foldl .delete))
  ({ x with phase, summary }, w.remark (.finalized o.gas refunded o.exception))

/-- Only a transaction can be finalized. -/
def finalize (x : Execution) (w : World β) :
    Except Fault (Except Error Unit × Execution × World β) :=
  match x.phase with
  | .executed (some a) o => do
    let (o, refunded) ← refund x.machine.rules a o
    return (.ok (), x.conclude a o refunded w)
  | _ => return (.error (.invalidStage .finalize x.stage), x, w)

/-- Asks for a summary. -/
def requestSummary (x : Execution) (withPath : Bool) : Execution :=
  { x with wanted := some withPath }

/-- The summary, which is given out once. -/
def takeSummary (x : Execution) : Option Summary × Execution :=
  (x.summary, { x with summary := none })

/-- A whole transaction, from its acceptance to its end. -/
def transact (x : Execution) (t : Transaction) (observer : Observer) (w : World β) :
    Except Fault (Except Error Unit × Execution × World β) :=
  match x.accept t w with
  | (.error e, x, w) => .ok (.error e, x, w)
  | (.ok _, x, w) =>
    match x.execute w with
    | (.error e, x, w) => .ok (.error e, x, w)
    | (.ok true, x, w) => x.finalize w
    | (.ok false, x, w) =>
      match x.run observer w with
      | (.error e, x, w) => .ok (.error e, x, w)
      | (.ok _, x, w) => x.finalize w

end Transact.Execution
