import Transact.Creation
import Transact.Machine.Basic

/-!
Beginning a message. Within the depth limit it gets a checkpoint of its own and
its value moves; beyond the limit nothing runs.
-/

namespace Transact

inductive Admission
  | done (o : Outcome)
  | pending (p : Pending)

/-- Where the next creation of `creator` goes, its nonce already counting it. -/
def Ledger.creationTarget {β : Type} [Store β] (l : Ledger β) (creator : Address) : Address :=
  contractAddress creator (l.nonce creator - 1)

namespace Message

variable {β : Type} [Store β]

def isCreation : Message → Bool
  | .call _ => false
  | .create _ => true

/-- The context in which the code of a message runs. -/
def context (terms : Terms) (l : Ledger β) : Message → Context
  | .call c => ⟨c.receiver, c.sender, terms.origin, c.value, terms.gasPrice⟩
  | .create c =>
    ⟨l.creationTarget c.creator, c.creator, terms.origin, c.endowment, terms.gasPrice⟩

def code (l : Ledger β) : Message → Bytes
  | .call c => l.code c.codeAddress
  | .create c => c.initCode

def input : Message → Bytes
  | .call c => c.data
  | .create _ => []

def event (depth : Nat) (context : Context) : Message → Event
  | .call c => .call c.codeAddress context c.data c.gas depth
  | .create c => .create c.creator context.address c.endowment c.initCode c.gas depth

def opened (depth : Nat) (context : Context) : Message → Remark
  | .call c => .callOpened c.receiver depth
  | .create _ => .creationOpened context.address depth

end Message

/-- Moves the value of a message. -/
def Ledger.pay {β : Type} [Store β] (l : Ledger β) (c : Context) :
    Except Exception (Ledger β) :=
  l.transfer c.caller c.address c.value

namespace Machine

variable {β : Type} [Store β] (m : Machine)

/-- A message beyond the depth limit: nothing runs, but the endowment of a
creation moves. -/
def refuse (depth : Nat) (terms : Terms) (message : Message) (w : World β) :
    Outcome × World β :=
  let context := message.context terms w.ledger
  let w := w.event (message.event depth context)
  let w := if message.isCreation then
      match w.ledger.pay context with
      | .error e => w.remark (.endowmentKept e)
      | .ok l => { w with ledger := l }
    else w
  (.refused 0 .callDepthExceeded, w.remark (.tooDeep depth))

/-- Clears the place for a contract. -/
def prepare (target : Address) (l : Ledger β) : Ledger β :=
  let l := (l.wipeStorage target).setCode target []
  if m.rules.createdNonceIsOne then l.setNonce target 1 else l

/-- Opens a checkpoint for a message and moves its value. The checkpoint is
closed again unless there is code to run. -/
def receive (depth : Nat) (terms : Terms) (message : Message) (w : World β) :
    Admission × World β :=
  let context := message.context terms w.ledger
  let w := w.event (message.event depth context)
  let w := (w.edit (·.push)).remark (message.opened depth context)
  let w := if message.isCreation then w.edit (m.prepare context.address) else w
  match w.ledger.pay context with
  | .error e => (.done (.refused message.gas e), w.edit (·.pop .revert))
  | .ok l =>
    let w := { w with ledger := l }
    let p : Pending :=
      ⟨context, message.code l, message.input, message.gas, message.isCreation⟩
    if p.code.isEmpty then
      (.done (.untouched message.gas p.newAddress), w.edit (·.pop .commit))
    else (.pending p, w)

/-- Begins a message at `depth`. -/
def begin (depth : Nat) (terms : Terms) (message : Message) (w : World β) :
    Admission × World β :=
  if m.rules.callDepthLimit < depth then
    let (o, w) := refuse depth terms message w
    (.done o, w)
  else m.receive depth terms message w

end Machine

end Transact
