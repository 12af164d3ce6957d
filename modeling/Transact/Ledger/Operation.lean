import Transact.Ledger

/-!
The ledger's operations as data, and what each one answers.
-/

namespace Transact.Ledger

inductive Operation
  | balance (a : Address)
  | nonce (a : Address)
  | code (a : Address)
  | present (a : Address)
  | storage (a : Address) (i : Word)
  | credit (a : Address) (v : Quantity)
  | debit (a : Address) (v : Quantity)
  | transfer (source target : Address) (v : Quantity)
  | bumpNonce (a : Address)
  | setNonce (a : Address) (n : Quantity)
  | setCode (a : Address) (code : Bytes)
  | setStorage (a : Address) (i v : Word)
  | wipeStorage (a : Address)
  | delete (a : Address)
  | push
  | pop (v : Verdict)
  deriving DecidableEq

inductive Answer
  | quantity (q : Quantity)
  | bytes (b : Bytes)
  | flag (b : Bool)
  | word (w : Word)
  | done
  | failed (e : Exception)
  /-- There was no checkpoint to close. -/
  | uneven
  deriving DecidableEq

variable {β : Type} [Store β]

/-- `l` unless the writing succeeded. -/
def attempt (l : Ledger β) : Except Exception (Ledger β) → Answer × Ledger β
  | .ok written => (.done, written)
  | .error e => (.failed e, l)

def perform (l : Ledger β) : Operation → Answer × Ledger β
  | .balance a => (.quantity (l.balance a), l)
  | .nonce a => (.quantity (l.nonce a), l)
  | .code a => (.bytes (l.code a), l)
  | .present a => (.flag (l.present a), l)
  | .storage a i => (.word (l.storage a i), l)
  | .credit a v => (.done, l.credit a v)
  | .debit a v => l.attempt (l.debit a v)
  | .transfer source target v => l.attempt (l.transfer source target v)
  | .bumpNonce a => (.done, l.bumpNonce a)
  | .setNonce a n => (.done, l.setNonce a n)
  | .setCode a code => (.done, l.setCode a code)
  | .setStorage a i v => (.done, l.setStorage a i v)
  | .wipeStorage a => (.done, l.wipeStorage a)
  | .delete a => (.done, l.delete a)
  | .push => (.done, l.push)
  | .pop v => (if l.openCount = 0 then .uneven else .done, l.pop v)

/-- One operation after the other; the answers in that order. -/
def performAll (l : Ledger β) : List Operation → List Answer × Ledger β
  | [] => ([], l)
  | op :: ops =>
    let (answer, l) := l.perform op
    let (answers, l) := l.performAll ops
    (answer :: answers, l)

end Transact.Ledger
