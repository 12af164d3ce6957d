import Transact.Changes
import Transact.Exception
import Transact.State

/-!
A ledger: one change set for each open checkpoint, over one for the root, over a
store that is only read.
-/

namespace Transact

structure Ledger (β : Type) where
  base : β
  /-- The changes since the innermost open checkpoint. -/
  top : Changes
  /-- The layers under `top`, the root last. -/
  below : List Changes

/-- What becomes of the changes of a closed checkpoint. -/
inductive Verdict
  | commit
  | revert
  deriving DecidableEq

namespace Ledger

variable {β : Type}

def ofBase (base : β) : Ledger β := ⟨base, ∅, []⟩

def openCount (l : Ledger β) : Nat := l.below.length

/-- From the innermost layer to the root. -/
def layers (l : Ledger β) : List Changes := l.top :: l.below

def root (l : Ledger β) : Changes := l.below.getLastD l.top

/-! Reading: the innermost layer that tells anything decides. -/

section Reading

variable [Store β] (l : Ledger β) (a : Address)

def balance : Quantity := (l.layers.findSome? (·.balance? a)).getD (Store.balance l.base a)

def nonce : Quantity := (l.layers.findSome? (·.nonce? a)).getD (Store.nonce l.base a)

def code : Bytes := (l.layers.findSome? (·.code? a)).getD (Store.code l.base a)

def storage (i : Word) : Word :=
  (l.layers.findSome? (·.storage? a i)).getD (Store.storage l.base a i)

def present : Bool := (l.layers.findSome? (·.present? a)).getD (Store.present l.base a)

end Reading

/-! Writing: only the innermost layer changes. -/

section Writing

variable (l : Ledger β) (a : Address)

def setBalance (v : Quantity) : Ledger β := { l with top := l.top.setBalance a v }

def setNonce (n : Quantity) : Ledger β := { l with top := l.top.setNonce a n }

def setCode (code : Bytes) : Ledger β := { l with top := l.top.setCode a code }

def setStorage (i v : Word) : Ledger β := { l with top := l.top.setStorage a i v }

def wipeStorage : Ledger β := { l with top := l.top.wipeStorage a }

def delete : Ledger β := { l with top := l.top.delete a }

variable [Store β]

def credit (v : Quantity) : Ledger β := l.setBalance a (l.balance a + v)

def debit (v : Quantity) : Except Exception (Ledger β) :=
  if l.balance a < v then .error .notEnoughCash else .ok (l.setBalance a (l.balance a - v))

def bumpNonce : Ledger β := l.setNonce a (l.nonce a + 1)

/-- Moves `v` from `a` to `target`. -/
def transfer (target : Address) (v : Quantity) : Except Exception (Ledger β) :=
  (l.debit a v).map (·.credit target v)

end Writing

/-! Checkpoints. -/

def push (l : Ledger β) : Ledger β := ⟨l.base, ∅, l.layers⟩

/-- Closes the innermost checkpoint. Without one nothing changes. -/
def pop (l : Ledger β) (v : Verdict) : Ledger β :=
  match l.below with
  | [] => l
  | parent :: rest =>
    match v with
    | .commit => ⟨l.base, parent.andThen l.top, rest⟩
    | .revert => ⟨l.base, parent, rest⟩

@[simp] theorem openCount_ofBase (base : β) : (ofBase base).openCount = 0 := rfl

@[simp] theorem openCount_push (l : Ledger β) : l.push.openCount = l.openCount + 1 := rfl

@[simp] theorem openCount_pop (l : Ledger β) (v : Verdict) :
    (l.pop v).openCount = l.openCount - 1 := by
  unfold pop openCount
  cases h : l.below with
  | nil => simp [h]
  | cons _ _ => cases v <;> simp

@[simp] theorem pop_revert_push (l : Ledger β) : l.push.pop .revert = l := rfl

end Ledger

end Transact
