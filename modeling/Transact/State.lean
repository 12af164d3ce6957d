import Std.Data.ExtTreeMap
import Transact.Quantity

/-!
The accounts at rest, and how a ledger reads a store of accounts.
-/

namespace Transact

open Std (ExtTreeMap)

structure Account where
  nonce : Quantity
  balance : Quantity
  code : Bytes
  storage : ExtTreeMap Word Word

namespace Account

def fresh : Account := ⟨0, 0, [], ∅⟩

instance : Inhabited Account := ⟨fresh⟩

/-- Storage does not count. -/
def isEmpty (a : Account) : Bool := a.balance = 0 && a.nonce = 0 && a.code.isEmpty

end Account

abbrev State := ExtTreeMap Address Account

/-- A store of accounts that can be read. -/
class Store (β : Type) where
  balance : β → Address → Quantity
  nonce : β → Address → Quantity
  code : β → Address → Bytes
  storage : β → Address → Word → Word
  present : β → Address → Bool

namespace State

def account (s : State) (a : Address) : Account := s[a]?.getD .fresh

instance : Store State where
  balance s a := (s.account a).balance
  nonce s a := (s.account a).nonce
  code s a := (s.account a).code
  storage s a i := ((s.account a).storage)[i]?.getD 0
  present s a := a ∈ s

end State

end Transact
