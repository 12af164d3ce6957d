import Transact.Changes
import Transact.State

/-!
Writing a change set into the accounts at rest.
-/

namespace Transact

/-- The account at `a` after the writes of `c`. A zero word leaves no trace. -/
def Account.update (account : Account) (c : Changes) (a : Address) : Account :=
  let words := c.storageOf a
  { balance := c.balances[a]?.getD account.balance
    nonce := c.nonces[a]?.getD account.nonce
    code := c.codes[a]?.getD account.code
    storage := (account.storage ∪ words).filter fun i _ => words[i]? ≠ some 0 }

namespace State

/-- Deletions and storage resets of `c`. -/
def clear (s : State) (c : Changes) : State :=
  (s.filter fun a _ => a ∉ c.deleted).map fun a account =>
    if a ∈ c.wiped then { account with storage := ∅ } else account

def write (s : State) (c : Changes) : State :=
  let cleared := s.clear c
  c.touched.foldl (fun t a => t.insert a ((cleared.account a).update c a)) cleared

/-- The accounts that `c` touches and leaves empty, in ascending order. -/
def emptied (s : State) (c : Changes) : List Address :=
  let written := s.write c
  c.touched.toList.filter fun a => (written.account a).isEmpty

/-- Writes `c`; with `deleteEmpty` the emptied accounts go. -/
def settle (s : State) (c : Changes) (deleteEmpty : Bool) : State :=
  if deleteEmpty then (s.emptied c).foldl (fun t a => t.erase a) (s.write c) else s.write c

end State

end Transact
