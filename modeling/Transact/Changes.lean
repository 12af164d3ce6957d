import Std.Data.ExtTreeMap
import Std.Data.ExtTreeSet
import Transact.Quantity

/-!
What was written since some moment. In one change set the deletions come first,
then the storage resets, then the other writes.
-/

namespace Transact

open Std (ExtTreeMap ExtTreeSet)

/-- A place in the storage of an account. -/
structure Slot where
  address : Address
  index : Word
  deriving DecidableEq

namespace Slot

instance : Ord Slot := ⟨compareLex (compareOn Slot.address) (compareOn Slot.index)⟩

theorem compare_def :
    (compare : Slot → Slot → Ordering) =
      compareLex (compareOn Slot.address) (compareOn Slot.index) := rfl

instance : Std.TransOrd Slot :=
  inferInstanceAs <| Std.TransCmp (compareLex (compareOn Slot.address) (compareOn Slot.index))

instance : Std.LawfulEqOrd Slot where
  eq_of_compare {s t} h := by
    simp only [compare_def, compareLex, Ordering.then_eq_eq, compareOn,
      Std.LawfulEqCmp.compare_eq_iff_eq] at h
    obtain ⟨_, _⟩ := s
    obtain ⟨_, _⟩ := t
    simp_all

end Slot

structure Changes where
  balances : ExtTreeMap Address Quantity
  codes : ExtTreeMap Address Bytes
  nonces : ExtTreeMap Address Quantity
  wiped : ExtTreeSet Address
  words : ExtTreeMap Slot Word
  deleted : ExtTreeSet Address

namespace Changes

instance : EmptyCollection Changes := ⟨⟨∅, ∅, ∅, ∅, ∅, ∅⟩⟩

def setBalance (c : Changes) (a : Address) (v : Quantity) : Changes :=
  { c with balances := c.balances.insert a v }

def setNonce (c : Changes) (a : Address) (n : Quantity) : Changes :=
  { c with nonces := c.nonces.insert a n }

def setCode (c : Changes) (a : Address) (code : Bytes) : Changes :=
  { c with codes := c.codes.insert a code }

def setStorage (c : Changes) (a : Address) (i v : Word) : Changes :=
  { c with words := c.words.insert ⟨a, i⟩ v }

def wipeStorage (c : Changes) (a : Address) : Changes :=
  { c with
    wiped := c.wiped.insert a
    words := c.words.filter fun s _ => s.address ≠ a }

/-- Forgets all that was written about `a`. -/
def delete (c : Changes) (a : Address) : Changes where
  balances := c.balances.erase a
  codes := c.codes.erase a
  nonces := c.nonces.erase a
  wiped := c.wiped.erase a
  words := c.words.filter fun s _ => s.address ≠ a
  deleted := c.deleted.insert a

/-- First `c`, then `d`. -/
def andThen (c d : Changes) : Changes where
  balances := c.balances.filter (fun a _ => a ∉ d.deleted) ∪ d.balances
  codes := c.codes.filter (fun a _ => a ∉ d.deleted) ∪ d.codes
  nonces := c.nonces.filter (fun a _ => a ∉ d.deleted) ∪ d.nonces
  wiped := c.wiped.filter (· ∉ d.deleted) ∪ d.wiped
  words :=
    c.words.filter (fun s _ => s.address ∉ d.deleted ∧ s.address ∉ d.wiped) ∪
      d.words
  deleted := c.deleted ∪ d.deleted

/-! What a change set alone tells about an account; `none` is nothing. -/

def balance? (c : Changes) (a : Address) : Option Quantity :=
  c.balances[a]?.or (if a ∈ c.deleted then some 0 else none)

def nonce? (c : Changes) (a : Address) : Option Quantity :=
  c.nonces[a]?.or (if a ∈ c.deleted then some 0 else none)

def code? (c : Changes) (a : Address) : Option Bytes :=
  c.codes[a]?.or (if a ∈ c.deleted then some [] else none)

def storage? (c : Changes) (a : Address) (i : Word) : Option Word :=
  c.words[(⟨a, i⟩ : Slot)]?.or
    (if a ∈ c.deleted ∨ a ∈ c.wiped then some 0 else none)

/-- Storage alone does not make an account. -/
def present? (c : Changes) (a : Address) : Option Bool :=
  if a ∈ c.balances ∨ a ∈ c.nonces ∨ a ∈ c.codes then some true
  else if a ∈ c.deleted then some false
  else none

/-- The accounts written to, apart from deletions and storage resets. -/
def touched (c : Changes) : ExtTreeSet Address :=
  .ofList (c.balances.keys ++ c.nonces.keys ++ c.codes.keys ++ c.words.keys.map Slot.address)

/-- The storage writes of one account. -/
def storageOf (c : Changes) (a : Address) : ExtTreeMap Word Word :=
  c.words.foldl (fun m s v => if s.address = a then m.insert s.index v else m) ∅

end Changes

end Transact
