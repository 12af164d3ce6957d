import Transact.Execution.Command
import Transact.Settlement

/-!
A ledger worked on step by step: by its own operations, by one execution at a
time, and by settling it into the accounts at rest.
-/

namespace Transact

structure Session where
  ledger : Ledger State
  /-- Takes up the substates of bare messages. -/
  parent : Substate
  execution : Option Execution

namespace Session

inductive Command
  | ledger (op : Ledger.Operation)
  | settle (deleteEmpty : Bool)
  | parent
  | new (m : Machine) (depth : Nat)
  | execution (c : Execution.Command)

inductive Reply
  | ok
  | ledger (a : Ledger.Answer)
  /-- The checkpoints dropped, the changes of the root, the accounts after them. -/
  | settled (dropped : Nat) (changes : Changes) (state : State)
  | parent (s : Substate)
  | execution (r : Execution.Reply)
  | fault (f : Fault)
  /-- There is no execution. -/
  | idle

def new (s : State) : Session := ⟨.ofBase s, ∅, none⟩

def settle (s : Session) (deleteEmpty : Bool) : Reply × Diary × Session :=
  let changes := s.ledger.root
  let state := s.ledger.base.settle changes deleteEmpty
  let deleted := if deleteEmpty then s.ledger.base.emptied changes else []
  (.settled s.ledger.openCount changes state,
    (deleted.map fun a => Entry.remark (.emptyDeleted a)).toArray,
    { s with ledger := .ofBase state, execution := none })

/-- The reply to a command, what happened meanwhile, and the session after it. -/
def perform (s : Session) : Command → Reply × Diary × Session
  | .ledger op =>
    let (answer, l) := s.ledger.perform op
    (.ledger answer, #[], { s with ledger := l })
  | .settle deleteEmpty => s.settle deleteEmpty
  | .parent => (.parent s.parent, #[], s)
  | .new m depth => (.ok, #[], { s with execution := some (.new m depth) })
  | .execution c =>
    match s.execution with
    | none => (.idle, #[], s)
    | some x =>
      match (⟨x, s.parent, ⟨s.ledger, #[]⟩⟩ : Execution.Scene State).perform c with
      | .ok (r, t) => (.execution r, t.world.diary, ⟨t.world.ledger, t.parent, some t.execution⟩)
      | .error f => (.fault f, #[], s)

end Session

end Transact
