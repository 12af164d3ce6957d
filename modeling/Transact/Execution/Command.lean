import Transact.Execution.Finalization

/-!
An execution's operations as data, and what each one replies.
-/

namespace Transact.Execution

inductive Command
  | accept (t : Transaction)
  | execute
  | dispatch (terms : Terms) (message : Message)
  | run (observer : Observer)
  | finalize
  | handOver
  | requestSummary (withPath : Bool)
  | takeSummary

inductive Reply
  | ok
  | done (b : Bool)
  | error (e : Error)
  | summary (s : Option Summary)

def Reply.ofUnit : Except Error Unit → Reply
  | .ok _ => .ok
  | .error e => .error e

def Reply.ofBool : Except Error Bool → Reply
  | .ok b => .done b
  | .error e => .error e

/-- An execution, the substate that takes up its own, and the world. -/
structure Scene (β : Type) where
  execution : Execution
  parent : Substate
  world : World β

variable {β : Type} [Store β]

/-- `s` with the execution and the world that an operation left. -/
def Scene.after (s : Scene β) (reply : Reply) (x : Execution) (w : World β) : Reply × Scene β :=
  (reply, ⟨x, s.parent, w⟩)

def Scene.perform (s : Scene β) : Command → Except Fault (Reply × Scene β)
  | .accept t =>
    let (r, x, w) := s.execution.accept t s.world
    .ok (s.after (.ofUnit r) x w)
  | .execute =>
    let (r, x, w) := s.execution.execute s.world
    .ok (s.after (.ofBool r) x w)
  | .dispatch terms message =>
    let (r, x, w) := s.execution.dispatch terms message s.world
    .ok (s.after (.ofBool r) x w)
  | .run observer =>
    let (r, x, w) := s.execution.run observer s.world
    .ok (s.after (.ofUnit r) x w)
  | .finalize =>
    (s.execution.finalize s.world).map fun (r, x, w) => s.after (.ofUnit r) x w
  | .handOver =>
    let (r, x, parent) := s.execution.handOver s.parent
    .ok (.ofUnit r, ⟨x, parent, s.world⟩)
  | .requestSummary withPath =>
    .ok (.ok, { s with execution := s.execution.requestSummary withPath })
  | .takeSummary =>
    let (r, x) := s.execution.takeSummary
    .ok (.summary r, { s with execution := x })

end Transact.Execution
