import Transact.Event
import Transact.Remark

/-!
The diary of a run: all that happened, in order. The log, the events, the steps
and what the code saw are selections from it.
-/

namespace Transact

inductive Entry
  | remark (r : Remark)
  | event (e : Event)
  | step (s : Step)
  /-- An interpreter starts to run. -/
  | enter (i : Invocation)
  | act (depth : Nat) (address : Address) (e : Effect)
  | note (depth : Nat) (s : Sighting)

abbrev Diary := Array Entry

namespace Diary

def log (d : Diary) : List String :=
  d.toList.filterMap fun | .remark r => some r.line | _ => none

def events (d : Diary) : List Event :=
  d.toList.filterMap fun | .event e => some e | _ => none

def steps (d : Diary) : List Step :=
  d.toList.filterMap fun | .step s => some s | _ => none

def invocations (d : Diary) : List Invocation :=
  d.toList.filterMap fun | .enter i => some i | _ => none

/-- What the code saw, and at which depth. -/
def sightings (d : Diary) : List (Nat × Sighting) :=
  d.toList.filterMap fun | .note depth s => some (depth, s) | _ => none

/-- The entries after the first `n`. -/
def since (d : Diary) (n : Nat) : Diary := d.extract n d.size

end Diary

end Transact
