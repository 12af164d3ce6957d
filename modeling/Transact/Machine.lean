import Transact.Machine.Admission
import Transact.Machine.Closing

/-!
Carrying out messages. Code runs between the admission and the closing of its
message, and the messages it sends are carried out one level deeper. Main
statement: `run_eq`, which does without the count of levels.
-/

namespace Transact.Machine

variable {β : Type} [Store β] (m : Machine)

def frame (depth : Nat) (context : Context) (observer : Observer) : Frame :=
  ⟨depth, context, m.block, m.hashes, observer⟩

/-- Runs pending code whose nested messages go to `send`. -/
def perform (observer : Observer) (depth : Nat) (p : Pending)
    (send : Message → World β → Ending × World β) (w : World β) : Ending × World β :=
  let v : Invocation := ⟨depth, p.context, m.block.toHeader, p.gas, p.code, p.input⟩
  let (h, s, w) :=
    (m.frame depth p.context observer).run send (m.interpreter v) ∅ (w.write (.enter v))
  m.conclude depth p h s w

/-- Begins a message within the depth limit and lets `run` take over if there is
code to run. -/
def forward (depth : Nat) (run : Pending → World β → Ending × World β) (terms : Terms)
    (message : Message) (w : World β) : Ending × World β :=
  match m.receive depth terms message w with
  | (.done o, w) => (.closed o, w)
  | (.pending p, w) => run p w

/-- Runs pending code with `levels` more levels of messages below it. -/
def runLevels (observer : Observer) : (levels depth : Nat) → Pending → World β → Ending × World β
  | 0, depth, p, w =>
    m.perform observer depth p (fun message w =>
      let (o, w) := refuse (depth + 1) p.context.terms message w
      (.closed o, w)) w
  | levels + 1, depth, p, w =>
    m.perform observer depth p
      (m.forward (depth + 1) (runLevels observer levels (depth + 1)) p.context.terms) w

/-- Runs pending code at `depth`. -/
def run (observer : Observer) (depth : Nat) (p : Pending) (w : World β) : Ending × World β :=
  m.runLevels observer (m.rules.callDepthLimit - depth) depth p w

/-- Carries out a message at `depth` to its end. -/
def send (observer : Observer) (depth : Nat) (terms : Terms) (message : Message)
    (w : World β) : Ending × World β :=
  match m.begin depth terms message w with
  | (.done o, w) => (.closed o, w)
  | (.pending p, w) => m.run observer depth p w

/-- Nested messages are carried out one level deeper. -/
theorem run_eq (observer : Observer) (depth : Nat) (p : Pending) (w : World β)
    (h : depth ≤ m.rules.callDepthLimit) :
    m.run observer depth p w =
      m.perform observer depth p (m.send observer (depth + 1) p.context.terms) w := by
  unfold run
  by_cases hd : depth = m.rules.callDepthLimit
  · subst hd
    rw [Nat.sub_self, runLevels]
    congr 1
    funext message w
    simp [send, begin]
  · have hs : m.rules.callDepthLimit - depth = m.rules.callDepthLimit - (depth + 1) + 1 := by
      omega
    rw [hs, runLevels]
    congr 1
    funext message w
    have hn : ¬ m.rules.callDepthLimit < depth + 1 := by omega
    simp [send, begin, hn, forward, run]

end Transact.Machine
