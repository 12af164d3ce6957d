import Transact.Diary

/-!
One running program: how its requests are answered and carried out. Nested
messages are left to `send`.
-/

namespace Transact

/-- A ledger and the diary of what happened to it. -/
structure World (β : Type) where
  ledger : Ledger β
  diary : Diary

namespace World

variable {β : Type} (w : World β)

def write (e : Entry) : World β := { w with diary := w.diary.push e }

def remark (r : Remark) : World β := w.write (.remark r)

def remarks (rs : List Remark) : World β := rs.foldl remark w

def event (e : Event) : World β := w.write (.event e)

def edit (f : Ledger β → Ledger β) : World β := { w with ledger := f w.ledger }

end World

structure Frame where
  depth : Nat
  context : Context
  block : Block
  hashes : HashSource
  observer : Observer

namespace Frame

variable {β : Type} [Store β]

def answer (f : Frame) (l : Ledger β) : (q : Query) → q.Answer
  | .balance a => l.balance a
  | .code a => l.code a
  | .present a => l.present a
  | .storage i => l.storage f.context.address i
  | .blockHash number => f.block.hashFrom f.hashes number

def observe (f : Frame) (i : Instruction) (w : World β) : World β :=
  let step : Step := ⟨i, f.depth, f.context.address⟩
  (w.write (.step step)).remarks (f.observer step)

/-- Hands over the whole balance; what an account leaves to itself is lost. -/
def selfDestruct (f : Frame) (beneficiary : Address) (w : World β) : World β :=
  let address := f.context.address
  let balance := w.ledger.balance address
  (w.event (.selfDestruct address beneficiary balance)).edit fun l =>
    (l.credit beneficiary balance).setBalance address 0

def act (f : Frame) (e : Effect) (s : Substate) (w : World β) : Substate × World β :=
  let w := w.write (.act f.depth f.context.address e)
  match e with
  | .setStorage i v => (s, w.edit (·.setStorage f.context.address i v))
  | .log topics data => (s.log ⟨f.context.address, topics, data⟩, w)
  | .refund amount => (s.refund amount, w)
  | .selfDestruct beneficiary => (s.condemn f.context.address, f.selfDestruct beneficiary w)

/-- Runs `p` to its halt, with the side effects of this frame so far. -/
def run (f : Frame) (send : Message → World β → Ending × World β) :
    Program → Substate → World β → Halt × Substate × World β
  | .halt h, s, w => (h, s, w)
  | .step i next, s, w => f.run send next s (f.observe i w)
  | .read q next, s, w => f.run send (next (f.answer w.ledger q)) s w
  | .act e next, s, w =>
    let (s, w) := f.act e s w
    f.run send next s w
  | .call c next, s, w =>
    match send (.call c) w with
    | (.closed o, w) => f.run send (next o.ofCall) (s.absorb o) w
    | (.uneven _, w) => f.run send (next .aborted) s (w.remark (.callAborted (f.depth + 1)))
  | .create endowment gas initCode next, s, w =>
    let creator := f.context.address
    let w := w.edit (·.bumpNonce creator)
    match send (.create ⟨creator, endowment, gas, initCode⟩) w with
    | (.closed o, w) => f.run send (next o.ofCreation) (s.absorb o) w
    | (.uneven _, w) => f.run send (next .aborted) s (w.remark (.creationAborted (f.depth + 1)))
  | .note sighting next, s, w => f.run send next s (w.write (.note f.depth sighting))
  | .direct op next, s, w =>
    let (answer, l) := w.ledger.perform op
    f.run send (next answer) s { w with ledger := l }

end Frame

end Transact
