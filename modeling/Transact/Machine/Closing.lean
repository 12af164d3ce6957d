import Transact.Cost
import Transact.Machine.Basic

/-!
Ending a message whose code halted: the code of a new contract is stored, then
the checkpoint is committed or reverted.
-/

namespace Transact.Machine

variable {β : Type} [Store β] (m : Machine)

/-- Pays for the code that a creation returned and stores it. -/
def deposit (target : Address) (h : Halt) (w : World β) : Halt × Deposit × World β :=
  let size := h.output.length
  let cost := depositCost m.rules size
  let tooLarge := m.rules.codeSizeLimit.any (· < size)
  if tooLarge || h.gasLeft.toNat < cost then
    let exceptional := tooLarge || m.rules.failedDepositIsExceptional
    ({ h with exception := if exceptional then some .outOfGas else none },
      .failed size h.gasLeft, w.remark (.depositFailed size h.gasLeft))
  else
    ({ h with gasLeft := h.gasLeft - .ofNat cost },
      .success size h.gasLeft, w.edit (·.setCode target h.output))

/-- Closes the checkpoint of a message whose code halted. -/
def close (depth : Nat) (p : Pending) (h : Halt) (deposit : Deposit) (s : Substate)
    (w : World β) : Ending × World β :=
  if w.ledger.openCount = 0 then
    (.uneven ⟨h.gasLeft, h.output, h.exception, p.newAddress, deposit, s⟩, w)
  else
    let (o, w) : Outcome × World β := match h.exception with
      | none => (⟨h.gasLeft, h.output, none, p.newAddress, deposit, s⟩,
          (w.edit (·.pop .commit)).remark (.committed depth))
      | some e =>
        let (gas, output) := if e.forfeitsGas then (0, []) else (h.gasLeft, h.output)
        (⟨gas, output, some e, none, deposit, ∅⟩,
          (w.edit (·.pop .revert)).remark (.excepted depth e))
    (.closed o, w.event (.exit depth o.exception o.gas o.output))

def conclude (depth : Nat) (p : Pending) (h : Halt) (s : Substate) (w : World β) :
    Ending × World β :=
  if p.isCreation && h.exception.isNone then
    let (h, deposit, w) := m.deposit p.context.address h w
    close depth p h deposit s w
  else close depth p h .none s w

end Transact.Machine
