import Transact.Program

/-!
Scripts: an interpreter that looks code up in a list and performs the operations
written beside it.
-/

namespace Transact

namespace Script

inductive Act
  | nop
  /-- Halts with `gasLeft`, or with the gas there is. -/
  | halt (gasLeft : Option Quantity) (output : Bytes) (e : Option Exception)
  | context
  | header
  | query (q : Query)
  | effect (e : Effect)
  /-- Hands over at most `gas`, or all gas; pays from `sender`, or from itself. -/
  | call (sender : Option Address) (receiver codeAddress : Address) (value : Quantity)
      (gas : Option Quantity) (data : Bytes)
  | create (endowment : Quantity) (gas : Option Quantity) (initCode : Bytes)
  | ledger (op : Ledger.Operation)

structure Op where
  /-- The operation is skipped at this depth and deeper. -/
  below : Option Nat
  /-- The position in the script unless given. -/
  pc : Option Nat
  opcode : UInt8
  cost : Quantity
  act : Act

/-- The gas that a nested message gets. -/
def handed (gas : Quantity) (wanted : Option Quantity) : Quantity := wanted.elim gas (min gas)

/-- Performs `ops` from position `n` on. -/
def program (v : Invocation) : (n : Nat) → List Op → (gas : Quantity) → Program
  | _, [], gas => .halt ⟨gas, [], none⟩
  | n, op :: ops, gas =>
    if op.below.any (· ≤ v.depth) then program v (n + 1) ops gas
    else .step ⟨op.pc.getD n, op.opcode, gas, op.cost⟩ <|
      if gas < op.cost then .halt ⟨0, [], some .outOfGas⟩
      else
        let gas := gas - op.cost
        match op.act with
        | .nop => program v (n + 1) ops gas
        | .halt gasLeft output e => .halt ⟨gasLeft.getD gas, output, e⟩
        | .context => .note (.context v.context v.input gas) (program v (n + 1) ops gas)
        | .header => .note (.header v.header) (program v (n + 1) ops gas)
        | .query q => .read q fun a => .note (.answer q a) (program v (n + 1) ops gas)
        | .effect e => .act e (program v (n + 1) ops gas)
        | .call sender receiver codeAddress value wanted data =>
          let gives := handed gas wanted
          .call ⟨sender.getD v.context.address, receiver, codeAddress, value, gives, data⟩
            fun o => .note (.called o) (program v (n + 1) ops (gas - gives + o.gasLeft))
        | .create endowment wanted initCode =>
          let gives := handed gas wanted
          .create endowment gives initCode
            fun o => .note (.created o) (program v (n + 1) ops (gas - gives + o.gasLeft))
        | .ledger op => .direct op fun a => .note (.ledger a) (program v (n + 1) ops gas)

end Script

structure Script where
  code : Bytes
  ops : List Script.Op

/-- Code without a script is a bad instruction; of two scripts for the same code
the last counts. -/
def Script.interpreter (scripts : List Script) : Interpreter := fun v =>
  match scripts.reverse.find? (·.code == v.code) with
  | none => .halt ⟨v.gas, [], some .badInstruction⟩
  | some script => Script.program v 0 script.ops v.gas

end Transact
