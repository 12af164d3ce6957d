import Transact.Proofs.Conduct
import Transact.Proofs.Exact

/-!
Frames and messages in checked arithmetic: what runs code once more, on the operations that
fault where a result leaves its range. Main statement: `Machine.runExact_eq`, that no
message faults and all end as before.
-/

namespace Transact

/-- Halts with fewer than `2 ^ 64` bytes of output, as no byte string is longer. -/
def Program.Sized : Program → Prop
  | .halt h => h.output.length < 2 ^ 64
  | .step _ next | .act _ next | .note _ next => next.Sized
  | .read _ next => ∀ a, (next a).Sized
  | .call _ next => ∀ o, (next o).Sized
  | .create _ _ _ next => ∀ o, (next o).Sized
  | .direct _ next => ∀ a, (next a).Sized

def Interpreter.Sized (i : Interpreter) : Prop := ∀ v, (i v).Sized

/-! Frames. -/

namespace Frame

variable {β : Type} [Store β] (f : Frame)

/-- `Frame.answer` in checked arithmetic. -/
def answerExact (l : Ledger β) : (q : Query) → Except Fault q.Answer
  | .blockHash number => (f.block.offsetExact number).map (·.elim 0 f.hashes)
  | .balance a => .ok (f.answer l (.balance a))
  | .code a => .ok (f.answer l (.code a))
  | .present a => .ok (f.answer l (.present a))
  | .storage i => .ok (f.answer l (.storage i))

/-- `Frame.selfDestruct` with a checked difference for what the account has left. -/
def selfDestructExact (beneficiary : Address) (w : World β) : Except Fault (World β) := do
  let address := f.context.address
  let balance := w.ledger.balance address
  let w := w.event (.selfDestruct address beneficiary balance)
  let l := w.ledger.credit beneficiary balance
  match ← l.debitExact address (l.balance address) with
  | .ok l => return { w with ledger := l }
  | .error _ => return { w with ledger := l }

/-- `Frame.act` in checked arithmetic. -/
def actExact (e : Effect) (s : Substate) (w : World β) : Except Fault (Substate × World β) :=
  match e with
  | .selfDestruct beneficiary => do
    let w ← f.selfDestructExact beneficiary
      (w.write (.act f.depth f.context.address (.selfDestruct beneficiary)))
    return (s.condemn f.context.address, w)
  | e => .ok (f.act e s w)

/-- `Frame.run` in checked arithmetic. -/
def runExact (f : Frame) (send : Message → World β → Except Fault (Ending × World β)) :
    Program → Substate → World β → Except Fault (Halt × Substate × World β)
  | .halt h, s, w => .ok (h, s, w)
  | .step i next, s, w => f.runExact send next s (f.observe i w)
  | .read q next, s, w => do
    let answer ← f.answerExact w.ledger q
    f.runExact send (next answer) s w
  | .act e next, s, w => do
    let (s, w) ← f.actExact e s w
    f.runExact send next s w
  | .call c next, s, w => do
    match ← send (.call c) w with
    | (.closed o, w) => f.runExact send (next o.ofCall) (s.absorb o) w
    | (.uneven _, w) => f.runExact send (next .aborted) s (w.remark (.callAborted (f.depth + 1)))
  | .create endowment gas initCode next, s, w => do
    let creator := f.context.address
    let w := w.edit (·.bumpNonce creator)
    match ← send (.create ⟨creator, endowment, gas, initCode⟩) w with
    | (.closed o, w) => f.runExact send (next o.ofCreation) (s.absorb o) w
    | (.uneven _, w) =>
      f.runExact send (next .aborted) s (w.remark (.creationAborted (f.depth + 1)))
  | .note sighting next, s, w => f.runExact send next s (w.write (.note f.depth sighting))
  | .direct op next, s, w => do
    let (answer, l) ← w.ledger.performExact op
    f.runExact send (next answer) s { w with ledger := l }

theorem answerExact_eq (l : Ledger β) (q : Query) :
    f.answerExact l q = .ok (f.answer l q) := by
  cases q with
  | blockHash number =>
    exact congrArg (Except.map (·.elim 0 f.hashes)) (f.block.offsetExact_eq number)
  | _ => rfl

/-- An account can always pay all it has. -/
theorem selfDestructExact_eq (beneficiary : Address) (w : World β) :
    f.selfDestructExact beneficiary w = .ok (f.selfDestruct beneficiary w) := by
  have hall : ∀ (l : Ledger β) (a : Address),
      l.debitExact a (l.balance a) = .ok (.ok (l.setBalance a 0)) := by
    intro l a
    have hlt : ¬ l.balance a < l.balance a := Nat.lt_irrefl _
    rw [Ledger.debitExact_eq]
    unfold Ledger.debit
    rw [if_neg hlt, Quantity.sub_self]
  unfold selfDestructExact
  dsimp only
  rw [hall]
  rfl

theorem actExact_eq (e : Effect) (s : Substate) (w : World β) :
    f.actExact e s w = .ok (f.act e s w) := by
  cases e with
  | selfDestruct beneficiary =>
    unfold actExact
    dsimp only
    rw [selfDestructExact_eq]
    rfl
  | _ => rfl

/-- Code runs without a fault if the messages it sends are carried out without one, and
what it returns has a size. -/
theorem runExact_eq {send : Message → World β → Ending × World β}
    {sendExact : Message → World β → Except Fault (Ending × World β)}
    (hsend : ∀ k w, sendExact k w = .ok (send k w)) {p : Program} (hp : p.Sized) (s : Substate)
    (w : World β) :
    f.runExact sendExact p s w = .ok (f.run send p s w) ∧
      (f.run send p s w).1.output.length < 2 ^ 64 := by
  induction p generalizing s w with
  | halt h => exact ⟨rfl, hp⟩
  | step i p ih => exact ih hp s (f.observe i w)
  | read q k ih =>
    unfold runExact
    rw [answerExact_eq]
    exact ih (f.answer w.ledger q) (hp _) s w
  | act e p ih =>
    unfold runExact
    rw [actExact_eq]
    exact ih hp (f.act e s w).1 (f.act e s w).2
  | note x p ih => exact ih hp s (w.write (.note f.depth x))
  | direct op k ih =>
    unfold runExact
    rw [Ledger.performExact_eq]
    exact ih (w.ledger.perform op).1 (hp _) s { w with ledger := (w.ledger.perform op).2 }
  | call c k ih =>
    unfold runExact run
    rw [hsend]
    rcases send (.call c) w with ⟨o | o, w₁⟩
    · exact ih o.ofCall (hp _) (s.absorb o) w₁
    · exact ih .aborted (hp _) s (w₁.remark (.callAborted (f.depth + 1)))
  | create endowment gas initCode k ih =>
    unfold runExact run
    dsimp only
    rw [hsend]
    rcases send (.create ⟨f.context.address, endowment, gas, initCode⟩)
      (w.edit (·.bumpNonce f.context.address)) with ⟨o | o, w₁⟩
    · exact ih o.ofCreation (hp _) (s.absorb o) w₁
    · exact ih .aborted (hp _) s (w₁.remark (.creationAborted (f.depth + 1)))

end Frame

/-! Messages. -/

namespace Machine

section Admission

variable {β : Type} [Store β] (m : Machine)

/-- `Machine.refuse` in checked arithmetic. -/
def refuseExact (depth : Nat) (terms : Terms) (message : Message) (w : World β) :
    Except Fault (Outcome × World β) := do
  let context := message.context terms w.ledger
  let w := w.event (message.event depth context)
  if message.isCreation then
    let paid ← w.ledger.payExact context
    let w := match paid with
      | .error e => w.remark (.endowmentKept e)
      | .ok l => { w with ledger := l }
    return (.refused 0 .callDepthExceeded, w.remark (.tooDeep depth))
  else return (.refused 0 .callDepthExceeded, w.remark (.tooDeep depth))

/-- `Machine.receive` in checked arithmetic. -/
def receiveExact (depth : Nat) (terms : Terms) (message : Message) (w : World β) :
    Except Fault (Admission × World β) := do
  let context := message.context terms w.ledger
  let w := w.event (message.event depth context)
  let w := (w.edit (·.push)).remark (message.opened depth context)
  let w := if message.isCreation then w.edit (m.prepare context.address) else w
  let paid ← w.ledger.payExact context
  return match paid with
    | .error e => (.done (.refused message.gas e), w.edit (·.pop .revert))
    | .ok l =>
      let w := { w with ledger := l }
      let p : Pending :=
        ⟨context, message.code l, message.input, message.gas, message.isCreation⟩
      if p.code.isEmpty then
        (.done (.untouched message.gas p.newAddress), w.edit (·.pop .commit))
      else (.pending p, w)

/-- `Machine.begin` in checked arithmetic. -/
def beginExact (depth : Nat) (terms : Terms) (message : Message) (w : World β) :
    Except Fault (Admission × World β) := do
  if m.rules.callDepthLimit < depth then
    let (o, w) ← refuseExact depth terms message w
    return (.done o, w)
  else m.receiveExact depth terms message w

theorem refuseExact_eq (depth : Nat) (terms : Terms) (message : Message) (w : World β) :
    refuseExact depth terms message w = .ok (refuse depth terms message w) := by
  unfold refuseExact refuse
  dsimp only
  rw [Ledger.payExact_eq]
  split <;> rfl

theorem receiveExact_eq (depth : Nat) (terms : Terms) (message : Message) (w : World β) :
    m.receiveExact depth terms message w = .ok (m.receive depth terms message w) := by
  unfold receiveExact
  dsimp only
  rw [Ledger.payExact_eq]
  rfl

theorem beginExact_eq (depth : Nat) (terms : Terms) (message : Message) (w : World β) :
    m.beginExact depth terms message w = .ok (m.begin depth terms message w) := by
  unfold beginExact begin
  split
  · rw [refuseExact_eq]
    rfl
  · exact m.receiveExact_eq depth terms message w

end Admission

section Closing

variable {β : Type} (m : Machine)

/-- `Machine.deposit` in checked arithmetic. -/
def depositExact (target : Address) (h : Halt) (w : World β) :
    Except Fault (Halt × Deposit × World β) := do
  let size := h.output.length
  let cost ← depositCostExact m.rules size
  let tooLarge := m.rules.codeSizeLimit.any (· < size)
  if tooLarge || h.gasLeft < cost then
    let exceptional := tooLarge || m.rules.failedDepositIsExceptional
    return ({ h with exception := if exceptional then some .outOfGas else none },
      .failed size h.gasLeft, w.remark (.depositFailed size h.gasLeft))
  else
    let gasLeft ← h.gasLeft.subExact cost
    return ({ h with gasLeft }, .success size h.gasLeft, w.edit (·.setCode target h.output))

/-- `Machine.conclude` in checked arithmetic. -/
def concludeExact (depth : Nat) (p : Pending) (h : Halt) (s : Substate) (w : World β) :
    Except Fault (Ending × World β) := do
  if p.isCreation && h.exception.isNone then
    let (h, deposit, w) ← m.depositExact p.context.address h w
    return close depth p h deposit s w
  else return close depth p h .none s w

variable {m} (hr : m.rules.depositGas < 2 ^ 64)
include hr

/-- The gas left is compared with the cost before the cost is taken from it. -/
theorem depositExact_eq (target : Address) {h : Halt} (hs : h.output.length < 2 ^ 64)
    (w : World β) : m.depositExact target h w = .ok (m.deposit target h w) := by
  have hmost : 2 ^ 64 * 2 ^ 64 ≤ Quantity.most := by decide
  have hcost : depositCost m.rules h.output.length ≤ 2 ^ 64 * 2 ^ 64 :=
    Nat.mul_le_mul (Nat.le_of_lt hs) (Nat.le_of_lt hr)
  -- gas and cost are compared as amounts here, as naturals in `deposit`
  have hlt : (h.gasLeft < .ofNat (depositCost m.rules h.output.length)) ↔
      h.gasLeft.toNat < depositCost m.rules h.output.length := by
    rw [Quantity.lt_def, Quantity.toNat_ofNat, Nat.min_eq_left (by omega)]
  unfold depositExact deposit
  dsimp only
  rw [depositCostExact_eq hr hs, ok_bind]
  simp only [hlt]
  split
  · rfl
  · next hpaid =>
    have hle : .ofNat (depositCost m.rules h.output.length) ≤ h.gasLeft := by
      simp only [Bool.or_eq_true, decide_eq_true_eq, not_or, ← hlt] at hpaid
      exact Nat.le_of_not_lt hpaid.2
    rw [Quantity.subExact_eq_ok hle]
    rfl

theorem concludeExact_eq (depth : Nat) (p : Pending) {h : Halt} (hs : h.output.length < 2 ^ 64)
    (s : Substate) (w : World β) :
    m.concludeExact depth p h s w = .ok (m.conclude depth p h s w) := by
  unfold concludeExact conclude
  split
  · rw [depositExact_eq hr _ hs]
    rfl
  · rfl

end Closing

section Running

variable {β : Type} [Store β] (m : Machine)

/-- `Machine.perform` in checked arithmetic. -/
def performExact (observer : Observer) (depth : Nat) (p : Pending)
    (send : Message → World β → Except Fault (Ending × World β)) (w : World β) :
    Except Fault (Ending × World β) := do
  let v : Invocation := ⟨depth, p.context, m.block.toHeader, p.gas, p.code, p.input⟩
  let (h, s, w) ←
    (m.frame depth p.context observer).runExact send (m.interpreter v) ∅ (w.write (.enter v))
  m.concludeExact depth p h s w

/-- `Machine.forward` in checked arithmetic. -/
def forwardExact (depth : Nat) (run : Pending → World β → Except Fault (Ending × World β))
    (terms : Terms) (message : Message) (w : World β) : Except Fault (Ending × World β) := do
  match ← m.receiveExact depth terms message w with
  | (.done o, w) => return (.closed o, w)
  | (.pending p, w) => run p w

/-- `Machine.runLevels` in checked arithmetic. -/
def runLevelsExact (observer : Observer) :
    (levels depth : Nat) → Pending → World β → Except Fault (Ending × World β)
  | 0, depth, p, w =>
    m.performExact observer depth p (fun message w => do
      let (o, w) ← refuseExact (depth + 1) p.context.terms message w
      return (.closed o, w)) w
  | levels + 1, depth, p, w =>
    m.performExact observer depth p
      (m.forwardExact (depth + 1) (runLevelsExact observer levels (depth + 1)) p.context.terms) w

/-- `Machine.run` in checked arithmetic. -/
def runExact (observer : Observer) (depth : Nat) (p : Pending) (w : World β) :
    Except Fault (Ending × World β) :=
  m.runLevelsExact observer (m.rules.callDepthLimit - depth) depth p w

variable {m} (hr : m.rules.depositGas < 2 ^ 64) (hi : m.interpreter.Sized) (observer : Observer)
include hr hi

theorem performExact_eq {send : Message → World β → Ending × World β}
    {sendExact : Message → World β → Except Fault (Ending × World β)}
    (hsend : ∀ k w, sendExact k w = .ok (send k w)) (depth : Nat) (p : Pending) (w : World β) :
    m.performExact observer depth p sendExact w = .ok (m.perform observer depth p send w) := by
  obtain ⟨hrun, hs⟩ := (m.frame depth p.context observer).runExact_eq hsend
    (hi (m.invocation depth p)) ∅ (w.write (.enter (m.invocation depth p)))
  unfold performExact perform
  dsimp only
  unfold invocation at hrun hs
  rw [hrun]
  exact concludeExact_eq hr depth p hs _ _

/-- By induction on the levels left. -/
theorem runLevelsExact_eq (levels depth : Nat) (p : Pending) (w : World β) :
    m.runLevelsExact observer levels depth p w = .ok (m.runLevels observer levels depth p w) := by
  induction levels generalizing depth p w with
  | zero =>
    unfold runLevelsExact runLevels
    refine performExact_eq hr hi observer ?_ depth p w
    intro message w
    rw [refuseExact_eq]
    rfl
  | succ levels ih =>
    unfold runLevelsExact runLevels
    refine performExact_eq hr hi observer ?_ depth p w
    intro message w
    unfold forwardExact forward
    rw [receiveExact_eq]
    rcases m.receive (depth + 1) p.context.terms message w with ⟨o | p', w'⟩
    · rfl
    · exact ih (depth + 1) p' w'

theorem runExact_eq (depth : Nat) (p : Pending) (w : World β) :
    m.runExact observer depth p w = .ok (m.run observer depth p w) :=
  runLevelsExact_eq hr hi observer _ depth p w

end Running

end Machine

end Transact
