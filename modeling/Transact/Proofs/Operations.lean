import Transact.Proofs.Balanced
import Transact.Proofs.Conduct

/-!
What messages and running code do to the ledger, as a list of the ledger's own
operations. Main statements: `Machine.replay_operations`, that performing the list
gives the ledger the message leaves, for every interpreter; and
`Machine.operations_of_le`, that confined code keeps it balanced inside the
message's own checkpoint.
-/

namespace Transact

/-- What becomes of the changes of a message. -/
def Outcome.verdict (o : Outcome) : Verdict := if o.exception.isNone then .commit else .revert

def Ending.outcome : Ending → Outcome
  | .closed o | .uneven o => o

/-! The operations, but for those that only read. -/

namespace Frame

open Ledger (Operation)

variable {β : Type} [Store β] (f : Frame)

def effectOperations (l : Ledger β) : Effect → List Operation
  | .setStorage i v => [.setStorage f.context.address i v]
  | .log .. | .refund _ => []
  | .selfDestruct beneficiary =>
    let a := f.context.address
    let l' := l.credit beneficiary (l.balance a)
    [.credit beneficiary (l.balance a), .debit a (l'.balance a)]

/-- The operations of running a program; those of its messages are `nested`. -/
def operations (send : Message → World β → Ending × World β)
    (nested : Message → World β → List Operation) :
    Program → Substate → World β → List Operation
  | .halt _, _, _ => []
  | .step i next, s, w => operations send nested next s (f.observe i w)
  | .read q next, s, w => operations send nested (next (f.answer w.ledger q)) s w
  | .act e next, s, w =>
    f.effectOperations w.ledger e ++
      operations send nested next (f.act e s w).1 (f.act e s w).2
  | .call c next, s, w =>
    nested (.call c) w ++
      match send (.call c) w with
      | (.closed o, w) => operations send nested (next o.ofCall) (s.absorb o) w
      | (.uneven _, w) =>
        operations send nested (next .aborted) s (w.remark (.callAborted (f.depth + 1)))
  | .create endowment gas initCode next, s, w =>
    let creator := f.context.address
    let w := w.edit (·.bumpNonce creator)
    let message : Message := .create ⟨creator, endowment, gas, initCode⟩
    .bumpNonce creator :: (nested message w ++
      match send message w with
      | (.closed o, w) => operations send nested (next o.ofCreation) (s.absorb o) w
      | (.uneven _, w) =>
        operations send nested (next .aborted) s (w.remark (.creationAborted (f.depth + 1))))
  | .note sighting next, s, w =>
    operations send nested next s (w.write (.note f.depth sighting))
  | .direct op next, s, w =>
    op :: operations send nested (next (w.ledger.perform op).1) s
      { w with ledger := (w.ledger.perform op).2 }

end Frame

/-- The operations of a message beyond the depth limit. -/
def Message.refusedOperations {β : Type} [Store β] (l : Ledger β) :
    Message → List Ledger.Operation
  | .call _ => []
  | .create c => [.transfer c.creator (l.creationTarget c.creator) c.endowment]

namespace Machine

open Ledger (Operation)

variable {β : Type} [Store β] (m : Machine)

/-- The operations that begin a message, its checkpoint being open. -/
def openingOperations (message : Message) (c : Context) : List Operation :=
  (if message.isCreation then
    .wipeStorage c.address :: .setCode c.address [] ::
      if m.rules.createdNonceIsOne then [.setNonce c.address 1] else []
  else []) ++ [.transfer c.caller c.address c.value]

/-- The operations that end a message whose code returned `output`. -/
def closingOperations (p : Pending) (output : Bytes) (o : Outcome) : List Operation :=
  match o.deposit with
  | .success .. => [.setCode p.context.address output, .pop o.verdict]
  | _ => [.pop o.verdict]

/-- The operations of a message at `depth`. -/
def operations (observer : Observer) (depth : Nat) (terms : Terms) (message : Message)
    (w : World β) : List Operation :=
  if _h : m.rules.callDepthLimit < depth then message.refusedOperations w.ledger
  else
    .push :: (m.openingOperations message (message.context terms w.ledger) ++
      match m.receive depth terms message w with
      | (.done o, _) => [.pop o.verdict]
      | (.pending p, w) =>
        let v := m.invocation depth p
        let (h, s, w') := m.play observer depth p w
        (m.frame depth p.context observer).operations
            (m.send observer (depth + 1) p.context.terms)
            (fun message w => operations observer (depth + 1) p.context.terms message w)
            (m.interpreter v) ∅ (w.write (.enter v)) ++
          closingOperations p h.output (m.conclude depth p h s w').1.outcome)
termination_by m.rules.callDepthLimit + 1 - depth
decreasing_by omega

/-- The operations of the code of a message. -/
def playOperations (observer : Observer) (depth : Nat) (p : Pending) (w : World β) :
    List Operation :=
  (m.frame depth p.context observer).operations (m.send observer (depth + 1) p.context.terms)
    (m.operations observer (depth + 1) p.context.terms)
    (m.interpreter (m.invocation depth p)) ∅ (w.write (.enter (m.invocation depth p)))

end Machine

/-! Performing the operations gives the ledger that is left. -/

namespace Frame

open Ledger (Operation)

variable {β : Type} [Store β] (f : Frame)

theorem replay_effectOperations (e : Effect) (s : Substate) (w : World β) :
    w.ledger.replay (f.effectOperations w.ledger e) = (f.act e s w).2.ledger := by
  cases e with
  | selfDestruct b =>
    -- an account can always pay what it holds, also what it has just got from itself
    let l := w.ledger.credit b (w.ledger.balance f.context.address)
    have hzero : l.balance f.context.address - l.balance f.context.address = 0 := by
      ext
      simp
    have hle : ¬ l.balance f.context.address < l.balance f.context.address := Nat.lt_irrefl _
    have hdebit : l.debit f.context.address (l.balance f.context.address) =
        .ok (l.setBalance f.context.address 0) := by
      unfold Ledger.debit
      rw [if_neg hle, hzero]
    change (l.attempt (l.debit f.context.address (l.balance f.context.address))).2 = _
    rw [hdebit]
    rfl
  | _ => rfl

/-- By induction on the program, one operation or nested message after the other. -/
theorem replay_operations {send : Message → World β → Ending × World β}
    {nested : Message → World β → List Operation}
    (hn : ∀ k w, w.ledger.replay (nested k w) = (send k w).2.ledger) (p : Program)
    (s : Substate) (w : World β) :
    w.ledger.replay (f.operations send nested p s w) = (f.run send p s w).2.2.ledger := by
  induction p generalizing s w with
  | halt h => rfl
  | step i next ih =>
    have h := ih s (f.observe i w)
    rw [f.ledger_observe] at h
    exact h
  | read q next ih => exact ih (f.answer w.ledger q) s w
  | act e next ih =>
    rw [operations, Ledger.replay_append, f.replay_effectOperations e s]
    exact ih (f.act e s w).1 (f.act e s w).2
  | call c next ih =>
    rw [operations, Ledger.replay_append, hn, run]
    rcases send (.call c) w with ⟨o | o, w'⟩
    · exact ih o.ofCall (s.absorb o) w'
    · exact ih .aborted s (w'.remark (.callAborted (f.depth + 1)))
  | create endowment gas initCode next ih =>
    let w₁ := w.edit (·.bumpNonce f.context.address)
    have hw : (w.ledger.perform (.bumpNonce f.context.address)).2 = w₁.ledger := rfl
    rw [operations, Ledger.replay_cons, hw, Ledger.replay_append, hn, run]
    rcases send (.create ⟨f.context.address, endowment, gas, initCode⟩) w₁ with ⟨o | o, w'⟩
    · exact ih o.ofCreation (s.absorb o) w'
    · exact ih .aborted s (w'.remark (.creationAborted (f.depth + 1)))
  | note x next ih => exact ih s (w.write (.note f.depth x))
  | direct op next ih => exact ih (w.ledger.perform op).1 s ⟨(w.ledger.perform op).2, w.diary⟩

theorem balanced_operations {send : Message → World β → Ending × World β}
    {nested : Message → World β → List Operation} (hn : ∀ k w, Ledger.Balanced (nested k w))
    (p : Program) (hp : p.Confined) (s : Substate) (w : World β) :
    Ledger.Balanced (f.operations send nested p s w) := by
  induction p generalizing s w with
  | halt h => exact .nil
  | step i next ih => exact ih hp s _
  | read q next ih => exact ih _ (hp _) s w
  | act e next ih =>
    refine .append (.of_flat ?_) (ih hp _ _)
    cases e <;> simp [effectOperations, Operation.Flat]
  | call c next ih =>
    rw [operations]
    refine .append (hn _ _) ?_
    rcases send (.call c) w with ⟨o | o, w'⟩
    · exact ih o.ofCall (hp _) _ w'
    · exact ih .aborted (hp _) s _
  | create endowment gas initCode next ih =>
    rw [operations]
    refine .flat trivial (.append (hn _ _) ?_)
    rcases send (.create ⟨f.context.address, endowment, gas, initCode⟩)
      (w.edit (·.bumpNonce f.context.address)) with ⟨o | o, w'⟩
    · exact ih o.ofCreation (hp _) _ w'
    · exact ih .aborted (hp _) s _
  | note x next ih => exact ih hp s _
  | direct op next => exact hp.elim

end Frame

/-- What fails to be written is not written. -/
theorem Ledger.ledger_attempt {β : Type} (l : Ledger β) (r : Except Exception (Ledger β)) :
    (l.attempt r).2 =
      match r with
      | .error _ => l
      | .ok l' => l' := by
  cases r <;> rfl

theorem Message.replay_refusedOperations {β : Type} [Store β] (message : Message)
    (l : Ledger β) : l.replay (message.refusedOperations l) = message.leftOver l := by
  cases message with
  | call c => rfl
  | create c =>
    exact l.ledger_attempt (l.transfer c.creator (l.creationTarget c.creator) c.endowment)

/-- Without a checkpoint there is none to close. -/
theorem Ledger.pop_of_openCount {β : Type} {l : Ledger β} (h : l.openCount = 0) (v : Verdict) :
    l.pop v = l := by
  unfold pop
  rw [List.eq_nil_of_length_eq_zero h]

theorem Machine.close_closes {β : Type} (depth : Nat) (p : Pending) (h : Halt) (d : Deposit)
    (s : Substate) (w : World β) :
    (close depth p h d s w).1.outcome.deposit = d ∧
      (close depth p h d s w).2.ledger =
        w.ledger.pop (close depth p h d s w).1.outcome.verdict := by
  unfold close
  split
  · next hopen => exact ⟨rfl, (Ledger.pop_of_openCount hopen _).symm⟩
  · cases h.exception with
    | none => exact ⟨rfl, rfl⟩
    | some e => cases e.forfeitsGas <;> exact ⟨rfl, rfl⟩

namespace Machine

open Ledger (Operation)

variable {β : Type} [Store β] (m : Machine)

theorem replay_openingOperations (terms : Terms) (message : Message) (l : Ledger β) :
    l.push.replay (m.openingOperations message (message.context terms l)) =
      match m.paid terms message l with
      | .error _ => m.openFor message (message.context terms l).address l
      | .ok l' => l' := by
  unfold paid Ledger.pay
  rw [← Ledger.ledger_attempt]
  unfold openingOperations openFor prepare
  cases message with
  | call c => rfl
  | create c => cases m.rules.createdNonceIsOne <;> rfl

theorem replay_closingOperations (depth : Nat) (p : Pending) (h : Halt) (s : Substate)
    (w : World β) :
    w.ledger.replay (closingOperations p h.output (m.conclude depth p h s w).1.outcome) =
      (m.conclude depth p h s w).2.ledger := by
  obtain ⟨h', d, w', hdep, he⟩ := m.conclude_eq_close depth p h s w
  obtain ⟨hd, hl⟩ := close_closes depth p h' d s w'
  unfold closingOperations
  rw [he, hd, hl]
  cases hdep <;> rfl

theorem operations_of_lt (observer : Observer) {depth : Nat} (terms : Terms) (message : Message)
    (w : World β) (hd : m.rules.callDepthLimit < depth) :
    m.operations observer depth terms message w = message.refusedOperations w.ledger := by
  unfold operations
  exact dif_pos hd

theorem operations_of_done (observer : Observer) {depth : Nat} {terms : Terms}
    {message : Message} {w w' : World β} {o : Outcome}
    (hd : depth ≤ m.rules.callDepthLimit)
    (hr : m.receive depth terms message w = (.done o, w')) :
    m.operations observer depth terms message w =
      .push :: (m.openingOperations message (message.context terms w.ledger) ++
        [.pop o.verdict]) := by
  unfold operations
  rw [dif_neg (Nat.not_lt.mpr hd), hr]

theorem operations_of_pending (observer : Observer) {depth : Nat} {terms : Terms}
    {message : Message} {w w' : World β} {p : Pending}
    (hd : depth ≤ m.rules.callDepthLimit)
    (hr : m.receive depth terms message w = (.pending p, w')) :
    m.operations observer depth terms message w =
      .push :: (m.openingOperations message (message.context terms w.ledger) ++
        (m.playOperations observer depth p w' ++
          closingOperations p (m.play observer depth p w').1.output
            (m.run observer depth p w').1.outcome)) := by
  rw [m.run_eq_conclude observer p w' hd]
  unfold operations
  rw [dif_neg (Nat.not_lt.mpr hd), hr]
  rfl

/-- Performing the operations of a message gives the ledger it leaves, also where the
code went past the interface. -/
theorem replay_operations (observer : Observer) (depth : Nat) (terms : Terms)
    (message : Message) (w : World β) :
    w.ledger.replay (m.operations observer depth terms message w) =
      (m.send observer depth terms message w).2.ledger := by
  induction depth using m.depth_induction generalizing terms message w with
  | beyond depth hd =>
    rw [m.operations_of_lt observer terms message w hd, m.send_of_lt observer terms message w hd,
      message.replay_refusedOperations, ledger_refuse]
  | within depth hd ih =>
    have hr := m.received depth terms message w
    have hopening := m.replay_openingOperations terms message w.ledger
    have hpush : (w.ledger.perform .push).2 = w.ledger.push := rfl
    unfold send
    rw [m.begin_of_le terms message w hd]
    rcases hw : m.receive depth terms message w with ⟨o | p, w₁⟩
    · rw [hw] at hr
      rw [m.operations_of_done observer hd hw, Ledger.replay_cons, hpush, Ledger.replay_append,
        hopening]
      cases hr with
      | unpaid hp =>
        rw [hp]
        exact (m.sameBelow_openFor message _ w.ledger).pop_revert_of_push
      | idle hp => rw [hp]; rfl
    · rw [hw] at hr
      have hplay : w₁.ledger.replay (m.playOperations observer depth p w₁) =
          (m.play observer depth p w₁).2.2.ledger :=
        (m.frame depth p.context observer).replay_operations (ih p.context.terms) _ ∅
          (w₁.write (.enter (m.invocation depth p)))
      have hl : w₁.ledger = w.ledger.push.replay
          (m.openingOperations message (message.context terms w.ledger)) := by
        cases hr with
        | waiting hp => rw [hopening, hp]
      rw [m.operations_of_pending observer hd hw, Ledger.replay_cons, hpush,
        Ledger.replay_append, ← hl, Ledger.replay_append, hplay]
      dsimp only
      rw [m.run_eq_conclude observer p w₁ hd]
      exact m.replay_closingOperations depth p _ _ _

theorem balanced_openingOperations (message : Message) (c : Context) :
    Ledger.Balanced (m.openingOperations message c) := by
  refine .of_flat ?_
  unfold openingOperations
  cases message with
  | call => simp [Message.isCreation, Operation.Flat]
  | create => cases m.rules.createdNonceIsOne <;> simp [Message.isCreation, Operation.Flat]

theorem closingOperations_eq (p : Pending) (output : Bytes) (o : Outcome) :
    ∃ stored, Ledger.Balanced stored ∧
      closingOperations p output o = stored ++ [.pop o.verdict] := by
  unfold closingOperations
  split
  · exact ⟨[.setCode p.context.address output], .singleton trivial, rfl⟩
  · exact ⟨[], .nil, rfl⟩

theorem operations_of_nested (hi : m.interpreter.Confined) (observer : Observer) {depth : Nat}
    (hn : ∀ t k w, Ledger.Balanced (m.operations (β := β) observer (depth + 1) t k w))
    (terms : Terms) (message : Message) (w : World β) (hd : depth ≤ m.rules.callDepthLimit) :
    ∃ inner, Ledger.Balanced inner ∧ m.operations observer depth terms message w =
      .push :: (inner ++
        [.pop (m.send observer depth terms message w).1.outcome.verdict]) := by
  let opening := m.openingOperations message (message.context terms w.ledger)
  have hopening : Ledger.Balanced opening := m.balanced_openingOperations message _
  unfold send
  rw [m.begin_of_le terms message w hd]
  rcases hw : m.receive depth terms message w with ⟨o | p, w₁⟩
  · exact ⟨opening, hopening, m.operations_of_done observer hd hw⟩
  · obtain ⟨stored, hstored, hclosing⟩ := closingOperations_eq p
      (m.play observer depth p w₁).1.output (m.run observer depth p w₁).1.outcome
    have hplay : Ledger.Balanced (m.playOperations observer depth p w₁) :=
      (m.frame depth p.context observer).balanced_operations (hn p.context.terms) _ (hi _) ∅ _
    refine ⟨opening ++ (m.playOperations observer depth p w₁ ++ stored),
      hopening.append (hplay.append hstored), ?_⟩
    rw [m.operations_of_pending observer hd hw, hclosing, List.append_assoc, List.append_assoc]

theorem balanced_operations (hi : m.interpreter.Confined) (observer : Observer) (depth : Nat)
    (terms : Terms) (message : Message) (w : World β) :
    Ledger.Balanced (m.operations observer depth terms message w) := by
  induction depth using m.depth_induction generalizing terms message w with
  | beyond depth hd =>
    rw [m.operations_of_lt observer terms message w hd]
    cases message with
    | call => exact .nil
    | create => exact .singleton trivial
  | within depth hd ih =>
    obtain ⟨inner, hinner, he⟩ := m.operations_of_nested hi observer ih terms message w hd
    rw [he]
    exact hinner.bracket _

/-- Code that keeps to the interface only does what is balanced between the opening and
the closing of its message's checkpoint. -/
theorem operations_of_le (hi : m.interpreter.Confined) (observer : Observer) {depth : Nat}
    (terms : Terms) (message : Message) (w : World β) (hd : depth ≤ m.rules.callDepthLimit) :
    ∃ inner, Ledger.Balanced inner ∧ m.operations observer depth terms message w =
      .push :: (inner ++
        [.pop (m.send observer depth terms message w).1.outcome.verdict]) :=
  m.operations_of_nested hi observer (m.balanced_operations hi observer (depth + 1)) terms
    message w hd

end Machine

end Transact
