import Transact.Proofs.Tasks

/-!
A message that fails leaves the ledger as it found it and hands no side effects
on, whatever its code and the messages nested in it did before.
-/

namespace Transact

variable {β : Type} [Store β]

/-- Where a message that fails at `depth` leaves the ledger it began on. Beyond the
depth limit the endowment of a creation has moved; else nothing has. -/
def Machine.fallback (m : Machine) (depth : Nat) (message : Message) (l : Ledger β) : Ledger β :=
  if m.rules.callDepthLimit < depth then message.leftOver l else l

namespace Machine

variable (m : Machine) (observer : Observer)

theorem fallback_of_le {depth : Nat} (hd : depth ≤ m.rules.callDepthLimit) (message : Message)
    (l : Ledger β) : m.fallback depth message l = l := by
  unfold fallback
  rw [if_neg (Nat.not_lt.mpr hd)]

theorem fallback_call (depth : Nat) (c : Call) (l : Ledger β) :
    m.fallback depth (.call c) l = l := by
  unfold fallback
  split <;> rfl

/-- The outcome `o` of a message begun on `w`, if it failed, has no trace in `w'`. -/
def Undone (depth : Nat) (message : Message) (w : World β) (o : Outcome) (w' : World β) : Prop :=
  o.exception ≠ none → w'.ledger = m.fallback depth message w.ledger ∧ o.substate = ∅

/-- Each of the ways to fail undoes the message: too deep, unpaid, or excepted once
its code has run. -/
theorem conduct_undone : m.Conduct observer (fun _ _ _ _ _ _ => True)
    (fun d _ k (w : World β) o w' => m.Undone d k w o w') where
  halt := trivial
  step _ := trivial
  read _ := trivial
  act _ := trivial
  note _ := trivial
  call _ _ := trivial
  create _ _ := trivial
  refuse := by
    intro d t k w hd _
    refine ⟨?_, rfl⟩
    rw [ledger_refuse, fallback, if_pos hd]
  done := by
    intro d t k w o w' hd hr ho
    cases hr with
    | unpaid h => exact ⟨(m.fallback_of_le hd k w.ledger).symm, rfl⟩
    | idle h hc => exact absurd rfl ho
  close := by
    intro d t k w p w₁ h s w₂ h' dep w₃ hd hr hp hf hs hdep ho
    constructor
    · rw [World.ledger_closed_of_some ho, (hs.trans hdep.sameBelow).pop_revert_of_push,
        m.fallback_of_le hd]
    · rw [Halt.exception_ended] at ho
      exact Halt.substate_ended_of_some ho

theorem send_undone (hi : m.interpreter.Confined) (depth : Nat) (terms : Terms)
    (message : Message) (w : World β) :
    ∃ o w', m.send observer depth terms message w = (.closed o, w') ∧
      m.Undone depth message w o w' := by
  obtain ⟨o, w', he, -, hu⟩ := (m.conduct_undone observer).send hi depth terms message w
  exact ⟨o, w', he, hu⟩

end Machine

theorem Execution.handOver_of_exception {x : Execution} {a : Option Accepted} {o : Outcome}
    (hx : x.phase = .executed a o) {e : Exception} (he : o.exception = some e)
    (parent : Substate) : x.handOver parent = (.error (.exceptedSubstate e), x, parent) := by
  unfold handOver
  rw [hx]
  dsimp only
  rw [he]

/-- Failed messages leave no trace: one carried out by itself, a call from running
code, and a creation from running code. Of the last the creator's nonce remains
counted. It is the ledger itself that is back, with all its readings and open
checkpoints. -/
theorem Machine.failed_message_leaves_no_trace (m : Machine) (hi : m.interpreter.Confined)
    (observer : Observer) (w : World β) :
    (∀ (x : Execution) (terms : Terms) (message : Message), x.machine = m → x.phase = .created →
      ∃ x' w', x.carryOut (.message terms message) observer w = (.ok (), x', w') ∧
        ∀ e, x'.outcome.exception = some e →
          w'.ledger = m.fallback x.depth message w.ledger ∧
          x'.outcome.substate = ∅ ∧
          ∀ parent, x'.handOver parent = (.error (.exceptedSubstate e), x', parent)) ∧
    (∀ (depth : Nat) (context : Context) (call : Call) (next : CallReport → Program)
      (s : Substate), ∃ o w',
        m.send observer (depth + 1) context.terms (.call call) w = (.closed o, w') ∧
        m.runCode observer depth context (.call call next) s w =
          m.runCode observer depth context (next o.ofCall) (s.absorb o) w' ∧
        (o.exception ≠ none → w'.ledger = w.ledger ∧ s.absorb o = s)) ∧
    (∀ (depth : Nat) (context : Context) (endowment gas : Quantity) (initCode : Bytes)
      (next : CreationReport → Program) (s : Substate), ∃ o w',
        m.send observer (depth + 1) context.terms
          (.create ⟨context.address, endowment, gas, initCode⟩)
          (w.edit (·.bumpNonce context.address)) = (.closed o, w') ∧
        m.runCode observer depth context (.create endowment gas initCode next) s w =
          m.runCode observer depth context (next o.ofCreation) (s.absorb o) w' ∧
        (o.exception ≠ none →
          w'.ledger = m.fallback (depth + 1)
            (.create ⟨context.address, endowment, gas, initCode⟩)
            (w.ledger.bumpNonce context.address) ∧
          s.absorb o = s)) := by
  refine ⟨?_, ?_, ?_⟩
  · intro x terms message hm hx
    subst hm
    obtain ⟨o, w', he, hu⟩ := x.machine.send_undone observer hi x.depth terms message w
    obtain ⟨path, hc⟩ := x.carryOut_message hx terms message observer w he
    refine ⟨_, w', hc, ?_⟩
    intro e ho
    have hne : o.exception ≠ none := fun h => Option.some_ne_none e (ho.symm.trans h)
    obtain ⟨hl, hs⟩ := hu hne
    exact ⟨hl, hs, Execution.handOver_of_exception rfl ho⟩
  · intro depth context call next s
    obtain ⟨o, w', he, hu⟩ :=
      m.send_undone observer hi (depth + 1) context.terms (.call call) w
    refine ⟨o, w', he, ?_, ?_⟩
    · unfold runCode
      rw [Frame.run, he]
    · intro ho
      obtain ⟨hl, -⟩ := hu ho
      rw [fallback_call] at hl
      exact ⟨hl, s.absorb_of_exception ho⟩
  · intro depth context endowment gas initCode next s
    obtain ⟨o, w', he, hu⟩ := m.send_undone observer hi (depth + 1) context.terms
      (.create ⟨context.address, endowment, gas, initCode⟩)
      (w.edit (·.bumpNonce context.address))
    refine ⟨o, w', he, ?_, ?_⟩
    · have hcreator : (m.frame depth context observer).context.address = context.address := rfl
      unfold runCode
      rw [Frame.run, hcreator, he]
    · intro ho
      exact ⟨(hu ho).1, s.absorb_of_exception ho⟩

/-- Code that writes and logs, calls itself one level deeper, and then fails. -/
def Interpreter.failing : Interpreter := fun v =>
  .act (.setStorage 0 1) (.act (.log [] []) (if v.depth = 0
    then .call .toSelf fun _ => .halt ⟨0, [], some .outOfGas⟩
    else .halt ⟨0, [], some .outOfGas⟩))

theorem Interpreter.confined_failing : failing.Confined := by
  intro v
  unfold failing
  simp only [Program.Confined]
  split
  · exact fun _ => trivial
  · trivial

theorem failing_code_leaves_no_trace :
    (∃ x' w', (Execution.new (.plain .failing) 0).carryOut (.message ⟨7, 0⟩ (.call .toSelf))
        .silent .plain = (.ok (), x', w') ∧
      x'.outcome.exception = some .outOfGas ∧ w'.ledger = World.plain.ledger ∧
      x'.outcome.substate = ∅) ∧
    (∃ o w', (Machine.plain .failing).send .silent 1 ⟨7, 0⟩ (.call .toSelf) World.plain =
        (.closed o, w') ∧
      o.exception = some .outOfGas ∧ w'.ledger = World.plain.ledger) ∧
    (∃ o w', (Machine.plain .failing).send .silent 1025 ⟨7, 0⟩ (.create ⟨7, 0, 0, [1]⟩)
        (World.plain.edit (·.bumpNonce 7)) = (.closed o, w') ∧
      o.exception = some .callDepthExceeded ∧
      w'.ledger = (Message.create ⟨7, 0, 0, [1]⟩).leftOver (World.plain.ledger.bumpNonce 7)) := by
  obtain ⟨hbare, hcall, hcreate⟩ := Machine.failed_message_leaves_no_trace
    (.plain .failing) Interpreter.confined_failing .silent World.plain
  refine ⟨?_, ?_, ?_⟩
  · obtain ⟨x', w', h, hf⟩ :=
      hbare (.new (.plain .failing) 0) ⟨7, 0⟩ (.call .toSelf) rfl rfl
    have he : ((Execution.new (.plain .failing) 0).carryOut (.message ⟨7, 0⟩ (.call .toSelf))
        .silent World.plain).2.1.outcome.exception = some .outOfGas := by decide
    rw [h] at he
    obtain ⟨hl, hs, -⟩ := hf .outOfGas he
    exact ⟨x', w', h, he, hl, hs⟩
  · obtain ⟨o, w', h, -, hf⟩ :=
      hcall 0 ⟨7, 7, 7, 0, 0⟩ .toSelf (fun _ => .halt ⟨0, [], none⟩) ∅
    have he : ((Machine.plain .failing).send .silent 1 ⟨7, 0⟩ (.call .toSelf) World.plain).1 =
        .closed (.refused 0 .outOfGas) := by rfl
    cases (congrArg Prod.fst h).symm.trans he
    exact ⟨_, w', h, rfl, (hf (by decide)).1⟩
  · obtain ⟨o, w', h, -, hf⟩ :=
      hcreate 1024 ⟨7, 7, 7, 0, 0⟩ 0 0 [1] (fun _ => .halt ⟨0, [], none⟩) ∅
    have he : ((Machine.plain .failing).send .silent 1025 ⟨7, 0⟩ (.create ⟨7, 0, 0, [1]⟩)
        (World.plain.edit (·.bumpNonce 7))).1 = .closed (.refused 0 .callDepthExceeded) := by rfl
    cases (congrArg Prod.fst h).symm.trans he
    exact ⟨_, w', h, rfl, (hf (by decide)).1⟩

end Transact
