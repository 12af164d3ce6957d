import Transact.Proofs.Operations
import Transact.Proofs.Rollback

/-!
Checkpoints balance. A message opens one, closes it at its end, and until then all
that it and the messages nested in it do happens above the layers it found. Main
statement: `Machine.checkpoints_balance`.
-/

namespace Transact

namespace Ledger

variable {β : Type}

/-- All layers of `l` are still there in `l'`, unchanged, under others. -/
structure Above (l l' : Ledger β) : Prop where
  base : l'.base = l.base
  layers : l.layers <:+ l'.below

theorem SameBelow.openCount_eq {l l' : Ledger β} (h : l.SameBelow l') :
    l'.openCount = l.openCount := by
  unfold openCount
  rw [h.below]

/-- Balanced operations stay above the layers under a checkpoint that was opened for
them. -/
theorem Balanced.above_push [Store β] {ops : List Operation} (h : Balanced ops) (l : Ledger β)
    (n : Nat) : l.Above (l.push.replay (ops.take n)) :=
  ⟨base_replay l.push _, h.keeps l.push n⟩

end Ledger

variable {β : Type} [Store β]

/-- How a message that begins on `w` and ends with `o` on `w'` treats the checkpoints. -/
structure Machine.Guarded (m : Machine) (observer : Observer) (depth : Nat) (terms : Terms)
    (message : Message) (w : World β) (o : Outcome) (w' : World β) : Prop where
  openCount : w'.ledger.openCount = w.ledger.openCount
  /-- Of the layers open before, only the innermost can have changed at the end. -/
  sameBelow : w.ledger.SameBelow w'.ledger
  ledger : w'.ledger = w.ledger.replay (m.operations observer depth terms message w)
  /-- Each checkpoint that is closed on the way is there. -/
  even : .uneven ∉ w.ledger.answers (m.operations observer depth terms message w)
  /-- Until its own checkpoint is closed, the layers open before stay as they are. -/
  above : depth ≤ m.rules.callDepthLimit → ∃ inner,
    m.operations observer depth terms message w = .push :: (inner ++ [.pop o.verdict]) ∧
      ∀ n, w.ledger.Above (w.ledger.push.replay (inner.take n))
  /-- Beyond the depth limit only the endowment of a creation moves. -/
  refused : m.rules.callDepthLimit < depth →
    m.operations observer depth terms message w = message.refusedOperations w.ledger

namespace Machine

variable (m : Machine) (observer : Observer)

theorem send_guarded (hi : m.interpreter.Confined) (depth : Nat) (terms : Terms)
    (message : Message) (w : World β) :
    ∃ o w', m.send observer depth terms message w = (.closed o, w') ∧
      m.Guarded observer depth terms message w o w' := by
  obtain ⟨o, w', hs, hb⟩ := m.send_closed observer hi depth terms message w
  have hreplay := m.replay_operations observer depth terms message w
  rw [hs] at hreplay
  refine ⟨o, w', hs, hb.openCount_eq, hb, hreplay.symm,
    (m.balanced_operations hi observer depth terms message w).no_uneven w.ledger, ?_,
    m.operations_of_lt observer terms message w⟩
  intro hd
  obtain ⟨inner, hinner, he⟩ := m.operations_of_le hi observer terms message w hd
  rw [hs] at he
  exact ⟨inner, he, hinner.above_push w.ledger⟩

theorem openCount_begin_of_done {depth : Nat} {terms : Terms} {message : Message}
    {w w' : World β} {o : Outcome} (h : m.begin depth terms message w = (.done o, w')) :
    w'.ledger.openCount = w.ledger.openCount := by
  obtain ⟨-, hr⟩ | ⟨-, hr⟩ := begin_eq_done h
  · have hl := ledger_refuse depth terms message w
    rw [hr] at hl
    rw [hl]
    exact (message.sameBelow_leftOver w.ledger).openCount_eq
  · exact hr.sameBelow_of_done.openCount_eq

/-- A message that has code to run leaves its checkpoint open, and running the code
closes it. -/
theorem openCount_begin_of_pending (hi : m.interpreter.Confined) {depth : Nat} {terms : Terms}
    {message : Message} {w w₁ : World β} {p : Pending}
    (h : m.begin depth terms message w = (.pending p, w₁)) :
    w₁.ledger.openCount = w.ledger.openCount + 1 ∧
      ∃ o w', m.run observer depth p w₁ = (.closed o, w') ∧
        w'.ledger.openCount = w.ledger.openCount := by
  obtain ⟨-, hr⟩ := begin_eq_pending h
  obtain ⟨o, w', hs, hb⟩ := m.send_closed observer hi depth terms message w
  unfold send at hs
  rw [h] at hs
  exact ⟨hr.sameBelow_of_pending.openCount_of_push, o, w', hs, hb.openCount_eq⟩

end Machine

namespace Execution

/-- What `x` replied to the beginning of a message tells how many checkpoints are open,
and whether its code is run to the end. -/
structure Levelled (observer : Observer) (w : World β) (r : Except Error Bool) (x : Execution)
    (w' : World β) : Prop where
  even : r ≠ .error .uneven
  of_true : r = .ok true → w'.ledger.openCount = w.ledger.openCount
  of_false : r = .ok false → w'.ledger.openCount = w.ledger.openCount + 1 ∧
    ∀ wanted, ∃ x'' w'', ({ x with wanted } : Execution).run observer w' = (.ok (), x'', w'') ∧
      w''.ledger.openCount = w.ledger.openCount

theorem levelled_start (x : Execution) (hi : x.machine.interpreter.Confined)
    (observer : Observer) (a : Option Accepted) (terms : Terms) (message : Message)
    (w : World β) :
    Levelled observer w (.ok (x.start a terms message w).1) (x.start a terms message w).2.1
      (x.start a terms message w).2.2 := by
  unfold start
  rcases hb : x.machine.begin x.depth terms message w with ⟨o | p, w₁⟩
  · exact ⟨nofun, fun _ => x.machine.openCount_begin_of_done hb, nofun⟩
  · obtain ⟨hopen, o, w', hrun, hclosed⟩ := x.machine.openCount_begin_of_pending observer hi hb
    refine ⟨nofun, nofun, fun _ => ⟨hopen, ?_⟩⟩
    intro wanted
    unfold run
    dsimp only
    rw [hrun]
    exact ⟨_, w', rfl, hclosed⟩

theorem levelled_execute (x : Execution) (hi : x.machine.interpreter.Confined)
    (observer : Observer) (w : World β) :
    Levelled observer w (x.execute w).1 (x.execute w).2.1 (x.execute w).2.2 := by
  unfold execute
  split
  · next a hx =>
    split
    · exact ⟨nofun, nofun, nofun⟩
    · next l hl =>
      have hl : l.openCount = w.ledger.openCount := (Ledger.sameBelow_of_debit hl).openCount_eq
      obtain ⟨he, ht, hf⟩ := x.levelled_start hi observer (some a) a.terms a.message
        ({ w with ledger := l }.event a.event)
      have hw : ({ w with ledger := l }.event a.event).ledger.openCount = w.ledger.openCount := hl
      rw [hw] at ht hf
      exact ⟨he, ht, hf⟩
  · exact ⟨nofun, nofun, nofun⟩

theorem levelled_dispatch (x : Execution) (hi : x.machine.interpreter.Confined)
    (observer : Observer) (terms : Terms) (message : Message) (w : World β) :
    Levelled observer w (x.dispatch terms message w).1 (x.dispatch terms message w).2.1
      (x.dispatch terms message w).2.2 := by
  unfold dispatch
  split
  · exact x.levelled_start hi observer none terms message w
  · exact ⟨nofun, nofun, nofun⟩

end Execution

/-- Checkpoints balance: when an execution begins and runs a message, when a message is
carried out at any depth, and when running code calls or creates, which therefore never
sees the report of an aborted message. -/
theorem Machine.checkpoints_balance (m : Machine) (hi : m.interpreter.Confined)
    (observer : Observer) (w : World β) :
    (∀ (x : Execution), x.machine = m →
      Execution.Levelled observer w (x.execute w).1 (x.execute w).2.1 (x.execute w).2.2 ∧
      ∀ (terms : Terms) (message : Message),
        Execution.Levelled observer w (x.dispatch terms message w).1
          (x.dispatch terms message w).2.1 (x.dispatch terms message w).2.2) ∧
    (∀ (depth : Nat) (terms : Terms) (message : Message),
      (∃ o w', m.send observer depth terms message w = (.closed o, w') ∧
        m.Guarded observer depth terms message w o w') ∧
      (∀ o w₁, m.begin depth terms message w = (.done o, w₁) →
        w₁.ledger.openCount = w.ledger.openCount) ∧
      (∀ p w₁, m.begin depth terms message w = (.pending p, w₁) →
        w₁.ledger.openCount = w.ledger.openCount + 1 ∧
        ∃ o w', m.run observer depth p w₁ = (.closed o, w') ∧
          w'.ledger.openCount = w.ledger.openCount)) ∧
    (∀ (depth : Nat) (context : Context) (s : Substate),
      (∀ (call : Call) (next : CallReport → Program), ∃ o w',
        m.send observer (depth + 1) context.terms (.call call) w = (.closed o, w') ∧
        m.runCode observer depth context (.call call next) s w =
          m.runCode observer depth context (next o.ofCall) (s.absorb o) w') ∧
      (∀ (endowment gas : Quantity) (initCode : Bytes) (next : CreationReport → Program),
        ∃ o w', m.send observer (depth + 1) context.terms
            (.create ⟨context.address, endowment, gas, initCode⟩)
            (w.edit (·.bumpNonce context.address)) = (.closed o, w') ∧
          m.runCode observer depth context (.create endowment gas initCode next) s w =
            m.runCode observer depth context (next o.ofCreation) (s.absorb o) w')) := by
  refine ⟨?_, ?_, ?_⟩
  · intro x hm
    subst hm
    exact ⟨x.levelled_execute hi observer w, fun t k => x.levelled_dispatch hi observer t k w⟩
  · intro depth terms message
    exact ⟨m.send_guarded observer hi depth terms message w,
      fun o w₁ h => m.openCount_begin_of_done h,
      fun p w₁ h => m.openCount_begin_of_pending observer hi h⟩
  · intro depth context s
    constructor
    · intro call next
      obtain ⟨o, w', hs, -⟩ := m.send_closed observer hi (depth + 1) context.terms (.call call) w
      exact ⟨o, w', hs, runCode_call hs next⟩
    · intro endowment gas initCode next
      obtain ⟨o, w', hs, -⟩ := m.send_closed observer hi (depth + 1) context.terms
        (.create ⟨context.address, endowment, gas, initCode⟩)
        (w.edit (·.bumpNonce context.address))
      exact ⟨o, w', hs, runCode_create hs next⟩

theorem checkpoints_of_failing_code :
    (∃ x₁ w₁ x₂ w₂, (Execution.new (.plain .failing) 0).dispatch ⟨7, 0⟩ (.call .toSelf)
        World.plain = (.ok false, x₁, w₁) ∧ w₁.ledger.openCount = 1 ∧
      x₁.run .silent w₁ = (.ok (), x₂, w₂) ∧ w₂.ledger.openCount = 0) ∧
    (∃ o w' inner, (Machine.plain .failing).send .silent 0 ⟨7, 0⟩ (.call .toSelf) World.plain =
        (.closed o, w') ∧ w'.ledger.openCount = 0 ∧
      (Machine.plain .failing).operations .silent 0 ⟨7, 0⟩ (.call .toSelf) World.plain =
        .push :: (inner ++ [.pop .revert]) ∧
      ∀ n, World.plain.ledger.Above (World.plain.ledger.push.replay (inner.take n))) := by
  obtain ⟨hbare, hmessage, -⟩ := Machine.checkpoints_balance (.plain .failing)
    Interpreter.confined_failing .silent World.plain
  constructor
  · have hr : ((Execution.new (.plain .failing) 0).dispatch ⟨7, 0⟩ (.call .toSelf)
        World.plain).1 = .ok false := by rfl
    obtain ⟨hopen, hrun⟩ :=
      ((hbare (.new (.plain .failing) 0) rfl).2 ⟨7, 0⟩ (.call .toSelf)).of_false hr
    obtain ⟨x₂, w₂, h, hclosed⟩ := hrun none
    exact ⟨_, _, x₂, w₂, rfl, hopen, h, hclosed⟩
  · obtain ⟨⟨o, w', hs, hg⟩, -, -⟩ := hmessage 0 ⟨7, 0⟩ (.call .toSelf)
    have ho : ((Machine.plain .failing).send .silent 0 ⟨7, 0⟩ (.call .toSelf) World.plain).1 =
        .closed (.refused 0 .outOfGas) := by rfl
    cases (congrArg Prod.fst hs).symm.trans ho
    obtain ⟨inner, he, habove⟩ := hg.above (by decide)
    exact ⟨_, w', inner, hs, hg.openCount, he, habove⟩

end Transact
