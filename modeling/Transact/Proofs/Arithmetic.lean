import Transact.Proofs.ExactRuns
import Transact.Proofs.Finalization
import Transact.Proofs.Reached
import Transact.Proofs.Summaries

/-!
Executions in checked arithmetic. The intrinsic cost is taken from the gas limit when a
transaction is accepted and once more when it is executed; `Accepted.Priced` says what the
second subtraction needs to know of the first. Main statement: `arithmetic_never_faults`.
-/

namespace Transact

namespace Accepted

/-- The intrinsic cost has 64 bits, and the gas is what it leaves of the limit. -/
structure Priced (r : Rules) (a : Accepted) : Prop where
  cost : intrinsicGas r a.transaction.isCreation a.transaction.data < 2 ^ 64
  gas : a.gas.toNat + intrinsicGas r a.transaction.isCreation a.transaction.data =
    a.transaction.gasLimit.toNat

/-- The gas left once the intrinsic cost is paid, by an unguarded difference. -/
def gasExact (r : Rules) (a : Accepted) : Except Fault Quantity := do
  let intrinsic ← intrinsicGasExact r a.transaction.isCreation a.transaction.data
  let intrinsic ← Quantity.ofExact intrinsic
  a.transaction.gasLimit.subExact intrinsic

theorem gasExact_eq {r : Rules} {a : Accepted} (h : a.Priced r) : a.gasExact r = .ok a.gas := by
  have hgas := h.gas
  have hmost := a.transaction.gasLimit.le_most
  unfold gasExact
  rw [intrinsicGasExact_eq h.cost, ok_bind, Quantity.ofExact_eq_ok (by omega), ok_bind,
    Quantity.subExact_eq_ok]
  · congr 1
    ext
    rw [Quantity.toNat_sub, Quantity.toNat_ofNat]
    omega
  · rw [Quantity.le_def, Quantity.toNat_ofNat]
    omega

end Accepted

namespace Execution

variable {β : Type} [Store β]

/-- `Execution.accept` in checked arithmetic. -/
def acceptExact (x : Execution) (t : Transaction) (w : World β) :
    Except Fault (Except Error Unit × Execution × World β) :=
  match x.phase with
  | .created => do
    match ← x.machine.validateExact w.ledger t with
    | .ok a => return (.ok (), { x with phase := .accepted a }, w.edit (·.bumpNonce a.sender))
    | .error r =>
      return (.error (.rejected r.exception), { x with phase := .rejected r.exception .nothing },
        w.remarks r.remarks)
  | _ => .ok (.error (.invalidStage .accept x.stage), x, w)

/-- `Execution.start` in checked arithmetic. -/
def startExact (x : Execution) (a : Option Accepted) (terms : Terms) (message : Message)
    (w : World β) : Except Fault (Bool × Execution × World β) := do
  match ← x.machine.beginExact x.depth terms message w with
  | (.done o, w) => return (true, { x with phase := .executed a o }, w)
  | (.pending p, w) => return (false, { x with phase := .awaiting a p }, w)

/-- `Execution.execute` in checked arithmetic. The gas is found anew. -/
def executeExact (x : Execution) (w : World β) :
    Except Fault (Except Error Bool × Execution × World β) :=
  match x.phase with
  | .accepted a => do
    match ← w.ledger.debitExact a.sender (a.price a.transaction.gasLimit) with
    | .error e => return (.error (.rejected e), { x with phase := .rejected e a.commitment }, w)
    | .ok l =>
      let gas ← a.gasExact x.machine.rules
      let a := { a with gas }
      let (done, x, w) ←
        x.startExact (some a) a.terms a.message ({ w with ledger := l }.event a.event)
      return (.ok done, x, w)
  | _ => .ok (.error (.invalidStage .execute x.stage), x, w)

/-- `Execution.dispatch` in checked arithmetic. -/
def dispatchExact (x : Execution) (terms : Terms) (message : Message) (w : World β) :
    Except Fault (Except Error Bool × Execution × World β) :=
  match x.phase with
  | .created => do
    let (done, x, w) ← x.startExact none terms message w
    return (.ok done, x, w)
  | _ =>
    .ok (.error (.invalidStage (if message.isCreation then .create else .call) x.stage), x, w)

/-- `Execution.run` in checked arithmetic. -/
def runExact (x : Execution) (observer : Observer) (w : World β) :
    Except Fault (Except Error Unit × Execution × World β) :=
  match x.phase with
  | .awaiting a p => do
    let (ending, ran) ← x.machine.runExact observer x.depth p w
    let steps := if x.wanted = some true then (ran.diary.since w.diary.size).steps else []
    let x := { x with path := x.path ++ steps.map Step.onPath }
    match ending with
    | .closed o => return (.ok (), { x with phase := .executed a o }, ran)
    | .uneven o => return (.error .uneven, { x with phase := .stuck a o }, ran)
  | _ => .ok (.error (.invalidStage .run x.stage), x, w)

/-- `Scene.perform` in checked arithmetic. Finalization is checked as it stands, and the
rest needs no arithmetic. -/
def Scene.performExact (s : Scene β) : Command → Except Fault (Reply × Scene β)
  | .accept t => do
    let (r, x, w) ← s.execution.acceptExact t s.world
    return s.after (.ofUnit r) x w
  | .execute => do
    let (r, x, w) ← s.execution.executeExact s.world
    return s.after (.ofBool r) x w
  | .dispatch terms message => do
    let (r, x, w) ← s.execution.dispatchExact terms message s.world
    return s.after (.ofBool r) x w
  | .run observer => do
    let (r, x, w) ← s.execution.runExact observer s.world
    return s.after (.ofUnit r) x w
  | c => s.perform c

/-- `Scene.performAll` in checked arithmetic. -/
def Scene.performAllExact (s : Scene β) : List Command → Except Fault (List Reply × Scene β)
  | [] => .ok ([], s)
  | c :: cs => do
    let (r, s) ← s.performExact c
    let (rs, s) ← s.performAllExact cs
    return (c.reported r ++ rs, s)

section Exact

variable {x : Execution} (w : World β)

theorem acceptExact_eq {t : Transaction}
    (h : intrinsicGas x.machine.rules t.isCreation t.data < 2 ^ 64) :
    x.acceptExact t w = .ok (x.accept t w) := by
  unfold acceptExact accept
  cases x.phase with
  | created =>
    dsimp only
    rw [Machine.validateExact_eq _ h]
    cases x.machine.validate w.ledger t <;> rfl
  | _ => rfl

theorem startExact_eq (a : Option Accepted) (terms : Terms) (message : Message) :
    x.startExact a terms message w = .ok (x.start a terms message w) := by
  unfold startExact start
  rw [Machine.beginExact_eq]
  rcases x.machine.begin x.depth terms message w with ⟨o | p, w'⟩ <;> rfl

theorem executeExact_eq (h : ∀ a, x.phase = .accepted a → a.Priced x.machine.rules) :
    x.executeExact w = .ok (x.execute w) := by
  unfold executeExact execute
  cases hx : x.phase with
  | accepted a =>
    dsimp only
    rw [Ledger.debitExact_eq, ok_bind]
    cases w.ledger.debit a.sender (a.price a.transaction.gasLimit) with
    | error e => rfl
    | ok l =>
      dsimp only
      rw [Accepted.gasExact_eq (h a hx), ok_bind, startExact_eq]
      rfl
  | _ => rfl

theorem dispatchExact_eq (terms : Terms) (message : Message) :
    x.dispatchExact terms message w = .ok (x.dispatch terms message w) := by
  unfold dispatchExact dispatch
  cases x.phase with
  | created =>
    dsimp only
    rw [startExact_eq]
    rfl
  | _ => rfl

theorem runExact_eq (hr : x.machine.rules.depositGas < 2 ^ 64)
    (hi : x.machine.interpreter.Sized) (observer : Observer) :
    x.runExact observer w = .ok (x.run observer w) := by
  unfold runExact run
  cases x.phase with
  | awaiting a p =>
    dsimp only
    rw [Machine.runExact_eq hr hi, ok_bind]
    rcases x.machine.run observer x.depth p w with ⟨o | o, ran⟩ <;> rfl
  | _ => rfl

end Exact

/-- What keeps the arithmetic of `x` in range. -/
structure InRange (x : Execution) : Prop where
  quotient : 0 < x.machine.rules.refundQuotient
  deposit : x.machine.rules.depositGas < 2 ^ 64
  interpreter : x.machine.interpreter.Sized
  accepted : ∀ a, x.phase = .accepted a → a.Priced x.machine.rules

/-- A transaction whose intrinsic cost has 64 bits, if any is brought in. -/
def Command.InRange (r : Rules) : Command → Prop
  | .accept t => intrinsicGas r t.isCreation t.data < 2 ^ 64
  | _ => True

variable {s s' : Scene β} {c : Command} {r : Reply}

/-- Checking changes nothing. -/
theorem performExact_eq (hs : s.execution.InRange)
    (hc : c.InRange s.execution.machine.rules) : s.performExact c = s.perform c := by
  unfold Scene.performExact Scene.perform
  cases c with
  | accept t =>
    dsimp only
    rw [acceptExact_eq s.world hc]
    rfl
  | execute =>
    dsimp only
    rw [executeExact_eq s.world hs.accepted]
    rfl
  | dispatch terms message =>
    dsimp only
    rw [dispatchExact_eq]
    rfl
  | run observer =>
    dsimp only
    rw [runExact_eq s.world hs.deposit hs.interpreter]
    rfl
  | _ => rfl

/-- No command faults. -/
theorem exists_perform_eq_ok (hq : 0 < s.execution.machine.rules.refundQuotient) (c : Command) :
    ∃ r s', s.perform c = .ok (r, s') := by
  cases c with
  | finalize =>
    obtain ⟨r, x, w, hf⟩ : ∃ r x w, s.execution.finalize s.world = .ok (r, x, w) := by
      by_cases hx : ∃ a o, s.execution.phase = .executed (some a) o
      · obtain ⟨a, o, hx⟩ := hx
        obtain ⟨o', refunded, -, hf⟩ := finalize_eq_ok hx (.inl hq) s.world
        exact ⟨_, _, _, hf⟩
      · unfold finalize
        split
        · next a o h => exact absurd ⟨a, o, h⟩ hx
        · exact ⟨_, _, _, rfl⟩
    unfold Scene.perform
    rw [hf]
    exact ⟨_, _, rfl⟩
  | _ => exact ⟨_, _, rfl⟩

/-! Only acceptance brings a transaction in. -/

section Accepted

variable {x x' : Execution} {a : Accepted} {w w' : World β}

theorem phase_start_ne (b : Option Accepted) (terms : Terms) (message : Message) :
    (x.start b terms message w).2.1.phase ≠ .accepted a := by
  unfold start
  rcases x.machine.begin x.depth terms message w with ⟨o | p, w'⟩ <;> exact Phase.noConfusion

theorem accepted_of_accept {t : Transaction} (h : (x.accept t w).2.1.phase = .accepted a) :
    x.phase = .accepted a ∨ x.machine.validate w.ledger t = .ok a := by
  unfold accept at h
  split at h
  · cases hv : x.machine.validate w.ledger t with
    | error e =>
      rw [hv] at h
      cases h
    | ok b =>
      rw [hv] at h
      cases h
      exact .inr rfl
  · exact .inl h

theorem accepted_of_execute (h : (x.execute w).2.1.phase = .accepted a) :
    x.phase = .accepted a := by
  unfold execute at h
  split at h
  · split at h
    · cases h
    · exact absurd h (phase_start_ne _ _ _)
  · exact h

theorem accepted_of_dispatch {terms : Terms} {message : Message}
    (h : (x.dispatch terms message w).2.1.phase = .accepted a) : x.phase = .accepted a := by
  unfold dispatch at h
  split at h
  · exact absurd h (phase_start_ne _ _ _)
  · exact h

theorem accepted_of_run {observer : Observer}
    (h : (x.run observer w).2.1.phase = .accepted a) : x.phase = .accepted a := by
  unfold run at h
  split at h
  · dsimp only at h
    split at h <;> cases h
  · exact h

theorem accepted_of_finalize {r : Except Error Unit} (hf : x.finalize w = .ok (r, x', w'))
    (h : x'.phase = .accepted a) : x.phase = .accepted a := by
  unfold finalize at hf
  split at hf
  · next b _ _ =>
    obtain ⟨⟨o, refunded⟩, -, hf⟩ := bind_eq_ok.mp hf
    obtain ⟨o', logs, hphase⟩ := x.phase_conclude b o refunded w
    cases hf
    cases hphase.symm.trans h
  · cases hf
    exact h

theorem accepted_of_handOver {parent : Substate}
    (h : (x.handOver parent).2.1.phase = .accepted a) : x.phase = .accepted a := by
  unfold handOver at h
  split at h
  · split at h
    · exact h
    · cases h
  · exact h

end Accepted

theorem accepted_of_perform {a : Accepted} (h : s.perform c = .ok (r, s'))
    (ha : s'.execution.phase = .accepted a) :
    s.execution.phase = .accepted a ∨
      ∃ t, c = .accept t ∧ s.execution.machine.validate s.world.ledger t = .ok a := by
  cases c with
  | accept t =>
    cases h
    exact (accepted_of_accept ha).imp_right fun hv => ⟨t, rfl, hv⟩
  | execute =>
    cases h
    exact .inl (accepted_of_execute ha)
  | dispatch terms message =>
    cases h
    exact .inl (accepted_of_dispatch ha)
  | run observer =>
    cases h
    exact .inl (accepted_of_run ha)
  | finalize =>
    obtain ⟨done, x, w, hf, -, rfl⟩ := finalize_of_perform h
    exact .inl (accepted_of_finalize hf ha)
  | handOver =>
    cases h
    exact .inl (accepted_of_handOver ha)
  | requestSummary withPath =>
    cases h
    exact .inl ha
  | takeSummary =>
    cases h
    exact .inl ha

/-! Sequences of commands. -/

theorem inRange_perform (hs : s.execution.InRange)
    (hc : c.InRange s.execution.machine.rules) (h : s.perform c = .ok (r, s')) :
    s'.execution.InRange := by
  have hm := (Follows.perform h).machine
  refine ⟨hm ▸ hs.quotient, hm ▸ hs.deposit, hm ▸ hs.interpreter, ?_⟩
  intro a ha
  rw [hm]
  rcases accepted_of_perform h ha with ha | ⟨t, rfl, hv⟩
  · exact hs.accepted a ha
  · obtain ⟨rfl, hadmits⟩ := Machine.admits_of_validate hv
    exact ⟨hc, hadmits.gas⟩

/-- By induction on the commands: each one keeps the arithmetic of the next in range. -/
theorem performAllExact_eq_ok {cs : List Command} (hs : s.execution.InRange)
    (hcs : ∀ c ∈ cs, c.InRange s.execution.machine.rules) :
    ∃ rs s', s.performAllExact cs = .ok (rs, s') ∧ s.performAll cs = .ok (rs, s') := by
  induction cs generalizing s with
  | nil => exact ⟨[], s, rfl, rfl⟩
  | cons c cs ih =>
    obtain ⟨hc, hcs⟩ := List.forall_mem_cons.mp hcs
    obtain ⟨r, s₁, h⟩ := exists_perform_eq_ok hs.quotient c
    have hm := (Follows.perform h).machine
    obtain ⟨rs, s₂, hexact, hall⟩ := ih (inRange_perform hs hc h) (by rwa [hm])
    have hchecked : s.performExact c = .ok (r, s₁) := (performExact_eq hs hc).trans h
    refine ⟨c.reported r ++ rs, s₂, ?_, ?_⟩
    · exact bind_eq_ok.mpr ⟨_, hchecked, bind_eq_ok.mpr ⟨_, hexact, rfl⟩⟩
    · exact bind_eq_ok.mpr ⟨_, h, bind_eq_ok.mpr ⟨_, hall, rfl⟩⟩

/-- Whatever a new execution is asked to do and in whatever order, no sum, product,
difference, quotient or conversion leaves its range, provided that the intrinsic costs of
its transactions have 64 bits and refunds have a quotient. Interpreters may report any gas
and reach past their interface. -/
theorem arithmetic_never_faults {m : Machine} (hq : 1 ≤ m.rules.refundQuotient)
    (hr : m.rules.depositGas < 2 ^ 64) (hi : m.interpreter.Sized) (depth : Nat)
    (parent : Substate) (w : World β) (cs : List Command)
    (hcs : ∀ t, .accept t ∈ cs → intrinsicGas m.rules t.isCreation t.data < 2 ^ 64) :
    ∃ rs s', (⟨.new m depth, parent, w⟩ : Scene β).performAllExact cs = .ok (rs, s') ∧
      (⟨.new m depth, parent, w⟩ : Scene β).performAll cs = .ok (rs, s') := by
  refine performAllExact_eq_ok ⟨hq, hr, hi, fun a ha => Phase.noConfusion ha⟩ ?_
  intro c hc
  cases c with
  | accept t => exact hcs t hc
  | _ => trivial

end Execution

/-- Code that reports as much gas left as there can be. -/
def Interpreter.boasting : Interpreter := fun _ => .halt ⟨.ofNat Quantity.most, [], none⟩

open Execution in
theorem arithmetic_of_boasting_code :
    ∃ (rs : List Reply) (s : Scene State),
      (⟨.new (.plain .boasting) 0, ∅, .plain⟩ : Scene State).performAllExact
        [.finalize, .accept .toSelf, .execute, .run .silent, .finalize] = .ok (rs, s) ∧
      s.execution.outcome.gas.toNat = Quantity.most := by
  obtain ⟨rs, s, h, hall⟩ := arithmetic_never_faults (m := .plain .boasting) (by decide)
    (by decide) (fun _ => Nat.two_pow_pos 64) 0 ∅ World.plain
    [.finalize, .accept .toSelf, .execute, .run .silent, .finalize] (by
      intro t ht
      have ht : t = .toSelf := by simpa using ht
      subst ht
      decide)
  refine ⟨rs, s, h, ?_⟩
  cases hall
  rfl

end Transact
