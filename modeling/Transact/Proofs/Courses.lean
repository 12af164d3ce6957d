import Transact.Proofs.Checkpoints
import Transact.Proofs.Finalization
import Transact.Proofs.Reached

/-!
What an execution goes through while nobody else writes to its ledger, whatever is asked
of it and in whatever order. `Scene.Acts` lists what one command does, and `Stands` how
an execution can stand after any of them. Main statement: `Scene.Course.stands`.
-/

namespace Transact

theorem Machine.send_of_done {β : Type} [Store β] (m : Machine) (observer : Observer)
    {depth : Nat} {terms : Terms} {message : Message} {w w' : World β} {o : Outcome}
    (h : m.begin depth terms message w = (.done o, w')) :
    m.send observer depth terms message w = (.closed o, w') := by
  unfold send
  rw [h]

theorem Machine.send_of_pending {β : Type} [Store β] (m : Machine) (observer : Observer)
    {depth : Nat} {terms : Terms} {message : Message} {w w' : World β} {p : Pending}
    (h : m.begin depth terms message w = (.pending p, w')) :
    m.send observer depth terms message w = m.run observer depth p w' := by
  unfold send
  rw [h]

namespace Execution

/-! One command. -/

/-- Whether a command is not refused. -/
def Command.Fits : Command → Phase → Prop
  | .accept _, .created | .dispatch .., .created | .execute, .accepted _ | .run _, .awaiting ..
  | .finalize, .executed (some _) _ | .handOver, .executed .. => True
  | _, _ => False

/-- The operation that a refused command is told of. -/
def Command.operation : Command → Option Operation
  | .accept _ => some .accept
  | .execute => some .execute
  | .dispatch _ message => some (if message.isCreation then .create else .call)
  | .run _ => some .run
  | .finalize => some .finalize
  | .handOver => some .handOver
  | .requestSummary _ | .takeSummary => none

variable {β : Type} [Store β]

/-- The message that a command begins: for which transaction, and in which world. -/
inductive Scene.Begins (s : Scene β) :
    Command → Option Accepted → Terms → Message → World β → Prop
  | transaction {a : Accepted} {l : Ledger β} (hx : s.execution.phase = .accepted a)
      (hd : s.world.ledger.debit a.sender (a.price a.transaction.gasLimit) = .ok l) :
      s.Begins .execute (some a) a.terms a.message ({ s.world with ledger := l }.event a.event)
  | bare {terms : Terms} {message : Message} (hx : s.execution.phase = .created) :
      s.Begins (.dispatch terms message) none terms message s.world

/-- What a command does, and what it replies. -/
inductive Scene.Acts (s : Scene β) : Command → Reply → Scene β → Prop
  | refused {c : Command} {op : Operation} (hc : c.operation = some op)
      (hx : ¬ c.Fits s.execution.phase) :
      s.Acts c (.error (.invalidStage op s.execution.stage)) s
  | excepted {a : Option Accepted} {o : Outcome} {e : Exception}
      (hx : s.execution.phase = .executed a o) (ho : o.exception = some e) :
      s.Acts .handOver (.error (.exceptedSubstate e)) s
  | accepted {t : Transaction} {a : Accepted} (hx : s.execution.phase = .created)
      (hv : s.execution.machine.validate s.world.ledger t = .ok a) :
      s.Acts (.accept t) .ok ⟨{ s.execution with phase := .accepted a }, s.parent,
        s.world.edit (·.bumpNonce a.sender)⟩
  | rejected {t : Transaction} {r : Rejection} (hx : s.execution.phase = .created)
      (hv : s.execution.machine.validate s.world.ledger t = .error r) :
      s.Acts (.accept t) (.error (.rejected r.exception))
        ⟨{ s.execution with phase := .rejected r.exception .nothing }, s.parent,
          s.world.remarks r.remarks⟩
  | unpaid {a : Accepted} {e : Exception} (hx : s.execution.phase = .accepted a)
      (hd : s.world.ledger.debit a.sender (a.price a.transaction.gasLimit) = .error e) :
      s.Acts .execute (.error (.rejected e))
        ⟨{ s.execution with phase := .rejected e a.commitment }, s.parent, s.world⟩
  | done {c : Command} {a : Option Accepted} {terms : Terms} {message : Message}
      {w w' : World β} {o : Outcome} (hc : s.Begins c a terms message w)
      (hb : s.execution.machine.begin s.execution.depth terms message w = (.done o, w')) :
      s.Acts c (.done true) ⟨{ s.execution with phase := .executed a o }, s.parent, w'⟩
  | pending {c : Command} {a : Option Accepted} {terms : Terms} {message : Message}
      {w w' : World β} {p : Pending} (hc : s.Begins c a terms message w)
      (hb : s.execution.machine.begin s.execution.depth terms message w = (.pending p, w')) :
      s.Acts c (.done false) ⟨{ s.execution with phase := .awaiting a p }, s.parent, w'⟩
  | ran {observer : Observer} {a : Option Accepted} {p : Pending} {o : Outcome}
      {path : List PathStep} {w' : World β} (hx : s.execution.phase = .awaiting a p)
      (hr : s.execution.machine.run observer s.execution.depth p s.world = (.closed o, w')) :
      s.Acts (.run observer) .ok
        ⟨{ s.execution with phase := .executed a o, path }, s.parent, w'⟩
  | stuck {observer : Observer} {a : Option Accepted} {p : Pending} {o : Outcome}
      {path : List PathStep} {w' : World β} (hx : s.execution.phase = .awaiting a p)
      (hr : s.execution.machine.run observer s.execution.depth p s.world = (.uneven o, w')) :
      s.Acts (.run observer) (.error .uneven)
        ⟨{ s.execution with phase := .stuck a o, path }, s.parent, w'⟩
  | handedOver {a : Option Accepted} {o : Outcome} (hx : s.execution.phase = .executed a o)
      (ho : o.exception = none) :
      s.Acts .handOver .ok ⟨{ s.execution with phase := .executed a { o with substate := ∅ } },
        s.parent.join o.substate, s.world⟩
  | finalized {a : Accepted} {o o' : Outcome} {refunded : Quantity}
      (hx : s.execution.phase = .executed (some a) o)
      (hr : refund s.execution.machine.rules a o = .ok (o', refunded)) :
      s.Acts .finalize .ok ⟨(s.execution.conclude a o' refunded s.world).1, s.parent,
        (s.execution.conclude a o' refunded s.world).2⟩
  | requested {withPath : Bool} : s.Acts (.requestSummary withPath) .ok
      ⟨s.execution.requestSummary withPath, s.parent, s.world⟩
  | taken : s.Acts .takeSummary (.summary s.execution.summary)
      ⟨{ s.execution with summary := none }, s.parent, s.world⟩

namespace Scene

variable (s : Scene β)

theorem acts_accept (t : Transaction) :
    s.Acts (.accept t) (.ofUnit (s.execution.accept t s.world).1)
      ⟨(s.execution.accept t s.world).2.1, s.parent, (s.execution.accept t s.world).2.2⟩ := by
  unfold Execution.accept
  cases hx : s.execution.phase with
  | created =>
    dsimp only
    cases hv : s.execution.machine.validate s.world.ledger t with
    | error r => exact .rejected hx hv
    | ok a => exact .accepted hx hv
  | _ => exact .refused rfl (by rw [hx]; exact id)

theorem acts_start {c : Command} {a : Option Accepted} {terms : Terms} {message : Message}
    {w : World β} (hc : s.Begins c a terms message w) :
    s.Acts c (.done (s.execution.start a terms message w).1)
      ⟨(s.execution.start a terms message w).2.1, s.parent,
        (s.execution.start a terms message w).2.2⟩ := by
  unfold Execution.start
  rcases hb : s.execution.machine.begin s.execution.depth terms message w with ⟨o | p, w'⟩
  · exact .done hc hb
  · exact .pending hc hb

theorem acts_execute :
    s.Acts .execute (.ofBool (s.execution.execute s.world).1)
      ⟨(s.execution.execute s.world).2.1, s.parent, (s.execution.execute s.world).2.2⟩ := by
  unfold Execution.execute
  cases hx : s.execution.phase with
  | accepted a =>
    dsimp only
    cases hd : s.world.ledger.debit a.sender (a.price a.transaction.gasLimit) with
    | error e => exact .unpaid hx hd
    | ok l => exact s.acts_start (.transaction hx hd)
  | _ => exact .refused rfl (by rw [hx]; exact id)

theorem acts_dispatch (terms : Terms) (message : Message) :
    s.Acts (.dispatch terms message)
      (.ofBool (s.execution.dispatch terms message s.world).1)
      ⟨(s.execution.dispatch terms message s.world).2.1, s.parent,
        (s.execution.dispatch terms message s.world).2.2⟩ := by
  unfold Execution.dispatch
  cases hx : s.execution.phase with
  | created => exact s.acts_start (.bare hx)
  | _ => exact .refused rfl (by rw [hx]; exact id)

theorem acts_run (observer : Observer) :
    s.Acts (.run observer) (.ofUnit (s.execution.run observer s.world).1)
      ⟨(s.execution.run observer s.world).2.1, s.parent,
        (s.execution.run observer s.world).2.2⟩ := by
  unfold Execution.run
  cases hx : s.execution.phase with
  | awaiting a p =>
    dsimp only
    rcases hr : s.execution.machine.run observer s.execution.depth p s.world with ⟨o | o, w'⟩
    · exact .ran hx hr
    · exact .stuck hx hr
  | _ => exact .refused rfl (by rw [hx]; exact id)

theorem acts_handOver :
    s.Acts .handOver (.ofUnit (s.execution.handOver s.parent).1)
      ⟨(s.execution.handOver s.parent).2.1, (s.execution.handOver s.parent).2.2, s.world⟩ := by
  unfold Execution.handOver
  cases hx : s.execution.phase with
  | executed a o =>
    dsimp only
    cases ho : o.exception with
    | some e => exact .excepted hx ho
    | none =>
      have h : s.Acts .handOver .ok _ := .handedOver hx ho
      rw [ho] at h
      exact h
  | _ => exact .refused rfl (by rw [hx]; exact id)

theorem acts_finalize {r : Except Error Unit} {x : Execution} {w : World β}
    (h : s.execution.finalize s.world = .ok (r, x, w)) :
    s.Acts .finalize (.ofUnit r) ⟨x, s.parent, w⟩ := by
  unfold Execution.finalize at h
  cases hx : s.execution.phase with
  | executed a o =>
    rw [hx] at h
    cases a with
    | none =>
      cases h
      exact .refused rfl (by rw [hx]; exact id)
    | some a =>
      dsimp only at h
      cases hr : refund s.execution.machine.rules a o with
      | error f =>
        rw [hr] at h
        cases h
      | ok paid =>
        rw [hr] at h
        cases h
        exact .finalized hx hr
  | _ =>
    rw [hx] at h
    cases h
    exact .refused rfl (by rw [hx]; exact id)

/-- A command does nothing else. -/
theorem acts_of_perform {s s' : Scene β} {c : Command} {r : Reply}
    (h : s.perform c = .ok (r, s')) : s.Acts c r s' := by
  cases c with
  | accept t =>
    cases h
    exact s.acts_accept t
  | execute =>
    cases h
    exact s.acts_execute
  | dispatch terms message =>
    cases h
    exact s.acts_dispatch terms message
  | run observer =>
    cases h
    exact s.acts_run observer
  | finalize =>
    obtain ⟨done, x, w, hf, rfl, rfl⟩ := finalize_of_perform h
    exact s.acts_finalize hf
  | handOver =>
    cases h
    exact s.acts_handOver
  | requestSummary withPath =>
    cases h
    exact .requested
  | takeSummary =>
    cases h
    exact .taken

end Scene

/-! Commands in a row. -/

/-- A command and what was replied to it. -/
abbrev Turn := Command × Reply

/-- One command after the other. In between, another substate may be offered to take up
that of the execution. -/
inductive Scene.Course (s : Scene β) : List Turn → Scene β → Prop
  | nil : s.Course [] s
  | offer {turns : List Turn} {t : Scene β} (h : s.Course turns t) (parent : Substate) :
      s.Course turns { t with parent }
  | snoc {turns : List Turn} {t t' : Scene β} {c : Command} {r : Reply} (h : s.Course turns t)
      (hp : t.perform c = .ok (r, t')) : s.Course (turns ++ [(c, r)]) t'

/-- The task that an execution was made to take up. -/
inductive TakenUp (turns : List Turn) : Task → Prop
  | transaction {t : Transaction} (h : (.accept t, .ok) ∈ turns) : TakenUp turns (.transaction t)
  | message {terms : Terms} {message : Message} {b : Bool}
      (h : (.dispatch terms message, .done b) ∈ turns) : TakenUp turns (.message terms message)

/-- The message that `m` sends for a task taken up in the world `w`: for which
transaction, and in which world it begins. -/
inductive Sends (m : Machine) (w : World β) :
    Task → Option Accepted → Terms → Message → World β → Prop
  | transaction {a : Accepted} (hv : m.validate w.ledger a.transaction = .ok a) :
      Sends m w (.transaction a.transaction) (some a) a.terms a.message (a.charge w)
  | message {terms : Terms} {message : Message} :
      Sends m w (.message terms message) none terms message w

/-- The same outcome, its substate handed over or not. -/
inductive Passed (o : Outcome) : Outcome → Prop
  | kept : Passed o o
  | handed (ho : o.exception = none) : Passed o { o with substate := ∅ }

/-- How far an execution is that was new in the world `w`, and what became of the
world. -/
inductive Stands (m : Machine) (depth : Nat) (w : World β) (turns : List Turn) :
    Phase → World β → Prop
  | created : Stands m depth w turns .created w
  | rejected {t : Transaction} {r : Rejection} (hv : m.validate w.ledger t = .error r) :
      Stands m depth w turns (.rejected r.exception .nothing) (w.remarks r.remarks)
  | accepted {a : Accepted} (ht : TakenUp turns (.transaction a.transaction))
      (hv : m.validate w.ledger a.transaction = .ok a) :
      Stands m depth w turns (.accepted a) (w.edit (·.bumpNonce a.sender))
  | awaiting {task : Task} {a : Option Accepted} {terms : Terms} {message : Message}
      {w₀ w₁ : World β} {p : Pending} (ht : TakenUp turns task)
      (hs : Sends m w task a terms message w₀)
      (hb : m.begin depth terms message w₀ = (.pending p, w₁)) :
      Stands m depth w turns (.awaiting a p) w₁
  | executed {task : Task} {a : Option Accepted} {terms : Terms} {message : Message}
      {w₀ w₁ : World β} {observer : Observer} {o o' : Outcome} (ht : TakenUp turns task)
      (hs : Sends m w task a terms message w₀)
      (hrun : (∃ o, (m.begin depth terms message w₀).1 = .done o) ∨ (.run observer, .ok) ∈ turns)
      (hc : m.send observer depth terms message w₀ = (.closed o, w₁)) (ho : Passed o o') :
      Stands m depth w turns (.executed a o') w₁
  | finalized {x : Execution} {a : Accepted} {w₁ : World β} {observer : Observer}
      {o o' paid final : Outcome} {refunded : Quantity} {logs : List LogEntry}
      (ht : TakenUp turns (.transaction a.transaction))
      (hv : m.validate w.ledger a.transaction = .ok a)
      (hrun : (∃ o, (m.begin depth a.terms a.message (a.charge w)).1 = .done o) ∨
        (.run observer, .ok) ∈ turns)
      (hc : m.send observer depth a.terms a.message (a.charge w) = (.closed o, w₁))
      (ho : Passed o o') (hm : x.machine = m) (hr : refund m.rules a o' = .ok (paid, refunded))
      (hx : (x.conclude a paid refunded w₁).1.phase = .finalized a final logs) :
      Stands m depth w turns (.finalized a final logs) (x.conclude a paid refunded w₁).2

variable {m : Machine} {depth : Nat} {w v : World β} {turns turns' : List Turn} {phase : Phase}

theorem TakenUp.mono {task : Task} (h : TakenUp turns task) (hsub : turns ⊆ turns') :
    TakenUp turns' task := by
  cases h with
  | transaction h => exact .transaction (hsub h)
  | message h => exact .message (hsub h)

namespace Stands

theorem mono (h : Stands m depth w turns phase v) (hsub : turns ⊆ turns') :
    Stands m depth w turns' phase v := by
  cases h with
  | created => exact .created
  | rejected hv => exact .rejected hv
  | accepted ht hv => exact .accepted (ht.mono hsub) hv
  | awaiting ht hs hb => exact .awaiting (ht.mono hsub) hs hb
  | executed ht hs hrun hc ho =>
    exact .executed (ht.mono hsub) hs (hrun.imp_right fun h => hsub h) hc ho
  | finalized ht hv hrun hc ho hm hr hx =>
    exact .finalized (ht.mono hsub) hv (hrun.imp_right fun h => hsub h) hc ho hm hr hx

theorem of_created (h : Stands m depth w turns .created v) : v = w := by
  cases h
  rfl

theorem of_accepted {a : Accepted} (h : Stands m depth w turns (.accepted a) v) :
    TakenUp turns (.transaction a.transaction) ∧ m.validate w.ledger a.transaction = .ok a ∧
      v = w.edit (·.bumpNonce a.sender) := by
  cases h with
  | accepted ht hv => exact ⟨ht, hv, rfl⟩

theorem of_awaiting {a : Option Accepted} {p : Pending}
    (h : Stands m depth w turns (.awaiting a p) v) :
    ∃ task terms message w₀, TakenUp turns task ∧ Sends m w task a terms message w₀ ∧
      m.begin depth terms message w₀ = (.pending p, v) := by
  cases h with
  | awaiting ht hs hb => exact ⟨_, _, _, _, ht, hs, hb⟩

theorem of_executed {a : Option Accepted} {o' : Outcome}
    (h : Stands m depth w turns (.executed a o') v) :
    ∃ task terms message w₀ observer o, TakenUp turns task ∧
      Sends m w task a terms message w₀ ∧
      ((∃ o, (m.begin depth terms message w₀).1 = .done o) ∨ (.run observer, .ok) ∈ turns) ∧
      m.send observer depth terms message w₀ = (.closed o, v) ∧ Passed o o' := by
  cases h with
  | executed ht hs hrun hc ho => exact ⟨_, _, _, _, _, _, ht, hs, hrun, hc, ho⟩

/-- The gas of an accepted transaction can be bought: nothing was written since. -/
theorem begins {s : Scene β} (h : Stands m depth w turns s.execution.phase s.world)
    {c : Command} {a : Option Accepted} {terms : Terms} {message : Message} {w₀ : World β}
    (hb : s.Begins c a terms message w₀) (b : Bool) :
    ∃ task, TakenUp (turns ++ [(c, .done b)]) task ∧ Sends m w task a terms message w₀ := by
  cases hb with
  | bare hx =>
    rw [hx] at h
    rw [h.of_created]
    exact ⟨_, .message (List.mem_append_right _ (List.mem_singleton.mpr rfl)), .message⟩
  | @transaction a l hx hd =>
    rw [hx] at h
    obtain ⟨ht, hv, hw⟩ := h.of_accepted
    have he : (w.ledger.bumpNonce a.sender).debit a.sender (a.price a.transaction.gasLimit) = _ :=
      (Machine.admits_of_validate hv).2.debit_eq
    rw [hw] at hd ⊢
    cases he.symm.trans hd
    exact ⟨_, ht.mono (List.subset_append_left _ _), .transaction hv⟩

/-- What a command leads to. -/
theorem acts (hi : m.interpreter.Confined) {s s' : Scene β} {c : Command} {r : Reply}
    (hm : s.execution.machine = m) (hdepth : s.execution.depth = depth)
    (h : Stands m depth w turns s.execution.phase s.world) (ha : s.Acts c r s') :
    Stands m depth w (turns ++ [(c, r)]) s'.execution.phase s'.world := by
  have hsub : turns ⊆ turns ++ [(c, r)] := List.subset_append_left _ _
  have hlast : (c, r) ∈ turns ++ [(c, r)] :=
    List.mem_append_right _ (List.mem_singleton.mpr rfl)
  cases ha with
  | refused => exact h.mono hsub
  | excepted => exact h.mono hsub
  | requested => exact h.mono hsub
  | taken => exact h.mono hsub
  | done hc hb =>
    obtain ⟨task, ht, hs⟩ := h.begins hc true
    subst hm hdepth
    have hclosed := s.execution.machine.send_of_done .silent hb
    exact .executed ht hs (.inl ⟨_, congrArg Prod.fst hb⟩) hclosed .kept
  | pending hc hb =>
    obtain ⟨task, ht, hs⟩ := h.begins hc false
    subst hm hdepth
    exact .awaiting ht hs hb
  | accepted hx hv =>
    rw [hx] at h
    rw [hm, h.of_created] at hv
    obtain ⟨rfl, -⟩ := Machine.admits_of_validate hv
    dsimp only
    rw [h.of_created]
    exact .accepted (.transaction hlast) hv
  | rejected hx hv =>
    rw [hx] at h
    rw [hm, h.of_created] at hv
    dsimp only
    rw [h.of_created]
    exact .rejected hv
  | unpaid hx hd =>
    rw [hx] at h
    obtain ⟨-, hv, hw⟩ := h.of_accepted
    have he : (w.ledger.bumpNonce _).debit _ _ = _ := (Machine.admits_of_validate hv).2.debit_eq
    rw [hw] at hd
    cases he.symm.trans hd
  | ran hx hr =>
    rw [hx] at h
    obtain ⟨task, terms, message, w₀, ht, hs, hb⟩ := h.of_awaiting
    subst hm hdepth
    exact .executed (ht.mono hsub) hs (.inr hlast)
      ((s.execution.machine.send_of_pending _ hb).trans hr) .kept
  | stuck hx hr =>
    rw [hx] at h
    obtain ⟨task, terms, message, w₀, -, -, hb⟩ := h.of_awaiting
    subst hm hdepth
    obtain ⟨-, o, w', hclosed, -⟩ :=
      s.execution.machine.openCount_begin_of_pending _ hi hb
    cases hclosed.symm.trans hr
  | handedOver hx ho =>
    rw [hx] at h
    obtain ⟨task, terms, message, w₀, observer, o, ht, hs, hrun, hc, hp⟩ := h.of_executed
    refine .executed (ht.mono hsub) hs (hrun.imp_right fun h => hsub h) hc ?_
    cases hp with
    | kept => exact .handed ho
    | handed hnone => exact .handed hnone
  | @finalized a o paid refunded hx hr =>
    obtain ⟨final, logs, hphase⟩ := s.execution.phase_conclude a paid refunded s.world
    rw [hx] at h
    obtain ⟨task, terms, message, w₀, observer, o, ht, hs, hrun, hc, hp⟩ := h.of_executed
    rw [hm] at hr
    dsimp only
    rw [hphase]
    cases hs with
    | transaction hv =>
      exact .finalized (ht.mono hsub) hv (hrun.imp_right fun h => hsub h) hc hp hm hr hphase

end Stands

/-- Whatever was asked of a new execution. -/
theorem Scene.Course.stands (hi : m.interpreter.Confined) {parent : Substate} {s : Scene β}
    (h : Scene.Course ⟨.new m depth, parent, w⟩ turns s) :
    s.execution.machine = m ∧ s.execution.depth = depth ∧
      Stands m depth w turns s.execution.phase s.world := by
  induction h with
  | nil => exact ⟨rfl, rfl, .created⟩
  | offer _ _ ih => exact ih
  | snoc _ hp ih =>
    obtain ⟨hm, hd, hs⟩ := ih
    have hf := Follows.perform hp
    exact ⟨hf.machine.trans hm, hf.depth.trans hd,
      hs.acts hi hm hd (Scene.acts_of_perform hp)⟩

/-! What is reported of a message does not change any more. -/

theorem outcome_of_executed {x : Execution} {a : Option Accepted} {o : Outcome}
    (hx : x.phase = .executed a o) : x.outcome = o := by
  unfold outcome
  rw [hx]

theorem outcome_of_finalized {x : Execution} {a : Accepted} {o : Outcome} {logs : List LogEntry}
    (hx : x.phase = .finalized a o logs) : x.outcome = o := by
  unfold outcome
  rw [hx]

/-- `o'` reports what `o` does. If it reports a success, gas may have been refunded and
side effects given away. -/
structure Keeps (o o' : Outcome) : Prop where
  newAddress : o'.newAddress = o.newAddress
  exception : o'.exception = o.exception
  output : o'.output = o.output
  deposit : o'.deposit = o.deposit
  eq_of_exception : o.exception ≠ none → o' = o

theorem Keeps.refl (o : Outcome) : Keeps o o := ⟨rfl, rfl, rfl, rfl, fun _ => rfl⟩

theorem Keeps.trans {o o' o'' : Outcome} (h : Keeps o o') (h' : Keeps o' o'') : Keeps o o'' where
  newAddress := h'.newAddress.trans h.newAddress
  exception := h'.exception.trans h.exception
  output := h'.output.trans h.output
  deposit := h'.deposit.trans h.deposit
  eq_of_exception hne := by
    have he := h.eq_of_exception hne
    rw [h'.eq_of_exception (he ▸ hne), he]

theorem Passed.keeps {o o' : Outcome} (h : Passed o o') : Keeps o o' := by
  cases h with
  | kept => exact .refl o
  | handed ho => exact ⟨rfl, rfl, rfl, rfl, fun hne => absurd ho hne⟩

theorem keeps_of_refund {r : Rules} {a : Accepted} {o paid : Outcome} {refunded : Quantity}
    (h : refund r a o = .ok (paid, refunded)) : Keeps o paid := by
  unfold refund at h
  cases ho : o.exception with
  | some e =>
    rw [ho] at h
    cases h
    exact .refl o
  | none =>
    rw [ho] at h
    obtain ⟨amount, -, h⟩ := bind_eq_ok.mp h
    obtain ⟨gas, -, h⟩ := bind_eq_ok.mp h
    cases h
    exact ⟨rfl, ho.symm, rfl, rfl, fun hne => absurd ho hne⟩

theorem keeps_of_conclude {x : Execution} {a : Accepted} {paid final : Outcome}
    {refunded : Quantity} {w : World β} {logs : List LogEntry}
    (h : (x.conclude a paid refunded w).1.phase = .finalized a final logs) :
    Keeps paid final ∧ logs = if paid.exception = none then paid.substate.logs else [] := by
  unfold conclude at h
  cases ho : paid.exception with
  | some e =>
    rw [ho] at h
    cases h
    exact ⟨.refl _, rfl⟩
  | none =>
    rw [ho] at h
    cases h
    exact ⟨⟨rfl, ho.symm, rfl, rfl, fun hne => absurd ho hne⟩, rfl⟩

/-- Where one command can take an execution whose message is done. -/
inductive Concluding (phase : Phase) : Phase → Prop
  | same : Concluding phase phase
  | handed {a : Option Accepted} {o : Outcome} (hx : phase = .executed a o)
      (ho : o.exception = none) : Concluding phase (.executed a { o with substate := ∅ })
  | finalized {a : Accepted} {o final : Outcome} {logs : List LogEntry}
      (hx : phase = .executed (some a) o) (hk : Keeps o final) :
      Concluding phase (.finalized a final logs)

theorem concluding_acts {s s' : Scene β} {c : Command} {r : Reply}
    (hdone : (∃ a o, s.execution.phase = .executed a o) ∨
      ∃ a o logs, s.execution.phase = .finalized a o logs)
    (ha : s.Acts c r s') : Concluding s.execution.phase s'.execution.phase := by
  cases ha with
  | refused => exact .same
  | excepted => exact .same
  | requested => exact .same
  | taken => exact .same
  | handedOver hx ho => exact .handed hx ho
  | @finalized a o paid refunded hx hr =>
    obtain ⟨final, logs, hphase⟩ := s.execution.phase_conclude a paid refunded s.world
    dsimp only
    rw [hphase]
    exact .finalized hx ((keeps_of_refund hr).trans (keeps_of_conclude hphase).1)
  | done hc _ | pending hc _ =>
    cases hc with
    | transaction hx | bare hx => simp [hx] at hdone
  | accepted hx | rejected hx | unpaid hx | ran hx | stuck hx => simp [hx] at hdone

/-! Summaries. -/

/-- A summary that shows the outcome of its transaction. -/
structure Matches (z : Summary) (a : Accepted) (o : Outcome) : Prop where
  gasUsed : z.gasUsed = a.gasUsed o.gas
  newAddress : z.newAddress = o.newAddress
  exception : z.exception = o.exception
  output : z.output = o.output
  deposit : z.deposit = o.deposit

/-- Only a finalized transaction has a summary, which is true. -/
def Summarized (x : Execution) : Prop :=
  ∀ z ∈ x.summary, ∃ a o logs, x.phase = .finalized a o logs ∧ Matches z a o

theorem summarized_conclude (x : Execution) (a : Accepted) (o : Outcome) (refunded : Quantity)
    (w : World β) : (x.conclude a o refunded w).1.Summarized := by
  intro z hz
  rw [summary_conclude] at hz
  obtain ⟨withPath, -, rfl⟩ := Option.map_eq_some_iff.mp hz
  unfold conclude
  cases he : o.exception with
  | some e => exact ⟨a, o, [], rfl, rfl, rfl, rfl, rfl, rfl⟩
  | none =>
    refine ⟨a, _, o.substate.logs, rfl, rfl, rfl, ?_, rfl, rfl⟩
    exact he

/-- Nothing moves a finalized transaction. -/
theorem summarized_acts {s s' : Scene β} {c : Command} {r : Reply}
    (h : s.execution.Summarized) (ha : s.Acts c r s') : s'.execution.Summarized := by
  have hmoved : (∀ a o logs, s.execution.phase ≠ .finalized a o logs) →
      s'.execution.summary = s.execution.summary → s'.execution.Summarized := by
    intro hx hs z hz
    rw [hs] at hz
    obtain ⟨a, o, logs, hf, -⟩ := h z hz
    exact absurd hf (hx a o logs)
  cases ha with
  | refused => exact h
  | excepted => exact h
  | requested => exact h
  | taken => exact nofun
  | finalized hx hr => exact summarized_conclude _ _ _ _ _
  | done hc _ | pending hc _ =>
    refine hmoved ?_ rfl
    cases hc with
    | transaction hx => simp [hx]
    | bare hx => simp [hx]
  | accepted hx | rejected hx | unpaid hx | ran hx | stuck hx | handedOver hx =>
    refine hmoved ?_ rfl
    simp [hx]

theorem Scene.Course.summarized {s t : Scene β} (h : s.Course turns t)
    (hs : s.execution.Summarized) : t.execution.Summarized := by
  induction h with
  | nil => exact hs
  | offer _ _ ih => exact ih
  | snoc _ hp ih => exact summarized_acts ih (Scene.acts_of_perform hp)

theorem summarized_new (m : Machine) (depth : Nat) : (new m depth).Summarized := nofun

end Execution

end Transact
