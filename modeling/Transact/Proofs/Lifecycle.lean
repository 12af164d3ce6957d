import Transact.Proofs.Courses
import Transact.Proofs.Gas

/-!
The lifecycle of an execution: how its stage passes, and that nonce, gas, code, fees and
summary are each dealt with once, in that order, whatever is asked of it. Every deed has
a rank and every stage a height; a command only does deeds between the heights before
and after it. Main statement: `lifecycle_is_safe`.
-/

namespace Transact.Execution

/-- Which command, with which reply, leads from which stage to which. -/
inductive Passage : Command → Reply → Stage → Stage → Prop
  | accepted {t : Transaction} : Passage (.accept t) .ok .created .accepted
  | rejected {t : Transaction} {e : Exception} :
      Passage (.accept t) (.error (.rejected e)) .created .rejected
  | unpaid {e : Exception} : Passage .execute (.error (.rejected e)) .accepted .rejected
  | executed : Passage .execute (.done true) .accepted .executed
  | awaiting : Passage .execute (.done false) .accepted .awaitingInterpreter
  | dispatched {terms : Terms} {message : Message} :
      Passage (.dispatch terms message) (.done true) .created .executed
  | dispatchAwaiting {terms : Terms} {message : Message} :
      Passage (.dispatch terms message) (.done false) .created .awaitingInterpreter
  | ran {observer : Observer} : Passage (.run observer) .ok .awaitingInterpreter .executed
  | finalized : Passage .finalize .ok .executed .finalized
  | handedOver : Passage .handOver .ok .executed .executed
  | excepted {e : Exception} :
      Passage .handOver (.error (.exceptedSubstate e)) .executed .executed
  | refused {c : Command} {op : Operation} {s : Stage} (hc : c.operation = some op) :
      Passage c (.error (.invalidStage op s)) s s
  | requested {withPath : Bool} {s : Stage} : Passage (.requestSummary withPath) .ok s s
  | taken {z : Option Summary} {s : Stage} : Passage .takeSummary (.summary z) s s

/-- The command was asked for at the wrong time, or of a failed message. -/
def Reply.Refuses : Reply → Prop
  | .error (.invalidStage ..) | .error (.exceptedSubstate _) => True
  | _ => False

/-- What an execution does to the world, and what it gives out. -/
inductive Deed
  | countNonce
  | buyGas
  | beginMessage
  | runCode
  | settleFees
  | giveSummary
  deriving DecidableEq

/-- The place of a deed among the others. -/
def Deed.rank : Deed → Nat
  | countNonce => 0
  | buyGas => 1
  | beginMessage => 2
  | runCode => 3
  | settleFees => 4
  | giveSummary => 5

/-- What a command did, by its reply. -/
def deeds : Turn → List Deed
  | (.accept _, .ok) => [.countNonce]
  | (.execute, .done _) => [.buyGas, .beginMessage]
  | (.dispatch .., .done _) => [.beginMessage]
  | (.run _, .ok) => [.runCode]
  | (.finalize, .ok) => [.settleFees]
  | (.takeSummary, .summary (some _)) => [.giveSummary]
  | _ => []

variable {β : Type} [Store β]

/-- What the deeds of a command make of the world. -/
inductive Performed (x : Execution) : List Deed → World β → World β → Prop
  | nothing {w w' : World β} (h : w'.ledger = w.ledger) : Performed x [] w w'
  | countNonce {a : Accepted} {w : World β}
      (hv : x.machine.validate w.ledger a.transaction = .ok a) :
      Performed x [.countNonce] w (w.edit (·.bumpNonce a.sender))
  | buyGas {a : Accepted} {l : Ledger β} {w w' : World β} {admission : Admission}
      (hd : w.ledger.debit a.sender (a.price a.transaction.gasLimit) = .ok l)
      (hb : x.machine.begin x.depth a.terms a.message ({ w with ledger := l }.event a.event) =
        (admission, w')) :
      Performed x [.buyGas, .beginMessage] w w'
  | beginMessage {terms : Terms} {message : Message} {w w' : World β} {admission : Admission}
      (hb : x.machine.begin x.depth terms message w = (admission, w')) :
      Performed x [.beginMessage] w w'
  | runCode {observer : Observer} {p : Pending} {o : Outcome} {w w' : World β}
      (hr : x.machine.run observer x.depth p w = (.closed o, w')) : Performed x [.runCode] w w'
  | settleFees {a : Accepted} {o paid : Outcome} {refunded : Quantity} {w : World β}
      (hr : refund x.machine.rules a o = .ok (paid, refunded)) :
      Performed x [.settleFees] w (x.conclude a paid refunded w).2
  | giveSummary {w : World β} : Performed x [.giveSummary] w w

/-! One command. -/

section Acts

variable {s s' : Scene β} {c : Command} {r : Reply}

theorem stage_eq {x : Execution} {phase : Phase} (h : x.phase = phase) :
    x.stage = ({ x with phase } : Execution).stage := by
  unfold stage
  rw [h]

theorem stage_conclude (x : Execution) (a : Accepted) (o : Outcome) (refunded : Quantity)
    (w : World β) : (x.conclude a o refunded w).1.stage = .finalized := by
  obtain ⟨final, logs, h⟩ := x.phase_conclude a o refunded w
  unfold stage
  rw [h]

theorem passage_of_acts (ha : s.Acts c r s') (hr : r ≠ .error .uneven) :
    Passage c r s.execution.stage s'.execution.stage := by
  cases ha with
  | refused hc _ => exact .refused hc
  | requested => exact .requested
  | taken => exact .taken
  | excepted hx _ =>
    rw [stage_eq hx]
    exact .excepted
  | accepted hx _ =>
    rw [stage_eq hx]
    exact .accepted
  | rejected hx _ =>
    rw [stage_eq hx]
    exact .rejected
  | unpaid hx _ =>
    rw [stage_eq hx]
    exact .unpaid
  | done hc _ =>
    cases hc with
    | transaction hx =>
      rw [stage_eq hx]
      exact .executed
    | bare hx =>
      rw [stage_eq hx]
      exact .dispatched
  | pending hc _ =>
    cases hc with
    | transaction hx =>
      rw [stage_eq hx]
      exact .awaiting
    | bare hx =>
      rw [stage_eq hx]
      exact .dispatchAwaiting
  | ran hx _ =>
    rw [stage_eq hx]
    exact .ran
  | stuck => exact absurd rfl hr
  | handedOver hx _ =>
    rw [stage_eq hx]
    exact .handedOver
  | finalized hx _ =>
    rw [stage_eq hx, stage_conclude]
    exact .finalized

theorem eq_of_refuses (ha : s.Acts c r s') (hr : r.Refuses) : s' = s := by
  cases ha with
  | refused => rfl
  | excepted => rfl
  | _ => exact hr.elim

theorem timely_of_acts (ha : s.Acts c r s') (hc : c.Fits s.execution.phase) (op : Operation)
    (stage : Stage) : r ≠ .error (.invalidStage op stage) := by
  rintro rfl
  cases ha with
  | refused _ hx => exact hx hc

theorem parent_of_acts (ha : s.Acts c r s') (hc : c ≠ .handOver) : s'.parent = s.parent := by
  cases ha with
  | handedOver => exact absurd rfl hc
  | _ => rfl

theorem performed_of_acts (ha : s.Acts c r s') (hr : r ≠ .error .uneven) :
    Performed s.execution (deeds (c, r)) s.world s'.world := by
  cases ha with
  | refused hc _ => cases c <;> exact .nothing rfl
  | excepted => exact .nothing rfl
  | requested => exact .nothing rfl
  | handedOver => exact .nothing rfl
  | unpaid => exact .nothing rfl
  | rejected => exact .nothing (World.ledger_remarks _ _)
  | taken =>
    cases s.execution.summary with
    | none => exact .nothing rfl
    | some z => exact .giveSummary
  | accepted hx hv =>
    obtain ⟨rfl, -⟩ := Machine.admits_of_validate hv
    exact .countNonce hv
  | done hc hb =>
    cases hc with
    | transaction _ hd => exact .buyGas hd hb
    | bare => exact .beginMessage hb
  | pending hc hb =>
    cases hc with
    | transaction _ hd => exact .buyGas hd hb
    | bare => exact .beginMessage hb
  | ran hx hrun => exact .runCode hrun
  | stuck => exact absurd rfl hr
  | finalized hx hpaid => exact .settleFees hpaid

/-- The deeds that are done by then have a lower rank. -/
def height (x : Execution) : Nat :=
  match x.phase, x.summary with
  | .created, _ => 0
  | .accepted _, _ | .rejected .., _ => 1
  | .awaiting .., _ | .stuck .., _ => 3
  | .executed .., _ => 4
  | .finalized .., some _ => 5
  | .finalized .., none => 6

/-- Deeds in the order of their rank. -/
abbrev Ascending (ds : List Deed) : Prop := ds.Pairwise fun d d' => d.rank < d'.rank

/-- The deeds `ds` are in order, and all of a rank from `low` up to `high`. -/
structure Between (low high : Nat) (ds : List Deed) : Prop where
  le : low ≤ high
  ascending : Ascending ds
  low_le : ∀ d ∈ ds, low ≤ d.rank
  lt_high : ∀ d ∈ ds, d.rank < high

namespace Between

variable {low high top : Nat} {ds ds' : List Deed}

theorem nil (h : low ≤ high) : Between low high [] := ⟨h, .nil, nofun, nofun⟩

theorem single (d : Deed) : Between d.rank (d.rank + 1) [d] where
  le := Nat.le_succ _
  ascending := List.pairwise_singleton _ _
  low_le := by simp
  lt_high := by simp

theorem append (h : Between low high ds) (h' : Between high top ds') :
    Between low top (ds ++ ds') where
  le := Nat.le_trans h.le h'.le
  ascending := List.pairwise_append.mpr ⟨h.ascending, h'.ascending, fun d hd d' hd' =>
    Nat.lt_of_lt_of_le (h.lt_high d hd) (h'.low_le d' hd')⟩
  low_le d hd := (List.mem_append.mp hd).elim (h.low_le d) fun hd' =>
    Nat.le_trans h.le (h'.low_le d hd')
  lt_high d hd := (List.mem_append.mp hd).elim
    (fun hd' => Nat.lt_of_lt_of_le (h.lt_high d hd') h'.le) (h'.lt_high d)

theorem nodup (h : Between low high ds) : ds.Nodup :=
  h.ascending.imp fun hlt => ne_of_apply_ne Deed.rank (Nat.ne_of_lt hlt)

/-- What is done later was not done yet. -/
theorem not_mem (h : Between low high ds) (h' : Between high top ds') {d : Deed}
    (hd : d ∈ ds') : d ∉ ds :=
  fun hmem => Nat.not_lt.mpr (h'.low_le d hd) (h.lt_high d hmem)

end Between

theorem height_eq {x : Execution} {phase : Phase} (h : x.phase = phase) :
    x.height = ({ x with phase } : Execution).height := by
  unfold height
  rw [h]

theorem le_height_conclude (x : Execution) (a : Accepted) (o : Outcome) (refunded : Quantity)
    (w : World β) : 5 ≤ (x.conclude a o refunded w).1.height := by
  obtain ⟨final, logs, h⟩ := x.phase_conclude a o refunded w
  unfold height
  rw [h]
  cases (x.conclude a o refunded w).1.summary with
  | none => exact (by decide : 5 ≤ 6)
  | some z => exact Nat.le_refl 5

/-- What is done to begin a message. -/
theorem between_of_begins {a : Option Accepted} {terms : Terms} {message : Message}
    {w : World β} (hc : s.Begins c a terms message w) (b : Bool) {high : Nat} (h : 3 ≤ high) :
    Between s.execution.height high (deeds (c, .done b)) := by
  cases hc with
  | transaction hx =>
    have hd : Between 1 3 [.buyGas, .beginMessage] :=
      (Between.single .buyGas).append (.single .beginMessage)
    rw [height_eq hx]
    exact hd.append (.nil h)
  | bare hx =>
    have hd : Between 0 3 [.beginMessage] :=
      (Between.nil (by decide : 0 ≤ 2)).append (.single .beginMessage)
    rw [height_eq hx]
    exact hd.append (.nil h)

/-- The deeds of a command lie between the heights before and after it. -/
theorem between_of_acts (hz : s.execution.Summarized) (ha : s.Acts c r s')
    (hr : r ≠ .error .uneven) :
    Between s.execution.height s'.execution.height (deeds (c, r)) := by
  cases ha with
  | refused hc _ => cases c <;> exact .nil (Nat.le_refl _)
  | excepted => exact .nil (Nat.le_refl _)
  | requested => exact .nil (Nat.le_refl _)
  | stuck => exact absurd rfl hr
  | done hc _ => exact between_of_begins hc true (by decide : 3 ≤ 4)
  | pending hc _ => exact between_of_begins hc false (Nat.le_refl 3)
  | accepted hx _ =>
    rw [height_eq hx]
    exact .single .countNonce
  | rejected hx _ =>
    rw [height_eq hx]
    exact .nil (by decide : 0 ≤ 1)
  | unpaid hx _ =>
    rw [height_eq hx]
    exact .nil (Nat.le_refl 1)
  | ran hx _ =>
    rw [height_eq hx]
    exact .single .runCode
  | handedOver hx _ =>
    rw [height_eq hx]
    exact .nil (Nat.le_refl 4)
  | @finalized a o paid refunded hx _ =>
    rw [height_eq hx]
    exact (Between.single .settleFees).append
      (.nil (s.execution.le_height_conclude a paid refunded s.world))
  | taken =>
    obtain ⟨⟨machine, depth, phase, wanted, path, summary⟩, parent, w⟩ := s
    cases summary with
    | none => exact .nil (Nat.le_refl _)
    | some z =>
      obtain ⟨a, o, logs, rfl, -⟩ := hz z rfl
      exact .single .giveSummary

end Acts

/-! Commands in a row. -/

variable {m : Machine} {depth : Nat} {parent : Substate} {w : World β} {turns : List Turn}
  {s s' : Scene β} {c : Command} {r : Reply}

/-- Confined code leaves its checkpoint to be closed. -/
theorem Stands.ne_uneven (hi : m.interpreter.Confined) (hm : s.execution.machine = m)
    (hd : s.execution.depth = depth) (h : Stands m depth w turns s.execution.phase s.world)
    (ha : s.Acts c r s') : r ≠ .error .uneven := by
  have hnext := h.acts hi hm hd ha
  rintro rfl
  cases ha with
  | stuck => cases hnext

theorem Scene.Course.between (hi : m.interpreter.Confined)
    (h : Scene.Course ⟨.new m depth, parent, w⟩ turns s) :
    Between 0 s.execution.height (turns.flatMap deeds) := by
  induction h with
  | nil => exact .nil (Nat.zero_le _)
  | offer _ _ ih => exact ih
  | @snoc turns t t' c r h hp ih =>
    obtain ⟨hm, hd, hs⟩ := h.stands hi
    have ha := Scene.acts_of_perform hp
    rw [List.flatMap_append, List.flatMap_singleton]
    exact ih.append
      (between_of_acts (h.summarized (summarized_new m depth)) ha (hs.ne_uneven hi hm hd ha))

/-- Nothing is left to hand over. -/
def Emptied (x : Execution) : Prop :=
  (∃ a o, x.phase = .executed a o ∧ o.substate = ∅) ∨ ∃ a o logs, x.phase = .finalized a o logs

theorem emptied_acts (h : s.execution.Emptied) (ha : s.Acts c r s') : s'.execution.Emptied := by
  have hnext := concluding_acts (h.imp_left fun ⟨a, o, hx, _⟩ => ⟨a, o, hx⟩) ha
  unfold Emptied at h ⊢
  generalize s.execution.phase = before, s'.execution.phase = after at h hnext ⊢
  cases hnext with
  | same => exact h
  | handed => exact .inl ⟨_, _, rfl, rfl⟩
  | finalized => exact .inr ⟨_, _, _, rfl⟩

theorem Scene.Course.emptied (h : Scene.Course ⟨.new m depth, parent, w⟩ turns s)
    (hmem : (.handOver, .ok) ∈ turns) : s.execution.Emptied := by
  induction h with
  | nil => cases hmem
  | offer _ _ ih => exact ih hmem
  | snoc h hp ih =>
    have ha := Scene.acts_of_perform hp
    rcases List.mem_append.mp hmem with hmem | hlast
    · exact emptied_acts (ih hmem) ha
    · cases List.mem_singleton.mp hlast
      cases ha
      exact .inl ⟨_, _, rfl, rfl⟩

theorem Scene.Course.finalize_mem (h : Scene.Course ⟨.new m depth, parent, w⟩ turns s)
    {a : Accepted} {o : Outcome} {logs : List LogEntry}
    (hx : s.execution.phase = .finalized a o logs) : (.finalize, .ok) ∈ turns := by
  induction h with
  | nil => cases hx
  | offer _ _ ih => exact ih hx
  | snoc h hp ih =>
    have ha := Scene.acts_of_perform hp
    cases ha with
    | finalized => exact List.mem_append_right _ (List.mem_singleton.mpr rfl)
    | refused => exact List.mem_append_left _ (ih hx)
    | excepted => exact List.mem_append_left _ (ih hx)
    | requested => exact List.mem_append_left _ (ih hx)
    | taken => exact List.mem_append_left _ (ih hx)
    | _ => cases hx

theorem Substate.join_empty (s : Substate) : s.join ∅ = s := by
  obtain ⟨condemned, logs, refunds⟩ := s
  have hc : condemned ∪ ∅ = condemned := by
    apply Std.ExtTreeSet.ext_mem
    simp
  have hl : logs ++ [] = logs := List.append_nil logs
  change Substate.mk (condemned ∪ ∅) (logs ++ []) (refunds + 0) = _
  rw [hc, hl, Quantity.add_zero]

/-- The first time, the substate goes over to the parent; after that nothing does. -/
theorem handOver_acts (ha : s.Acts .handOver .ok s') :
    s'.world = s.world ∧ s'.parent = s.parent.join s.execution.outcome.substate ∧
      s'.execution.outcome = { s.execution.outcome with substate := ∅ } ∧
      (s.execution.Emptied → s' = s) := by
  obtain ⟨x, parent, v⟩ := s
  cases ha with
  | @handedOver a o hx ho =>
    dsimp only at hx ⊢
    rw [outcome_of_executed hx]
    refine ⟨rfl, rfl, rfl, ?_⟩
    rintro (⟨a', o', hx', he⟩ | ⟨a', o', logs, hx'⟩)
    · cases hx.symm.trans hx'
      have hsame : { o with substate := ∅ } = o := by rw [← he]
      rw [hsame, he, Substate.join_empty, ← hx]
    · cases hx.symm.trans hx'

/-- What a command does after `turns`. -/
structure Lawful (turns : List Turn) (s : Scene β) (c : Command) (r : Reply) (s' : Scene β) :
    Prop where
  passage : Passage c r s.execution.stage s'.execution.stage
  refused : r.Refuses → s' = s
  timely : c.Fits s.execution.phase → ∀ op stage, r ≠ .error (.invalidStage op stage)
  parent : c ≠ .handOver → s'.parent = s.parent
  performed : Performed s.execution (deeds (c, r)) s.world s'.world
  once : ∀ d ∈ deeds (c, r), d ∉ turns.flatMap deeds
  /-- Only an accepted transaction is finalized. -/
  finalize : .settleFees ∈ deeds (c, r) → .countNonce ∈ turns.flatMap deeds
  summary : .giveSummary ∈ deeds (c, r) → .settleFees ∈ turns.flatMap deeds
  handOver : c = .handOver → r = .ok → s'.world = s.world ∧
    s'.parent = s.parent.join s.execution.outcome.substate ∧
    s'.execution.outcome = { s.execution.outcome with substate := ∅ } ∧
    ((.handOver, .ok) ∈ turns → s' = s)

/-- A transaction that is finalized was accepted. -/
theorem Stands.countNonce_mem (h : Stands m depth w turns s.execution.phase s.world)
    (ha : s.Acts c r s') (hd : .settleFees ∈ deeds (c, r)) :
    .countNonce ∈ turns.flatMap deeds := by
  cases ha with
  | finalized hx _ =>
    rw [hx] at h
    obtain ⟨task, terms, message, w₀, observer, o, ht, hs, -⟩ := h.of_executed
    cases hs with
    | transaction =>
      cases ht with
      | transaction hmem =>
        exact List.mem_flatMap.mpr ⟨_, hmem, List.mem_singleton.mpr rfl⟩
  | refused hc _ => cases c <;> cases hd
  | taken => cases hz : s.execution.summary <;> simp [hz, deeds] at hd
  | done hc _ | pending hc _ => cases hc <;> simp [deeds] at hd
  | _ => simp [deeds] at hd

/-- A summary is given out of a finalized transaction. -/
theorem Scene.Course.settleFees_mem (h : Scene.Course ⟨.new m depth, parent, w⟩ turns s)
    (ha : s.Acts c r s') (hd : .giveSummary ∈ deeds (c, r)) :
    .settleFees ∈ turns.flatMap deeds := by
  cases ha with
  | taken =>
    cases hz : s.execution.summary with
    | none => simp [hz, deeds] at hd
    | some z =>
      obtain ⟨a, o, logs, hx, -⟩ := h.summarized (summarized_new m depth) z hz
      exact List.mem_flatMap.mpr ⟨_, h.finalize_mem hx, List.mem_singleton.mpr rfl⟩
  | refused hc _ => cases c <;> cases hd
  | done hc _ | pending hc _ => cases hc <;> simp [deeds] at hd
  | _ => simp [deeds] at hd

/-- The lifecycle is safe: whatever a new execution was asked so far, in whatever order,
every deed was done once at most; how much gas was used is told of a finalized
transaction only; and whatever is asked next is lawful. -/
theorem lifecycle_is_safe (hi : m.interpreter.Confined)
    (h : Scene.Course ⟨.new m depth, parent, w⟩ turns s) :
    (turns.flatMap deeds).Nodup ∧
    (s.execution.stage = .finalized ∧ (∃ used, s.execution.gasUsed = .ok used) ∨
      s.execution.stage ≠ .finalized ∧
        s.execution.gasUsed = .error (.invalidStage .gasUsed s.execution.stage)) ∧
    ∀ (c : Command) (r : Reply) (s' : Scene β), s.perform c = .ok (r, s') →
      Lawful turns s c r s' := by
  have hbetween := h.between hi
  refine ⟨hbetween.nodup, ?_, ?_⟩
  · unfold gasUsed stage
    cases s.execution.phase with
    | finalized a o logs => exact .inl ⟨rfl, _, rfl⟩
    | _ => exact .inr ⟨nofun, rfl⟩
  intro c r s' hp
  obtain ⟨hm, hd, hs⟩ := h.stands hi
  have ha := Scene.acts_of_perform hp
  have hr := hs.ne_uneven hi hm hd ha
  have hnext := between_of_acts (h.summarized (summarized_new m depth)) ha hr
  refine
    { passage := passage_of_acts ha hr
      refused := eq_of_refuses ha
      timely := timely_of_acts ha
      parent := parent_of_acts ha
      performed := performed_of_acts ha hr
      once := fun d hmem => hbetween.not_mem hnext hmem
      finalize := hs.countNonce_mem ha
      summary := h.settleFees_mem ha
      handOver := ?_ }
  rintro rfl rfl
  obtain ⟨hw, hparent, hout, hsame⟩ := handOver_acts ha
  exact ⟨hw, hparent, hout, fun hmem => hsame (h.emptied hmem)⟩

/-- A transaction whose substate was handed over: neither is it run again, nor is the
substate handed over again. -/
theorem lifecycle_of_refunding_code :
    ∃ s : Scene State, Scene.Course ⟨.new (.plain .refunding) 0, ∅, .plain⟩
        [(.accept .toSelf, .ok), (.execute, .done false), (.run .silent, .ok), (.handOver, .ok)]
        s ∧
      (∀ observer r s', s.perform (.run observer) = .ok (r, s') → r ≠ .ok) ∧
      ∀ r s', s.perform .handOver = .ok (r, s') → s' = s := by
  have h : ∃ s : Scene State, Scene.Course ⟨.new (.plain .refunding) 0, ∅, .plain⟩
      [(.accept .toSelf, .ok), (.execute, .done false), (.run .silent, .ok), (.handOver, .ok)]
      s := ⟨_, .snoc (.snoc (.snoc (.snoc .nil rfl) rfl) rfl) rfl⟩
  obtain ⟨s, hs⟩ := h
  obtain ⟨-, -, hnext⟩ := lifecycle_is_safe Interpreter.confined_refunding hs
  refine ⟨s, hs, ?_, ?_⟩
  · rintro observer r s' hp rfl
    exact (hnext _ _ _ hp).once .runCode (List.mem_singleton.mpr rfl) (by decide)
  · intro r s' hp
    have hl := hnext _ _ _ hp
    have hpass := hl.passage
    generalize s.execution.stage = before, s'.execution.stage = after at hpass
    cases hpass with
    | handedOver => exact (hl.handOver rfl rfl).2.2.2 (by simp)
    | excepted => exact hl.refused trivial
    | refused => exact hl.refused trivial

end Transact.Execution
