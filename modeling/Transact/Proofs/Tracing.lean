import Transact.Proofs.Finalization
import Transact.Proofs.Reporting

/-!
What a listener is told. The events of a message are a word of a small grammar, each
invocation of the interpreter has one exit, and what the exit tells is what the sender
of the message gets. Main statement: `events_are_nested_and_true`.
-/

namespace Transact

namespace Event

/-- Announces a message at depth `k`. -/
def Opens (k : Nat) : Event → Prop
  | .call _ _ _ _ depth | .create _ _ _ _ _ depth => depth = k
  | _ => False

/-- Announces a transaction that calls or creates, as `action` says. -/
def Transacts (action : Action) : Event → Prop
  | .transactCall _ address _ _ _ => action = .call address
  | .transactCreate .. => action = .create
  | _ => False

def exitDepth? : Event → Option Nat
  | .exit depth _ _ _ => some depth
  | _ => none

/-- What a sequence of events can be the account of. -/
inductive Subject
  /-- A task whose message is at depth `k`. -/
  | task (task : Task) (k : Nat)
  /-- One message at depth `k`. -/
  | frame (k : Nat)
  /-- What code that runs at depth `k` does. -/
  | body (k : Nat)

/-- The grammar of events. -/
inductive Derives : Subject → List Event → Prop
  | message {k : Nat} {terms : Terms} {message : Message} {es : List Event}
      (h : Derives (.frame k) es) : Derives (.task (.message terms message) k) es
  | transaction {k : Nat} {t : Transaction} {e : Event} {es : List Event}
      (he : e.Transacts t.action) (h : Derives (.frame k) es) :
      Derives (.task (.transaction t) k) (e :: es)
  /-- No code ran. -/
  | alone {k : Nat} {e : Event} (h : e.Opens k) : Derives (.frame k) [e]
  | ran {k : Nat} {e : Event} {es : List Event} {x : Option Exception} {gas : Quantity}
      {output : Bytes} (h : e.Opens k) (hb : Derives (.body k) es) :
      Derives (.frame k) (e :: (es ++ [.exit k x gas output]))
  | nothing {k : Nat} : Derives (.body k) []
  | selfDestruct {k : Nat} {address beneficiary : Address} {balance : Quantity} :
      Derives (.body k) [.selfDestruct address beneficiary balance]
  | nested {k : Nat} {es : List Event} (h : Derives (.frame (k + 1)) es) : Derives (.body k) es
  | append {k : Nat} {es es' : List Event} (h : Derives (.body k) es)
      (h' : Derives (.body k) es') : Derives (.body k) (es ++ es')

end Event

theorem Accepted.transacts_event (a : Accepted) : a.event.Transacts a.transaction.action := by
  unfold event
  dsimp only
  cases a.transaction.action <;> exact rfl

theorem Message.opens_event (k : Message) (d : Nat) (c : Context) : (k.event d c).Opens d := by
  cases k <;> exact rfl

def Entry.invocation? : Entry → Option Invocation
  | .enter v => some v
  | _ => none

theorem invocations_of_formal {es : List Entry} (h : ∀ entry ∈ es, entry.Formal) :
    es.filterMap Entry.invocation? = [] := by
  rw [List.filterMap_eq_nil_iff]
  intro entry he
  cases entry with
  | enter v => exact (h _ he).elim
  | _ => rfl

/-- The events in `es` are a word for `subject`, with one exit for each invocation. -/
structure Tells (subject : Event.Subject) (es : List Entry) : Prop where
  word : Event.Derives subject (es.filterMap Entry.event?)
  exits : (es.filterMap Entry.event?).filterMap Event.exitDepth? |>.Perm
    ((es.filterMap Entry.invocation?).map Invocation.depth)

namespace Tells

variable {k : Nat} {es es' : List Entry}

theorem append (h : Tells (.body k) es) (h' : Tells (.body k) es') :
    Tells (.body k) (es ++ es') where
  word := by
    rw [List.filterMap_append]
    exact h.word.append h'.word
  exits := by
    simp only [List.filterMap_append, List.map_append]
    exact h.exits.append h'.exits

theorem nested (h : Tells (.frame (k + 1)) es) : Tells (.body k) es := ⟨h.word.nested, h.exits⟩

theorem of_silent (he : es.filterMap Entry.event? = [])
    (hi : es.filterMap Entry.invocation? = []) : Tells (.body k) es where
  word := by
    rw [he]
    exact .nothing
  exits := by
    rw [he, hi]
    exact .nil

theorem of_effect {β : Type} [Store β] {f : Frame} {e : Effect} {w : World β}
    (hf : ∀ entry ∈ es, entry.Formal) (he : es.filterMap Entry.event? = f.eventsOf e w) :
    Tells (.body k) es := by
  have hi := invocations_of_formal hf
  cases e with
  | selfDestruct b =>
    refine ⟨?_, ?_⟩
    · rw [he]
      exact .selfDestruct
    · rw [he, hi]
      exact .nil
  | _ => exact .of_silent he hi

end Tells

/-- `es` tells a message at depth `d` with outcome `o`: code that ran for it ends with an
exit that tells its outcome. -/
structure Told (d : Nat) (o : Outcome) (es : List Entry) : Prop extends Tells (.frame d) es where
  last : es.filterMap Entry.invocation? = [] ∧ (es.filterMap Entry.event?).length = 1 ∨
    es.filterMap Entry.invocation? ≠ [] ∧
      (es.filterMap Entry.event?).getLast? = some (.exit d o.exception o.gas o.output)

section Messages

variable {β : Type}

/-- A message for which no code ran. -/
theorem told_of_reported {w w' : World β} {d : Nat} {e : Event} (h : w.Reported w' [e])
    (he : e.Opens d) (o : Outcome) : ∃ es, w.Wrote w' es ∧ Told d o es := by
  obtain ⟨es, hw, hf, hev⟩ := h
  have hi := invocations_of_formal hf
  refine ⟨es, hw, ⟨?_, ?_⟩, .inl ⟨hi, by rw [hev]; rfl⟩⟩
  · rw [hev]
    exact .alone he
  · rw [hev, hi]
    cases e with
    | exit => exact he.elim
    | _ => exact .nil

/-- A message whose code ran: it is announced, the code goes from its entry to its halt,
and then it is closed. -/
theorem told_of_frame {w w₁ w₂ w₃ : World β} {v : Invocation} {e : Event} {es : List Entry}
    {o : Outcome} (he : e.Opens v.depth) (hopen : w.Reported w₁ [e])
    (hw : (w₁.write (.enter v)).Wrote w₂ es) (hbody : Tells (.body v.depth) es)
    (hdep : w₂.Reported w₃ []) :
    ∃ es, w.Wrote (w₃.closed v.depth o) es ∧ Told v.depth o es := by
  obtain ⟨es₁, hw₁, hf₁, hev₁⟩ := hopen
  obtain ⟨es₃, hw₃, hf₃, hev₃⟩ := hdep
  obtain ⟨es₄, hw₄, hf₄, hev₄⟩ := Machine.reported_closed w₃ v.depth o
  -- of these only `es₁` and `es₄` have events of the message itself
  let all := es₁ ++ .enter v :: (es ++ (es₃ ++ es₄))
  have hall : w.Wrote (w₃.closed v.depth o) all :=
    hw₁.trans ((World.Wrote.write w₁ (.enter v)).trans (hw.trans (hw₃.trans hw₄)))
  have hevents : all.filterMap Entry.event? =
      e :: (es.filterMap Entry.event? ++ [.exit v.depth o.exception o.gas o.output]) := by
    simp only [all, List.filterMap_append, List.filterMap_cons, hev₁, hev₃, hev₄, Entry.event?]
    rfl
  have hinvocations : all.filterMap Entry.invocation? =
      v :: es.filterMap Entry.invocation? := by
    simp only [all, List.filterMap_append, List.filterMap_cons, invocations_of_formal hf₁,
      invocations_of_formal hf₃, invocations_of_formal hf₄, Entry.invocation?]
    simp
  have hnone : e.exitDepth? = none := by
    cases e with
    | exit => exact he.elim
    | _ => rfl
  refine ⟨all, hall, ⟨?_, ?_⟩, .inr ⟨?_, ?_⟩⟩
  · rw [hevents]
    exact .ran he hbody.word
  · rw [hevents, hinvocations]
    rw [List.filterMap_cons_none hnone, List.filterMap_append, List.map_cons]
    exact (List.perm_append_singleton _ _).trans (hbody.exits.cons _)
  · rw [hinvocations]
    exact List.cons_ne_nil _ _
  · rw [hevents, ← List.cons_append, List.getLast?_concat]

end Messages

namespace Machine

variable {β : Type} [Store β] (m : Machine) (observer : Observer)

theorem steady_tracing : m.Steady observer
    (fun d _ _ (w : World β) _ w' => ∃ es, w.Wrote w' es ∧ Tells (.body d) es)
    (fun d _ _ w o w' => ∃ es, w.Wrote w' es ∧ Told d o es) where
  refl {d c s w} := ⟨[], .refl w, .of_silent rfl rfl⟩
  trans {d c s w s₁ w₁ s₂ w₂} h h' := by
    obtain ⟨es, hw, ht⟩ := h
    obtain ⟨es', hw', ht'⟩ := h'
    exact ⟨es ++ es', hw.trans hw', ht.append ht'⟩
  observe {d c i s w} := by
    refine ⟨_, (World.Wrote.write w _).trans (.remarks _ _), .of_silent ?_ ?_⟩
    · simp [Entry.event?]
    · simp [Entry.invocation?]
  act {d c e s w} := by
    obtain ⟨es, hw, hf, he⟩ := (m.frame d c observer).reported_act e s w
    refine ⟨_, (World.Wrote.write w _).trans hw, ?_⟩
    exact (Tells.of_silent rfl rfl).append (.of_effect hf he)
  note {d c x s w} := ⟨_, .write w _, .of_silent rfl rfl⟩
  call {d c k s w o w₁} hm := by
    obtain ⟨es, hw, ht⟩ := hm
    exact ⟨es, hw, ht.nested⟩
  create {d c endowment gas initCode s w o w₁} hm := by
    obtain ⟨es, hw, ht⟩ := hm
    exact ⟨es, hw, ht.nested⟩
  refuse {d t k w} _ := told_of_reported (reported_refuse d t k w) (k.opens_event d _) _
  done {d t k w o w'} _ hr := told_of_reported hr.reported (k.opens_event d _) _
  close {d t k w p w₁ h s w₂ h' dep w₃} _ hr _ hf _ hdep := by
    obtain ⟨es, hw, ht⟩ := hf
    exact told_of_frame (v := m.invocation d p) (k.opens_event d _) hr.reported hw ht hdep.reported

/-- A creation has an address if it succeeded, and only then. -/
theorem steady_named : m.Steady (β := β) observer (fun _ _ _ _ _ _ => True)
    (fun _ _ k _ o _ => k.isCreation → o.newAddress.isSome = o.exception.isNone) where
  refl := trivial
  trans _ _ := trivial
  observe := trivial
  act := trivial
  note := trivial
  call _ := trivial
  create _ := trivial
  refuse _ _ := rfl
  done _ hr hk := by
    cases hr with
    | unpaid _ => rfl
    | idle _ _ => simp [Outcome.untouched, Pending.newAddress, Message.pending, hk]
  close {d t k w p w₁ h s w₂ h' dep w₃} _ hr _ _ _ _ hk := by
    have hp : p.isCreation := by
      cases hr
      exact hk
    rw [Halt.newAddress_ended, Halt.exception_ended]
    cases h'.exception <;> simp [Pending.newAddress, hp]

end Machine

namespace Execution

variable {β : Type} [Store β]

theorem event?_remarks (rs : List Remark) :
    (rs.map Entry.remark).filterMap Entry.event? = [] := by
  simp [Entry.event?]

/-- The events of a task that is carried out are a word for it: those of its message, after
one for the transaction if there is one. A refused transaction has none. -/
theorem told_of_carried {x : Execution} (hi : x.machine.interpreter.Confined) {task : Task}
    {observer : Observer} {w w' : World β} {r : Except Error Unit} {phase : Phase}
    (path : List PathStep) (h : x.Carried observer w task r phase w') :
    (∀ e, r = .error e → (w'.since w).filterMap Entry.event? = []) ∧
      (r = .ok () → Event.Derives (.task task x.depth) ((w'.since w).filterMap Entry.event?) ∧
        ∃ es, w'.since w =
          ({ x with phase, path } : Execution).accepted.toList.map (.event ·.event) ++ es ∧
            Told x.depth ({ x with phase, path } : Execution).outcome es) := by
  have hc := (x.machine.steady_tracing (β := β) observer).conduct
  cases h with
  | refused =>
    refine ⟨?_, fun hr => nomatch hr⟩
    intro e _
    rw [(World.Wrote.remarks w _).since_eq]
    exact event?_remarks _
  | @transaction a o w' ha hs =>
    obtain ⟨es, hw, ht⟩ := hc.of_send hi hs
    have hcharge : w.Wrote (a.charge w) [.event a.event] := World.Wrote.write _ _
    have hall := (hcharge.trans hw).since_eq
    refine ⟨fun e hr => (nomatch hr), fun _ => ⟨?_, es, hall, ht⟩⟩
    rw [hall]
    exact .transaction a.transacts_event ht.word
  | message hs =>
    obtain ⟨es, hw, ht⟩ := hc.of_send hi hs
    refine ⟨fun e hr => (nomatch hr), fun _ => ⟨?_, es, hw.since_eq, ht⟩⟩
    rw [hw.since_eq]
    exact .message ht.word

/-- A task is told by a word of the grammar, which begins with its transaction if it has one
and ends with its outcome, and finalization adds nothing. Any message nested in it is told in the same way, and its sender gets what
the exit tells, but for the output of a creation that succeeded, which instead has an
address. -/
theorem events_are_nested_and_true (x : Execution) (hx : x.phase = .created)
    (hi : x.machine.interpreter.Confined) (observer : Observer) :
    (∀ (task : Task) (w : World β), ∃ r x' w', x.carryOut task observer w = (r, x', w') ∧
      (∀ e, r = .error e → (w'.since w).filterMap Entry.event? = []) ∧
      (r = .ok () → Event.Derives (.task task x.depth) ((w'.since w).filterMap Entry.event?) ∧
        ∃ es, w'.since w = x'.accepted.toList.map (.event ·.event) ++ es ∧
          Told x.depth x'.outcome es) ∧
      ∀ r₂ x₂ w₂, x'.finalize w' = .ok (r₂, x₂, w₂) →
        (w₂.since w').filterMap Entry.event? = []) ∧
    ∀ (d : Nat) (c : Context) (s : Substate) (w : World β),
      (∀ k, ∃ es o w', w.Wrote w' es ∧ Told (d + 1) o es ∧
        ∀ next, x.machine.runCode observer d c (.call k next) s w =
          x.machine.runCode observer d c (next ⟨o.exception.isNone, o.gas, o.output⟩)
            (s.absorb o) w') ∧
      ∀ endowment gas initCode, ∃ es o w', w.Wrote w' es ∧ Told (d + 1) o es ∧
        o.newAddress.isSome = o.exception.isNone ∧
        ∀ next, x.machine.runCode observer d c (.create endowment gas initCode next) s w =
          x.machine.runCode observer d c
            (next ⟨o.newAddress, o.gas, if o.exception.isNone then [] else o.output⟩)
            (s.absorb o) w' := by
  have hc := (x.machine.steady_tracing (β := β) observer).conduct
  refine ⟨?_, ?_⟩
  · intro task w
    obtain ⟨r, phase, path, w', h, he⟩ := x.carried hx hi task observer w
    obtain ⟨herr, hok⟩ := told_of_carried hi path h
    refine ⟨r, _, w', he, herr, hok, ?_⟩
    intro r₂ x₂ w₂ hf
    obtain ⟨es, hw, -, hev⟩ := reported_finalize hf
    rw [hw.since_eq]
    exact hev
  · intro d c s w
    refine ⟨?_, ?_⟩
    · intro k
      obtain ⟨o, w', hs, -, es, hw, ht⟩ := hc.send hi (d + 1) c.terms (.call k) w
      exact ⟨es, o, w', hw, ht, Machine.runCode_call hs⟩
    · intro endowment gas initCode
      obtain ⟨o, w', hs, -, es, hw, ht⟩ := hc.send hi (d + 1) c.terms
        (.create ⟨c.address, endowment, gas, initCode⟩) (w.edit (·.bumpNonce c.address))
      have hnamed := (x.machine.steady_named observer).conduct.of_send hi hs rfl
      exact ⟨es, o, w', hw, ht, hnamed, Machine.runCode_create hs⟩

end Execution

/-- Code that calls itself once, in vain, and then destroys itself. -/
def Interpreter.giving : Interpreter := fun v =>
  if v.depth = 0 then
    .call { Call.toSelf with gas := 100 } fun o =>
      .act (.selfDestruct 8) (.halt ⟨o.gasLeft, o.output, none⟩)
  else .halt ⟨v.gas, [1], some .revertInstruction⟩

theorem Interpreter.confined_giving : giving.Confined := by
  intro v
  unfold giving
  split
  · exact fun _ => trivial
  · trivial

theorem events_of_giving_code :
    ∃ x' w' es, (Execution.new (.plain .giving) 0).carryOut (.transaction .toSelf) .silent
        .plain = (.ok (), x', w') ∧
      Event.Derives (.task (.transaction .toSelf) 0)
        ((w'.since .plain).filterMap Entry.event?) ∧
      w'.since .plain = x'.accepted.toList.map (.event ·.event) ++ es ∧ Told 0 x'.outcome es ∧
      ((w'.since .plain).filterMap Entry.event?).head? = some (.transactCall 7 7 0 [] 30000) ∧
      ((w'.since .plain).filterMap Entry.event?).filterMap Event.exitDepth? = [1, 0] ∧
      x'.outcome.output = [1] := by
  obtain ⟨htask, -⟩ := Execution.events_are_nested_and_true (β := State)
    (.new (.plain .giving) 0) rfl Interpreter.confined_giving .silent
  obtain ⟨r, x', w', h, -, hok, -⟩ := htask (.transaction .toSelf) .plain
  have hr : ((Execution.new (.plain .giving) 0).carryOut (.transaction .toSelf) .silent
      World.plain).1 = .ok () := by rfl
  have hhead : ((((Execution.new (.plain .giving) 0).carryOut (.transaction .toSelf) .silent
      World.plain).2.2.since World.plain).filterMap Entry.event?).head? =
        some (.transactCall 7 7 0 [] 30000) := by decide +kernel
  have hexits : ((((Execution.new (.plain .giving) 0).carryOut (.transaction .toSelf) .silent
      World.plain).2.2.since World.plain).filterMap Entry.event?).filterMap Event.exitDepth? =
        [1, 0] := by decide +kernel
  have houtput : ((Execution.new (.plain .giving) 0).carryOut (.transaction .toSelf) .silent
      World.plain).2.1.outcome.output = [1] := by rfl
  rw [h] at hr hhead hexits houtput
  cases hr
  obtain ⟨hword, es, hes, ht⟩ := hok rfl
  exact ⟨x', w', es, h, hword, hes, ht, hhead, hexits, houtput⟩

end Transact
