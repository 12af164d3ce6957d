import Transact.Proofs.Finalization

/-!
Tasks carried out to their end, one after the other on one ledger, each by an execution
of its own. `Completed` lists the ways a task can end.
-/

namespace Transact

namespace Execution

variable {β : Type} [Store β]

/-- Carries out a task to its end: a transaction is finalized unless it is refused. -/
def complete (x : Execution) (task : Task) (observer : Observer) (w : World β) :
    Except Fault (Except Error Unit × Execution × World β) :=
  match task with
  | .transaction t => x.transact t observer w
  | .message terms message => .ok (x.carryOut (.message terms message) observer w)

/-- What a task asks of a new execution, and where it ends. -/
inductive Completed (x : Execution) (observer : Observer) (w : World β) :
    Task → Except Error Unit → Execution → World β → Prop
  | refused {t : Transaction} {r : Rejection} (path : List PathStep)
      (h : x.machine.validate w.ledger t = .error r) :
      Completed x observer w (.transaction t) (.error (.rejected r.exception))
        { x with phase := .rejected r.exception .nothing, path } (w.remarks r.remarks)
  | finalized {a : Accepted} {o o' : Outcome} {refunded : Quantity} {w' : World β}
      (path : List PathStep) (h : x.machine.Admits w.ledger a)
      (hs : x.machine.send observer x.depth a.terms a.message (a.charge w) = (.closed o, w'))
      (hd : Refunded x.machine.rules a o o' refunded) :
      Completed x observer w (.transaction a.transaction) (.ok ())
        (({ x with phase := .executed (some a) o, path } : Execution).conclude a o' refunded w').1
        (({ x with phase := .executed (some a) o, path } : Execution).conclude a o' refunded w').2
  | message {terms : Terms} {message : Message} {o : Outcome} {w' : World β}
      (path : List PathStep)
      (hs : x.machine.send observer x.depth terms message w = (.closed o, w')) :
      Completed x observer w (.message terms message) (.ok ())
        { x with phase := .executed none o, path } w'

theorem completed {x : Execution} (hx : x.phase = .created)
    (hi : x.machine.interpreter.Confined) {task : Task} {observer : Observer} {w w' : World β}
    {r : Except Error Unit} {x' : Execution} (h : x.complete task observer w = .ok (r, x', w')) :
    x.Completed observer w task r x' w' := by
  obtain ⟨r₁, phase, path, w₁, hc, he⟩ := x.carried hx hi task observer w
  cases hc with
  | refused hv =>
    rw [complete, x.transact_eq, he] at h
    cases h
    exact .refused path hv
  | @transaction a o _ ha hs =>
    rw [complete, x.transact_eq, he] at h
    obtain ⟨o', refunded, hd, rfl, hconclude⟩ := finalize_eq_conclude rfl h
    obtain ⟨rfl, rfl⟩ := Prod.mk.inj hconclude
    exact .finalized path ha hs hd
  | message hs =>
    rw [complete, he] at h
    cases h
    exact .message path hs

/-- Every task is carried out to its end. -/
theorem complete_eq_ok {x : Execution} (hx : x.phase = .created)
    (hi : x.machine.interpreter.Confined) (hq : 1 ≤ x.machine.rules.refundQuotient) (task : Task)
    (observer : Observer) (w : World β) :
    ∃ r x' w', x.complete task observer w = .ok (r, x', w') := by
  obtain ⟨r, phase, path, w', hc, he⟩ := x.carried hx hi task observer w
  cases hc with
  | refused =>
    rw [complete, x.transact_eq, he]
    exact ⟨_, _, _, rfl⟩
  | @transaction a o _ ha hs =>
    obtain ⟨o', refunded, -, hf⟩ :=
      finalize_eq_ok (x := { x with phase := .executed (some a) o, path }) rfl (.inl hq) w'
    rw [complete, x.transact_eq, he]
    exact ⟨_, _, _, hf⟩
  | message => exact ⟨_, _, _, rfl⟩

end Execution

/-- A task with what it is carried out with. -/
structure Job where
  machine : Machine
  depth : Nat
  task : Task
  observer : Observer
  /-- Whether a summary is asked for, and whether with the path. -/
  wanted : Option Bool

/-- What a job ends with, and all that happened meanwhile. -/
structure Report where
  reply : Except Execution.Error Unit
  execution : Execution
  diary : Diary

/-- A new execution for the job. -/
def Job.execution (j : Job) : Execution :=
  { Execution.new j.machine j.depth with wanted := j.wanted }

variable {β : Type} [Store β]

def Job.perform (j : Job) (l : Ledger β) : Except Fault (Report × Ledger β) := do
  let (reply, x, w) ← j.execution.complete j.task j.observer ⟨l, #[]⟩
  return (⟨reply, x, w.diary⟩, w.ledger)

/-- One job after the other; `between` is done after each. -/
def Ledger.processWith (between : Ledger β → Ledger β) (l : Ledger β) :
    List Job → Except Fault (List Report × Ledger β)
  | [] => .ok ([], l)
  | j :: jobs => do
    let (report, l) ← j.perform l
    let (reports, l) ← (between l).processWith between jobs
    return (report :: reports, l)

/-- One job after the other, on one ledger. -/
def Ledger.process (l : Ledger β) (jobs : List Job) : Except Fault (List Report × Ledger β) :=
  l.processWith id jobs

/-- The job keeps to what code may do, and its refund can be computed. -/
structure Job.Sound (j : Job) : Prop where
  confined : j.machine.interpreter.Confined
  refundable : 1 ≤ j.machine.rules.refundQuotient

theorem Job.perform_eq_ok {j : Job} {l l' : Ledger β} {report : Report} :
    j.perform l = .ok (report, l') ↔
      j.execution.complete j.task j.observer ⟨l, #[]⟩ =
        .ok (report.reply, report.execution, ⟨l', report.diary⟩) := by
  unfold perform
  rw [bind_eq_ok]
  constructor
  · rintro ⟨⟨reply, x, w⟩, he, h⟩
    cases h
    exact he
  · intro he
    exact ⟨_, he, rfl⟩

variable {between : Ledger β → Ledger β} {j : Job} {jobs : List Job} {l l' : Ledger β}
  {reports : List Report}

theorem Ledger.processWith_cons_eq_ok :
    l.processWith between (j :: jobs) = .ok (reports, l') ↔
      ∃ report l₁ rest, j.perform l = .ok (report, l₁) ∧
        (between l₁).processWith between jobs = .ok (rest, l') ∧ reports = report :: rest := by
  rw [processWith, bind_eq_ok]
  constructor
  · rintro ⟨⟨report, l₁⟩, hj, h⟩
    obtain ⟨⟨rest, l₂⟩, hjobs, h⟩ := bind_eq_ok.mp h
    cases h
    exact ⟨report, l₁, rest, hj, hjobs, rfl⟩
  · rintro ⟨report, l₁, rest, hj, hjobs, rfl⟩
    exact ⟨(report, l₁), hj, bind_eq_ok.mpr ⟨(rest, l'), hjobs, rfl⟩⟩

theorem Job.perform_sound (h : j.Sound) (l : Ledger β) :
    ∃ report l', j.perform l = .ok (report, l') := by
  obtain ⟨r, x, w, hj⟩ :=
    Execution.complete_eq_ok (x := j.execution) rfl h.confined h.refundable j.task j.observer
      ⟨l, #[]⟩
  exact ⟨⟨r, x, w.diary⟩, w.ledger, Job.perform_eq_ok.mpr hj⟩

/-- Sound jobs all come to their ends. -/
theorem Ledger.processWith_sound (h : ∀ j ∈ jobs, j.Sound) (between : Ledger β → Ledger β)
    (l : Ledger β) : ∃ reports l', l.processWith between jobs = .ok (reports, l') := by
  induction jobs generalizing l with
  | nil => exact ⟨_, _, rfl⟩
  | cons j jobs ih =>
    rw [List.forall_mem_cons] at h
    obtain ⟨report, l₁, hj⟩ := j.perform_sound h.1 l
    obtain ⟨reports, l', hjobs⟩ := ih h.2 (between l₁)
    exact ⟨report :: reports, l', processWith_cons_eq_ok.mpr ⟨_, _, reports, hj, hjobs, rfl⟩⟩

/-- The transaction of account 7 to itself, as a job. -/
def Job.toSelf (i : Interpreter) : Job := ⟨.plain i, 0, .transaction .toSelf, .silent, none⟩

end Transact
