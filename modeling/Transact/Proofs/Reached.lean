import Transact.Execution.Command
import Transact.Proofs.Tasks

/-!
What an execution can become, whatever it is asked to do and in whatever order.
`Moved` lists the ways one command changes how far it has come. Main statement:
`Reached.invariant`.
-/

namespace Transact.Execution

variable {β : Type} [Store β]

theorem finalize_of_perform {s s' : Scene β} {r : Reply}
    (h : s.perform .finalize = .ok (r, s')) :
    ∃ done x w, s.execution.finalize s.world = .ok (done, x, w) ∧ r = .ofUnit done ∧
      s' = ⟨x, s.parent, w⟩ := by
  unfold Scene.perform at h
  rcases hf : s.execution.finalize s.world with f | ⟨done, x, w⟩
  · rw [hf] at h
    cases h
  · rw [hf] at h
    cases h
    exact ⟨done, x, w, rfl, rfl, rfl⟩

/-- A message that `x` can begin, and for which transaction. -/
inductive Starts (x : Execution) : Option Accepted → Terms → Message → Prop
  | transaction {a : Accepted} (hx : x.phase = .accepted a) : Starts x (some a) a.terms a.message
  | bare {terms : Terms} {message : Message} (hx : x.phase = .created) :
      Starts x none terms message

/-- How far one command can take `x`, in some world. -/
inductive Moved (β : Type) [Store β] (x : Execution) : Phase → Prop
  | stay : Moved β x x.phase
  | accept {t : Transaction} {l : Ledger β} {a : Accepted} (hx : x.phase = .created)
      (h : x.machine.validate l t = .ok a) : Moved β x (.accepted a)
  | refuse {t : Transaction} {l : Ledger β} {r : Rejection} (hx : x.phase = .created)
      (h : x.machine.validate l t = .error r) : Moved β x (.rejected r.exception .nothing)
  /-- Accepted, but by now the gas cannot be paid. -/
  | unpaid {a : Accepted} {l : Ledger β} {e : Exception} (hx : x.phase = .accepted a)
      (h : l.debit a.sender (a.price a.transaction.gasLimit) = .error e) :
      Moved β x (.rejected e a.commitment)
  | done {a : Option Accepted} {terms : Terms} {message : Message} {w w' : World β}
      {o : Outcome} (hx : x.Starts a terms message)
      (h : x.machine.begin x.depth terms message w = (.done o, w')) : Moved β x (.executed a o)
  | pending {a : Option Accepted} {terms : Terms} {message : Message} {w w' : World β}
      {p : Pending} (hx : x.Starts a terms message)
      (h : x.machine.begin x.depth terms message w = (.pending p, w')) :
      Moved β x (.awaiting a p)
  | close {a : Option Accepted} {p : Pending} {observer : Observer} {w w' : World β}
      {o : Outcome} (hx : x.phase = .awaiting a p)
      (h : x.machine.run observer x.depth p w = (.closed o, w')) : Moved β x (.executed a o)
  | stick {a : Option Accepted} {p : Pending} {observer : Observer} {w w' : World β}
      {o : Outcome} (hx : x.phase = .awaiting a p)
      (h : x.machine.run observer x.depth p w = (.uneven o, w')) : Moved β x (.stuck a o)
  | handOver {a : Option Accepted} {o : Outcome} (hx : x.phase = .executed a o)
      (ho : o.exception = none) : Moved β x (.executed a { o with substate := ∅ })
  | finalize {a : Accepted} {o o' : Outcome} {refunded : Quantity} {w : World β}
      (hx : x.phase = .executed (some a) o)
      (h : refund x.machine.rules a o = .ok (o', refunded)) :
      Moved β x (x.conclude a o' refunded w).1.phase

/-- `x'` is `x` after a command. No command exchanges the machine or the depth. -/
structure Follows (β : Type) [Store β] (x x' : Execution) : Prop where
  machine : x'.machine = x.machine
  depth : x'.depth = x.depth
  moved : x.Moved β x'.phase

namespace Follows

theorem refl (x : Execution) : x.Follows β x := ⟨rfl, rfl, .stay⟩

variable (x : Execution) (w : World β)

theorem accept (t : Transaction) : x.Follows β (x.accept t w).2.1 := by
  unfold Execution.accept
  split
  · next hx =>
    cases h : x.machine.validate w.ledger t with
    | error r => exact ⟨rfl, rfl, .refuse hx h⟩
    | ok a => exact ⟨rfl, rfl, .accept hx h⟩
  · exact refl x

theorem start {a : Option Accepted} {terms : Terms} {message : Message}
    (hx : x.Starts a terms message) : x.Follows β (x.start a terms message w).2.1 := by
  unfold Execution.start
  rcases h : x.machine.begin x.depth terms message w with ⟨o | p, w'⟩
  · exact ⟨rfl, rfl, .done hx h⟩
  · exact ⟨rfl, rfl, .pending hx h⟩

theorem execute : x.Follows β (x.execute w).2.1 := by
  unfold Execution.execute
  split
  · next a hx =>
    cases h : w.ledger.debit a.sender (a.price a.transaction.gasLimit) with
    | error e => exact ⟨rfl, rfl, .unpaid hx h⟩
    | ok l => exact start x _ (.transaction hx)
  · exact refl x

theorem dispatch (terms : Terms) (message : Message) :
    x.Follows β (x.dispatch terms message w).2.1 := by
  unfold Execution.dispatch
  split
  · next hx => exact start x w (.bare hx)
  · exact refl x

theorem run (observer : Observer) : x.Follows β (x.run observer w).2.1 := by
  unfold Execution.run
  split
  · next a p hx =>
    dsimp only
    rcases h : x.machine.run observer x.depth p w with ⟨o | o, w'⟩
    · exact ⟨rfl, rfl, .close hx h⟩
    · exact ⟨rfl, rfl, .stick hx h⟩
  · exact refl x

theorem handOver (parent : Substate) : x.Follows β (x.handOver parent).2.1 := by
  unfold Execution.handOver
  split
  · next a o hx =>
    split
    · exact refl x
    · next ho => exact ⟨rfl, rfl, .handOver hx ho⟩
  · exact refl x

theorem finalize {x x' : Execution} {w w' : World β} {r : Except Error Unit}
    (h : x.finalize w = .ok (r, x', w')) : x.Follows β x' := by
  unfold Execution.finalize at h
  split at h
  · next a o hx =>
    cases hr : refund x.machine.rules a o with
    | error f =>
      rw [hr] at h
      cases h
    | ok paid =>
      rw [hr] at h
      cases h
      exact ⟨rfl, rfl, .finalize hx hr⟩
  · cases h
    exact refl x

theorem perform {s s' : Scene β} {c : Command} {r : Reply}
    (h : s.perform c = .ok (r, s')) : s.execution.Follows β s'.execution := by
  cases c with
  | accept t =>
    cases h
    exact accept s.execution s.world t
  | execute =>
    cases h
    exact execute s.execution s.world
  | dispatch terms message =>
    cases h
    exact dispatch s.execution s.world terms message
  | run observer =>
    cases h
    exact run s.execution s.world observer
  | finalize =>
    obtain ⟨done, x, w, hf, -, rfl⟩ := finalize_of_perform h
    exact finalize hf
  | handOver =>
    cases h
    exact handOver s.execution s.parent
  | requestSummary withPath =>
    cases h
    exact ⟨rfl, rfl, .stay⟩
  | takeSummary =>
    cases h
    exact ⟨rfl, rfl, .stay⟩

end Follows

/-- What a new execution can become. Before each command the world and the parent
substate may be any. -/
inductive Reached (β : Type) [Store β] (m : Machine) (depth : Nat) : Execution → Prop
  | new : Reached β m depth (.new m depth)
  | step {s s' : Scene β} {c : Command} {r : Reply} (hs : Reached β m depth s.execution)
      (h : s.perform c = .ok (r, s')) : Reached β m depth s'.execution

namespace Reached

variable {m : Machine} {depth : Nat} {x : Execution}

theorem machine_eq (h : Reached β m depth x) : x.machine = m := by
  induction h with
  | new => rfl
  | step _ h ih => exact (Follows.perform h).machine.trans ih

theorem depth_eq (h : Reached β m depth x) : x.depth = depth := by
  induction h with
  | new => rfl
  | step _ h ih => exact (Follows.perform h).depth.trans ih

/-- What holds of the first phase and is kept by every move holds of all. -/
theorem invariant {P : Phase → Prop} (hnew : P .created)
    (hmoved : ∀ (x : Execution) (phase : Phase), x.machine = m → x.depth = depth → P x.phase →
      x.Moved β phase → P phase) (h : Reached β m depth x) : P x.phase := by
  induction h with
  | new => exact hnew
  | step hs h ih => exact hmoved _ _ hs.machine_eq hs.depth_eq ih (Follows.perform h).moved

theorem takeUp (h : Reached β m depth x) (task : Task) (w : World β) :
    Reached β m depth (x.takeUp task w).2.1 := by
  unfold Execution.takeUp
  cases task with
  | message terms message => exact h.step (s := ⟨x, ∅, w⟩) (c := .dispatch terms message) rfl
  | transaction t =>
    have ha : Reached β m depth (x.accept t w).2.1 :=
      h.step (s := ⟨x, ∅, w⟩) (c := .accept t) rfl
    dsimp only
    rcases he : x.accept t w with ⟨e | _, y, w₁⟩
    · rw [he] at ha
      exact ha
    · rw [he] at ha
      exact ha.step (s := ⟨y, ∅, w₁⟩) (c := .execute) rfl

theorem carryOut (h : Reached β m depth x) (task : Task) (observer : Observer) (w : World β) :
    Reached β m depth (x.carryOut task observer w).2.1 := by
  have ht := h.takeUp task w
  unfold Execution.carryOut
  rcases he : x.takeUp task w with ⟨e | b, y, w₁⟩
  · rw [he] at ht
    exact ht
  · rw [he] at ht
    cases b with
    | true => exact ht
    | false => exact ht.step (s := ⟨y, ∅, w₁⟩) (c := .run observer) rfl

end Reached

end Transact.Execution
