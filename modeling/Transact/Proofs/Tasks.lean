import Transact.Execution.Finalization
import Transact.Proofs.Conduct

/-!
A transaction or a bare message on its way to the stage before finalization.
`Machine.Admits` says what is known of an accepted transaction, and `Carried`
lists the ways a task can go.
-/

namespace Transact

/-- An accepted transaction meets every condition. -/
structure Machine.Admits {β : Type} [Store β] (m : Machine) (l : Ledger β) (a : Accepted) :
    Prop where
  sender : a.transaction.sender = some a.sender
  gas : a.gas.toNat + intrinsicGas m.rules a.transaction.isCreation a.transaction.data =
    a.transaction.gasLimit.toNat
  nonce : l.nonce a.sender = a.transaction.nonce
  block : m.block.gasUsed.toNat + a.transaction.gasLimit.toNat ≤ m.block.gasLimit.toNat
  commitment : a.commitment = .ofAmounts a.transaction.gasLimit a.transaction.gasPrice
    a.transaction.value
  funded : a.commitment.total ≤ (l.balance a.sender).toNat

theorem payIntrinsic_eq_ok {gasLimit gas : Quantity} {n : Nat}
    (h : payIntrinsic gasLimit n = .ok gas) : gas.toNat + n = gasLimit.toNat := by
  unfold payIntrinsic at h
  have hm := gasLimit.le_most
  split at h
  · cases h
  · cases h
    rw [Quantity.toNat_sub, Quantity.toNat_ofNat]
    omega

theorem Commitment.fund_eq_ok {c c' : Commitment} {balance : Quantity}
    (h : c.fund balance = .ok c') : c' = c ∧ c.total ≤ balance.toNat := by
  unfold Commitment.fund at h
  split at h
  · cases h
  · cases h
    exact ⟨rfl, by omega⟩

theorem mapError_eq_ok {ε ε' α : Type} {f : ε → ε'} {x : Except ε α} {a : α} :
    x.mapError f = .ok a ↔ x = .ok a := by
  cases x with
  | error e =>
    constructor
    · intro h
      cases h
    · intro h
      cases h
  | ok b =>
    constructor
    · intro h
      cases h
      rfl
    · intro h
      cases h
      rfl

theorem bind_eq_ok {ε α α' : Type} {x : Except ε α} {f : α → Except ε α'} {b : α'} :
    (x >>= f) = .ok b ↔ ∃ a, x = .ok a ∧ f a = .ok b := by
  cases x with
  | error e =>
    constructor
    · intro h
      cases h
    · rintro ⟨a, h, -⟩
      cases h
  | ok a =>
    constructor
    · intro h
      exact ⟨a, rfl, h⟩
    · rintro ⟨a', h, hf⟩
      cases h
      exact hf

theorem Machine.admits_of_validate {β : Type} [Store β] {m : Machine} {l : Ledger β}
    {t : Transaction} {a : Accepted} (h : m.validate l t = .ok a) :
    a.transaction = t ∧ m.Admits l a := by
  unfold validate at h
  split at h
  · next sender hs =>
    obtain ⟨gas, hg, h⟩ := bind_eq_ok.mp h
    have hg := payIntrinsic_eq_ok (mapError_eq_ok.mp hg)
    dsimp only at h
    split at h
    · cases h
    · next hn =>
      split at h
      · cases h
      · next hb =>
        obtain ⟨c, hc, h⟩ := bind_eq_ok.mp h
        obtain ⟨rfl, hf⟩ := Commitment.fund_eq_ok (mapError_eq_ok.mp hc)
        cases h
        exact ⟨rfl, hs, hg, Classical.not_not.mp hn, Nat.le_of_not_lt hb, rfl, hf⟩
  · cases h

/-- The sender of an accepted transaction can pay for the gas and the value. -/
theorem Machine.Admits.fee_le {β : Type} [Store β] {m : Machine} {l : Ledger β} {a : Accepted}
    (h : m.Admits l a) :
    a.transaction.gasLimit.toNat * a.transaction.gasPrice.toNat + a.transaction.value.toNat ≤
      (l.balance a.sender).toNat := by
  have hf := h.funded
  rw [h.commitment] at hf
  exact hf

/-- The fee of an accepted transaction stays in range. -/
theorem Machine.Admits.price_eq {β : Type} [Store β] {m : Machine} {l : Ledger β} {a : Accepted}
    (h : m.Admits l a) {gas : Quantity} (hg : gas ≤ a.transaction.gasLimit) :
    (a.price gas).toNat = gas.toNat * a.transaction.gasPrice.toNat := by
  have hm := (l.balance a.sender).le_most
  have hf := h.fee_le
  have hmul := Nat.mul_le_mul_right a.transaction.gasPrice.toNat hg
  unfold Accepted.price
  rw [Quantity.toNat_mul]
  omega

/-- The gas of an accepted transaction can be bought. -/
theorem Machine.Admits.debit_eq {β : Type} [Store β] {m : Machine} {l : Ledger β} {a : Accepted}
    (h : m.Admits l a) :
    (l.bumpNonce a.sender).debit a.sender (a.price a.transaction.gasLimit) =
      .ok ((l.bumpNonce a.sender).setBalance a.sender
        (l.balance a.sender - a.price a.transaction.gasLimit)) := by
  have hp := h.price_eq (Nat.le_refl _)
  have hf := h.fee_le
  have hb : (l.bumpNonce a.sender).balance a.sender = l.balance a.sender := rfl
  have hle : ¬ l.balance a.sender < a.price a.transaction.gasLimit := by
    rw [Quantity.lt_def]
    omega
  unfold Ledger.debit
  rw [hb, if_neg hle]

/-- The world when the message of an accepted transaction begins: its nonce is
counted and its gas bought. -/
def Accepted.charge {β : Type} [Store β] (a : Accepted) (w : World β) : World β :=
  (w.edit fun l => (l.bumpNonce a.sender).setBalance a.sender
    (l.balance a.sender - a.price a.transaction.gasLimit)).event a.event

/-- Buying gas leaves the counted nonce. -/
theorem Accepted.creationTarget_charge {β : Type} [Store β] (a : Accepted) (w : World β) :
    (a.charge w).ledger.creationTarget a.sender =
      (w.ledger.bumpNonce a.sender).creationTarget a.sender :=
  rfl

theorem Accepted.message_of_create {a : Accepted} (h : a.transaction.action = .create) :
    a.message = .create ⟨a.sender, a.transaction.value, a.gas, a.transaction.data⟩ := by
  unfold message
  dsimp only
  rw [h]

theorem Accepted.message_of_call {a : Accepted} {recipient : Address}
    (h : a.transaction.action = .call recipient) : a.message =
      .call ⟨a.sender, recipient, recipient, a.transaction.value, a.gas, a.transaction.data⟩ := by
  unfold message
  dsimp only
  rw [h]

/-- A transaction or a bare message. -/
inductive Task
  | transaction (t : Transaction)
  | message (terms : Terms) (message : Message)

namespace Execution

variable {β : Type} [Store β]

/-- Takes a task to the point where its code must run, if it has any. -/
def takeUp (x : Execution) (task : Task) (w : World β) : Except Error Bool × Execution × World β :=
  match task with
  | .transaction t =>
    match x.accept t w with
    | (.error e, x, w) => (.error e, x, w)
    | (.ok _, x, w) => x.execute w
  | .message terms message => x.dispatch terms message w

/-- Carries out a task, short of finalization. -/
def carryOut (x : Execution) (task : Task) (observer : Observer) (w : World β) :
    Except Error Unit × Execution × World β :=
  match x.takeUp task w with
  | (.error e, x, w) => (.error e, x, w)
  | (.ok true, x, w) => (.ok (), x, w)
  | (.ok false, x, w) => x.run observer w

theorem transact_eq (x : Execution) (t : Transaction) (observer : Observer) (w : World β) :
    x.transact t observer w =
      match x.carryOut (.transaction t) observer w with
      | (.error e, x, w) => .ok (.error e, x, w)
      | (.ok _, x, w) => x.finalize w := by
  unfold transact carryOut takeUp
  dsimp only
  rcases x.accept t w with ⟨_ | _, x, w⟩
  · rfl
  · dsimp only
    rcases x.execute w with ⟨_ | b, x, w⟩
    · rfl
    · cases b <;> rfl

/-- What a task asks of a new execution, and where it leads. -/
inductive Carried (x : Execution) (observer : Observer) (w : World β) :
    Task → Except Error Unit → Phase → World β → Prop
  | refused {t : Transaction} {r : Rejection} (h : x.machine.validate w.ledger t = .error r) :
      Carried x observer w (.transaction t) (.error (.rejected r.exception))
        (.rejected r.exception .nothing) (w.remarks r.remarks)
  | transaction {a : Accepted} {o : Outcome} {w' : World β} (h : x.machine.Admits w.ledger a)
      (hs : x.machine.send observer x.depth a.terms a.message (a.charge w) = (.closed o, w')) :
      Carried x observer w (.transaction a.transaction) (.ok ()) (.executed (some a) o) w'
  | message {terms : Terms} {message : Message} {o : Outcome} {w' : World β}
      (hs : x.machine.send observer x.depth terms message w = (.closed o, w')) :
      Carried x observer w (.message terms message) (.ok ()) (.executed none o) w'

/-- A message that is begun, and run if there is code to run. -/
theorem start_run (x : Execution) (a : Option Accepted) (terms : Terms) (message : Message)
    (observer : Observer) (w : World β) {o : Outcome} {w' : World β}
    (hs : x.machine.send observer x.depth terms message w = (.closed o, w')) :
    ∃ path, (match x.start a terms message w with
      | (true, x, w) => (.ok (), x, w)
      | (false, x, w) => x.run observer w) =
      (.ok (), { x with phase := .executed a o, path }, w') := by
  unfold Machine.send at hs
  unfold start
  rcases hb : x.machine.begin x.depth terms message w with ⟨o' | p, w₁⟩
  · rw [hb] at hs
    cases hs
    exact ⟨x.path, rfl⟩
  · rw [hb] at hs
    dsimp only at hs ⊢
    unfold run
    dsimp only
    rw [hs]
    exact ⟨_, rfl⟩

/-- A message that is not done once it is begun waits for its code to run. -/
theorem start_eq_false {x x' : Execution} {a : Option Accepted} {terms : Terms}
    {message : Message} {w w' : World β} (h : x.start a terms message w = (false, x', w')) :
    ∃ p, x' = { x with phase := .awaiting a p } ∧ p.context.terms = terms ∧
      x.depth ≤ x.machine.rules.callDepthLimit := by
  unfold start at h
  rcases hb : x.machine.begin x.depth terms message w with ⟨o | p, w₁⟩
  · rw [hb] at h
    cases h
  · rw [hb] at h
    cases h
    obtain ⟨hd, hr⟩ := Machine.begin_eq_pending hb
    exact ⟨p, rfl, by rw [hr.context_of_pending, message.terms_context], hd⟩

theorem accept_eq_ok {x x' : Execution} {t : Transaction} {w w' : World β}
    (h : x.accept t w = (.ok (), x', w')) :
    ∃ a, x.machine.validate w.ledger t = .ok a ∧ x' = { x with phase := .accepted a } ∧
      w' = w.edit (·.bumpNonce a.sender) := by
  unfold accept at h
  split at h
  · cases hv : x.machine.validate w.ledger t with
    | error r =>
      rw [hv] at h
      cases h
    | ok a =>
      rw [hv] at h
      cases h
      exact ⟨a, rfl, rfl, rfl⟩
  · cases h

theorem accept_of_ok {x : Execution} (hx : x.phase = .created) {t : Transaction} {w : World β}
    {a : Accepted} (h : x.machine.validate w.ledger t = .ok a) :
    x.accept t w =
      (.ok (), { x with phase := .accepted a }, w.edit (·.bumpNonce a.sender)) := by
  unfold accept
  rw [hx]
  dsimp only
  rw [h]

/-- An admitted transaction buys its gas, and its message begins. -/
theorem execute_of_admits {x : Execution} {a : Accepted} (hx : x.phase = .accepted a)
    {w : World β} (ha : x.machine.Admits w.ledger a) :
    x.execute (w.edit (·.bumpNonce a.sender)) =
      (.ok (x.start (some a) a.terms a.message (a.charge w)).1,
        (x.start (some a) a.terms a.message (a.charge w)).2) := by
  have hd : (w.edit (·.bumpNonce a.sender)).ledger.debit a.sender
      (a.price a.transaction.gasLimit) = _ := ha.debit_eq
  unfold execute
  rw [hx]
  dsimp only
  rw [hd]
  rfl

theorem carryOut_message (x : Execution) (hx : x.phase = .created) (terms : Terms)
    (message : Message) (observer : Observer) (w : World β) {o : Outcome} {w' : World β}
    (hs : x.machine.send observer x.depth terms message w = (.closed o, w')) :
    ∃ path, x.carryOut (.message terms message) observer w =
      (.ok (), { x with phase := .executed none o, path }, w') := by
  obtain ⟨path, h⟩ := x.start_run none terms message observer w hs
  refine ⟨path, ?_⟩
  rw [← h]
  unfold carryOut takeUp dispatch
  rw [hx]
  dsimp only
  rcases x.start none terms message w with ⟨b, x, w⟩
  cases b <;> rfl

theorem carryOut_refused (x : Execution) (hx : x.phase = .created) (t : Transaction)
    (observer : Observer) (w : World β) {r : Rejection}
    (h : x.machine.validate w.ledger t = .error r) :
    x.carryOut (.transaction t) observer w =
      (.error (.rejected r.exception), { x with phase := .rejected r.exception .nothing },
        w.remarks r.remarks) := by
  unfold carryOut takeUp accept
  rw [hx]
  dsimp only
  rw [h]

theorem carryOut_transaction (x : Execution) (hx : x.phase = .created) (t : Transaction)
    (observer : Observer) (w : World β) {a : Accepted}
    (h : x.machine.validate w.ledger t = .ok a) {o : Outcome} {w' : World β}
    (hs : x.machine.send observer x.depth a.terms a.message (a.charge w) = (.closed o, w')) :
    ∃ path, x.carryOut (.transaction t) observer w =
      (.ok (), { x with phase := .executed (some a) o, path }, w') := by
  let y : Execution := { x with phase := .accepted a }
  have haccept : x.accept t w = (.ok (), y, w.edit (·.bumpNonce a.sender)) := accept_of_ok hx h
  have hexecute := execute_of_admits (x := y) rfl (Machine.admits_of_validate h).2
  obtain ⟨path, hrun⟩ := y.start_run (some a) a.terms a.message observer (a.charge w) hs
  refine ⟨path, Eq.trans ?_ hrun⟩
  unfold carryOut takeUp
  dsimp only
  rw [haccept]
  dsimp only
  rw [hexecute]
  rcases y.start (some a) a.terms a.message (a.charge w) with ⟨b, z, w⟩
  cases b <;> rfl

/-- A new execution carries out its task to the last stage before finalization,
unless the transaction is refused. -/
theorem carried (x : Execution) (hx : x.phase = .created) (hi : x.machine.interpreter.Confined)
    (task : Task) (observer : Observer) (w : World β) :
    ∃ r phase path w', x.Carried observer w task r phase w' ∧
      x.carryOut task observer w = (r, { x with phase, path }, w') := by
  cases task with
  | message terms message =>
    obtain ⟨o, w', hs, -⟩ := x.machine.send_closed observer hi x.depth terms message w
    obtain ⟨path, h⟩ := x.carryOut_message hx terms message observer w hs
    exact ⟨_, _, path, w', .message hs, h⟩
  | transaction t =>
    cases hv : x.machine.validate w.ledger t with
    | error r => exact ⟨_, _, x.path, _, .refused hv, x.carryOut_refused hx t observer w hv⟩
    | ok a =>
      obtain ⟨o, w', hs, -⟩ :=
        x.machine.send_closed observer hi x.depth a.terms a.message (a.charge w)
      obtain ⟨path, h⟩ := x.carryOut_transaction hx t observer w hv hs
      obtain ⟨rfl, ha⟩ := Machine.admits_of_validate hv
      exact ⟨_, _, path, w', .transaction ha hs, h⟩

end Execution

/-! A setting to try code in: account 7 has code and some ether, and is alone. -/

def Machine.plain (i : Interpreter) : Machine where
  rules := .istanbul
  block := ⟨⟨0, 0, 0, 0, 100000⟩, 0, default⟩
  hashes _ := 0
  interpreter := i

def World.plain : World State := ⟨.ofBase ((∅ : State).insert 7 ⟨0, 50000, [1], ∅⟩), #[]⟩

/-- Account 7 calls itself. -/
def Call.toSelf : Call := ⟨7, 7, 7, 0, 0, []⟩

def Transaction.toSelf : Transaction := ⟨some 7, .call 7, 0, 30000, 1, 0, []⟩

end Transact
