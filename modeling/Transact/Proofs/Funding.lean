import Transact.Proofs.Fees

/-!
An accepted transaction can pay. Acceptance compares the balance with an exact sum; later
the fee is debited and the value moved, as amounts and one after the other. `Machine.Moved`
says what a message does with its value. Main statement:
`Execution.accepted_transaction_pays`.
-/

namespace Transact

namespace Ledger

variable {β : Type} [Store β]

/-- What the payer is left with. A payment to oneself costs nothing. -/
theorem balance_payer {l l' : Ledger β} {c : Context} (h : l.pay c = .ok l') :
    (l'.balance c.caller).toNat + (if c.address = c.caller then 0 else c.value.toNat) =
      (l.balance c.caller).toNat := by
  obtain ⟨paid, hd, rfl⟩ := eq_of_transfer h
  have hpaid := balance_debit hd c.caller
  rw [if_pos rfl] at hpaid
  unfold credit
  rw [balance_setBalance]
  by_cases hself : c.address = c.caller
  · have hmost := (l.balance c.caller).le_most
    rw [if_pos hself, if_pos hself, hself, Quantity.toNat_add]
    omega
  · rw [if_neg hself, if_neg hself]
    exact hpaid

end Ledger

namespace Machine

variable {β : Type} [Store β] (m : Machine)

theorem balance_openFor (message : Message) (target : Address) (l : Ledger β) (a : Address) :
    (m.openFor message target l).balance a = l.balance a := by
  unfold openFor prepare
  split
  · split
    · simp
    · simp
  · simp

/-- What a message does with its value, where it begins on `l` in the context `c`. Below
the depth limit the value moves under a checkpoint, which is closed if that is all. -/
inductive Moved (depth : Nat) (c : Context) (message : Message) (l : Ledger β) :
    Bool → Ledger β → Prop
  | paid {moved : Ledger β} (hd : depth ≤ m.rules.callDepthLimit)
      (h : (m.openFor message c.address l).pay c = .ok moved) (done : Bool) :
      Moved depth c message l done (if done then moved.pop .commit else moved)
  | endowed {moved : Ledger β} (hd : m.rules.callDepthLimit < depth)
      (hc : message.isCreation = true) (h : l.pay c = .ok moved) :
      Moved depth c message l true moved
  | withheld (hd : m.rules.callDepthLimit < depth) (hc : message.isCreation = false) :
      Moved depth c message l true l

/-- What the payer has afterwards. -/
theorem Moved.balance_caller {m : Machine} {depth : Nat} {c : Context} {message : Message}
    {l l' : Ledger β} {done : Bool} (h : m.Moved depth c message l done l') :
    (l'.balance c.caller).toNat +
        (if c.address = c.caller ∨ (m.rules.callDepthLimit < depth ∧ message.isCreation = false)
          then 0 else c.value.toNat) =
      (l.balance c.caller).toNat := by
  cases h with
  | @paid moved hd h done =>
    have hb := Ledger.balance_payer h
    have hclose : (if done then moved.pop .commit else moved).balance c.caller =
        moved.balance c.caller := by
      split
      · exact Ledger.balance_pop_commit _ _
      · rfl
    have hwithin : ¬ m.rules.callDepthLimit < depth := Nat.not_lt.mpr hd
    rw [m.balance_openFor] at hb
    simp only [hclose, hwithin, false_and, or_false]
    exact hb
  | endowed hd hc h =>
    have hb := Ledger.balance_payer h
    simp only [hc, Bool.true_eq_false, and_false, or_false]
    exact hb
  | withheld hd hc =>
    rw [if_pos (.inr ⟨hd, hc⟩)]
    rfl

section Begin

variable {m} {depth : Nat} {terms : Terms} {message : Message} {l : Ledger β}

theorem paid_of_funded
    (h : (message.context terms l).value ≤ l.balance (message.context terms l).caller) :
    ∃ moved, m.paid terms message l = .ok moved := by
  rw [← m.balance_openFor message (message.context terms l).address l] at h
  exact ⟨_, Ledger.transfer_eq_ok h⟩

/-- Beyond the depth limit. -/
theorem moved_leftOver (hd : m.rules.callDepthLimit < depth)
    (h : (message.context terms l).value ≤ l.balance (message.context terms l).caller) :
    m.Moved depth (message.context terms l) message l true (message.leftOver l) := by
  cases message with
  | call c => exact .withheld hd rfl
  | create c =>
    obtain ⟨moved, hpay⟩ : ∃ moved, l.pay ((Message.create c).context terms l) = .ok moved :=
      ⟨_, Ledger.transfer_eq_ok h⟩
    have ht : l.transfer c.creator (l.creationTarget c.creator) c.endowment = .ok moved := hpay
    unfold Message.leftOver
    dsimp only
    rw [ht]
    exact .endowed hd rfl hpay

end Begin

end Machine

namespace Execution

variable {β : Type} [Store β]

/-- A message whose value its payer has begins, and fails for its depth if at all. -/
theorem start_of_funded (x : Execution) (a : Option Accepted) (terms : Terms)
    (message : Message) (w : World β)
    (h : (message.context terms w.ledger).value ≤
      w.ledger.balance (message.context terms w.ledger).caller) :
    ∃ done x' w', x.start a terms message w = (done, x', w') ∧
      x.machine.Moved x.depth (message.context terms w.ledger) message w.ledger done w'.ledger ∧
      x'.stage = (if done then .executed else .awaitingInterpreter) ∧
      x'.outcome.exception =
        if x.machine.rules.callDepthLimit < x.depth then some .callDepthExceeded else none := by
  unfold start
  rcases hb : x.machine.begin x.depth terms message w with ⟨o | p, w'⟩
  · obtain ⟨hd, hr⟩ | ⟨hd, hr⟩ := Machine.begin_eq_done hb
    · have hl := Machine.ledger_refuse x.depth terms message w
      rw [hr] at hl
      refine ⟨_, _, w', rfl, hl ▸ Machine.moved_leftOver hd h, rfl, ?_⟩
      rw [if_pos hd]
      cases hr
      rfl
    · obtain ⟨moved, hp⟩ := Machine.paid_of_funded (m := x.machine) h
      cases hr with
      | unpaid he => cases hp.symm.trans he
      | idle hm =>
        refine ⟨_, _, _, rfl, .paid hd hm true, rfl, ?_⟩
        rw [if_neg (Nat.not_lt.mpr hd)]
        rfl
  · obtain ⟨hd, hr⟩ := Machine.begin_eq_pending hb
    cases hr with
    | waiting hm =>
      refine ⟨_, _, _, rfl, .paid hd hm false, rfl, ?_⟩
      rw [if_neg (Nat.not_lt.mpr hd)]
      rfl

end Execution

namespace Accepted

variable {β : Type} [Store β]

/-- The message of a transaction is paid by its sender. -/
theorem context_message (a : Accepted) (l : Ledger β) :
    (a.message.context a.terms l).caller = a.sender ∧
      (a.message.context a.terms l).value = a.transaction.value ∧
      (a.message.context a.terms l).address = match a.transaction.action with
        | .call recipient => recipient
        | .create => l.creationTarget a.sender := by
  unfold message
  dsimp only
  cases a.transaction.action <;> exact ⟨rfl, rfl, rfl⟩

/-- How an accepted transaction pays on `l`: once its fee is debited, `bought` is left, and
from there its value moves. -/
structure Pays (a : Accepted) (m : Machine) (depth : Nat) (l bought : Ledger β) (c : Context)
    (done : Bool) (l' : Ledger β) : Prop where
  debit : l.debit a.sender (a.transaction.gasLimit * a.transaction.gasPrice) = .ok bought
  balance : ∀ b, (bought.balance b).toNat +
    (if b = a.sender then a.transaction.gasLimit.toNat * a.transaction.gasPrice.toNat else 0) =
      (l.balance b).toNat
  caller : c.caller = a.sender
  value : c.value = a.transaction.value
  address : c.address = match a.transaction.action with
    | .call recipient => recipient
    | .create => bought.creationTarget a.sender
  moved : m.Moved depth c a.message bought done l'

/-- What the sender has once both are paid. -/
theorem Pays.balance_sender {a : Accepted} {m : Machine} {depth : Nat} {l bought l' : Ledger β}
    {c : Context} {done : Bool} (h : a.Pays m depth l bought c done l') :
    (l'.balance a.sender).toNat +
        (if c.address = a.sender ∨
          (m.rules.callDepthLimit < depth ∧ a.message.isCreation = false)
          then 0 else a.transaction.value.toNat) +
        a.transaction.gasLimit.toNat * a.transaction.gasPrice.toNat =
      (l.balance a.sender).toNat := by
  have hfee := h.balance a.sender
  have hvalue := h.moved.balance_caller
  rw [if_pos rfl] at hfee
  rw [h.caller, h.value] at hvalue
  omega

end Accepted

namespace Execution

variable {β : Type} [Store β]

/-- Once a transaction is accepted, and whatever was written in the diary since, its fee is
an amount and the one it is committed to, its sender is debited exactly that, and its value
moves. Execution is not refused, and there is no exception but for the depth. -/
theorem accepted_transaction_pays {x x₁ : Execution} {t : Transaction} {w w₁ : World β}
    (h : x.accept t w = (.ok (), x₁, w₁)) :
    ∃ a, x₁.accepted = some a ∧ a.transaction = t ∧ t.sender = some a.sender ∧
      (t.gasLimit * t.gasPrice).toNat = t.gasLimit.toNat * t.gasPrice.toNat ∧
      x₁.commitment.fee = t.gasLimit.toNat * t.gasPrice.toNat ∧
      ∀ (wanted : Option Bool) (diary : Diary), ∃ done x₂ w₂ bought c,
        ({ x₁ with wanted } : Execution).execute ⟨w₁.ledger, diary⟩ = (.ok done, x₂, w₂) ∧
        a.Pays x.machine x.depth w₁.ledger bought c done w₂.ledger ∧
        x₂.stage = (if done then .executed else .awaitingInterpreter) ∧
        x₂.outcome.exception =
          if x.machine.rules.callDepthLimit < x.depth then some .callDepthExceeded else none := by
  obtain ⟨a, hv, rfl, rfl⟩ := accept_eq_ok h
  obtain ⟨rfl, ha⟩ := Machine.admits_of_validate hv
  have hfee : (a.transaction.gasLimit * a.transaction.gasPrice).toNat = _ :=
    ha.price_eq (Nat.le_refl _)
  have hfunds := ha.fee_le
  refine ⟨a, rfl, rfl, ha.sender, hfee, ?_, ?_⟩
  · change a.commitment.fee = _
    rw [ha.commitment]
    rfl
  · intro wanted diary
    let y : Execution := { x with phase := .accepted a, wanted }
    let v : World β := ⟨w.ledger, diary⟩
    let bought := (a.charge v).ledger
    have hdebit : (w.ledger.bumpNonce a.sender).debit a.sender
        (a.transaction.gasLimit * a.transaction.gasPrice) = .ok bought := ha.debit_eq
    have hbalance := Ledger.balance_debit hdebit
    rw [hfee] at hbalance
    obtain ⟨hcaller, hvalue, haddress⟩ := a.context_message bought
    -- what is left after the fee covers the value
    have hleft : (a.message.context a.terms bought).value ≤
        bought.balance (a.message.context a.terms bought).caller := by
      have hcounted : (w.ledger.bumpNonce a.sender).balance a.sender =
        w.ledger.balance a.sender := rfl
      have hb := hbalance a.sender
      rw [if_pos rfl, hcounted] at hb
      rw [hcaller, hvalue, Quantity.le_def]
      omega
    have hexecute : y.execute ⟨w.ledger.bumpNonce a.sender, diary⟩ = _ :=
      execute_of_admits (x := y) (w := v) rfl ha
    obtain ⟨done, x₂, w₂, hstart, hmoved, hstage, hexception⟩ :=
      y.start_of_funded (some a) a.terms a.message (a.charge v) hleft
    rw [hstart] at hexecute
    exact ⟨done, x₂, w₂, bought, _, hexecute,
      ⟨hdebit, hbalance, hcaller, hvalue, haddress, hmoved⟩, hstage, hexception⟩

end Execution

/-- Account 7 pays out all it has, or pays as much to itself. -/
theorem whole_balance_can_be_paid :
    (∃ x₁ w₁ done x₂ w₂, (Execution.new (.plain .failing) 0).accept
        { Transaction.toSelf with action := .call 8, value := 20000 } World.plain =
        (.ok (), x₁, w₁) ∧
      x₁.execute w₁ = (.ok done, x₂, w₂) ∧ (w₂.ledger.balance 7).toNat = 0 ∧
      x₂.outcome.exception = none) ∧
    ∃ x₁ w₁ done x₂ w₂, (Execution.new (.plain .failing) 0).accept
        { Transaction.toSelf with value := 20000 } World.plain = (.ok (), x₁, w₁) ∧
      x₁.execute w₁ = (.ok done, x₂, w₂) ∧ (w₂.ledger.balance 7).toNat = 20000 ∧
      x₂.outcome.exception = none := by
  constructor
  · have h : (Execution.new (.plain .failing) 0).accept
        { Transaction.toSelf with action := .call 8, value := 20000 } World.plain =
        (.ok (), _, _) := rfl
    obtain ⟨a, -, ht, hs, -, -, hpays⟩ := Execution.accepted_transaction_pays h
    obtain ⟨done, x₂, w₂, bought, c, he, hp, -, hx⟩ := hpays none World.plain.diary
    have hsender : a.sender = 7 := (Option.some.inj hs).symm
    have haddress : c.address = 8 := by rw [hp.address, ht]
    have hb := hp.balance_sender
    rw [hsender, ht, haddress, if_neg (by simp [Execution.new])] at hb
    have hrest : (w₂.ledger.balance 7).toNat + 20000 + 30000 * 1 = 50000 := hb
    exact ⟨_, _, done, x₂, w₂, h, he, by omega, hx⟩
  · have h : (Execution.new (.plain .failing) 0).accept
        { Transaction.toSelf with value := 20000 } World.plain = (.ok (), _, _) := rfl
    obtain ⟨a, -, ht, hs, -, -, hpays⟩ := Execution.accepted_transaction_pays h
    obtain ⟨done, x₂, w₂, bought, c, he, hp, -, hx⟩ := hpays none World.plain.diary
    have hsender : a.sender = 7 := (Option.some.inj hs).symm
    have haddress : c.address = 7 := by rw [hp.address, ht]; rfl
    have hb := hp.balance_sender
    rw [hsender, ht, haddress, if_pos (.inl rfl)] at hb
    have hrest : (w₂.ledger.balance 7).toNat + 0 + 30000 * 1 = 50000 := hb
    exact ⟨_, _, done, x₂, w₂, h, he, by omega, hx⟩

end Transact
