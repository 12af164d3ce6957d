import Transact.Proofs.Fees
import Transact.Proofs.Flattening
import Transact.Proofs.Footprint
import Transact.Proofs.Gas

/-!
Plain payments. A transaction whose recipient has no code moves its value, costs its
intrinsic gas and does nothing else, whichever of sender, recipient and author are the same
account. Main statement: `Execution.payment_moves_value_and_fee`.
-/

namespace Transact

namespace Ledger

variable {β : Type} [Store β]

/-- A transaction of `sender` is counted, `recipient` has its value and `author` its fee. -/
structure Transferred (l l' : Ledger β) (sender recipient author : Address)
    (value fee : Nat) : Prop extends Counted l l' sender where
  balance : ∀ a, (l'.balance a).toNat + (if a = sender then value + fee else 0) =
    (l.balance a).toNat + (if a = recipient then value else 0) + if a = author then fee else 0
  present : ∀ a, l'.present a = true ↔
    a = sender ∨ a = recipient ∨ a = author ∨ l.present a = true

variable {l l' moved : Ledger β} {sender recipient author : Address} {value : Quantity}
  {fee : Nat}

/-- The value moves, and then the fee is paid. -/
theorem Charged.transferred (h : Charged moved l' sender author fee)
    (hl : l.total ≤ Quantity.most) (ht : l.transfer sender recipient value = .ok moved) :
    l.Transferred l' sender recipient author value.toNat fee := by
  obtain ⟨paid, hd, rfl⟩ := eq_of_transfer ht
  obtain ⟨-, rfl⟩ := eq_of_debit hd
  refine ⟨h.toCounted.of_balances ⟨l.top.balances, rfl⟩ ⟨l'.top.balances, rfl⟩, ?_, ?_⟩
  · intro a
    have hvalue := balance_transfer hl ht a
    have hfee := h.balance a
    have hsplit : (if a = sender then value.toNat + fee else 0) =
        (if a = sender then value.toNat else 0) + if a = sender then fee else 0 := by
      split <;> rfl
    omega
  · intro a
    rw [h.present]
    unfold credit
    rw [present_setBalance_iff, present_setBalance_iff]
    grind

/-- A transfer in a checkpoint that is then committed is a transfer. -/
theorem transfer_push (h : l.transfer sender recipient value = .ok moved) :
    ∃ l', l.push.transfer sender recipient value = .ok l' ∧ l'.pop .commit = moved := by
  have hclosed : l.push.pop .commit = l := by
    unfold push pop layers
    dsimp only
    rw [Changes.andThen_empty]
  have hpop := l.push.transfer_pop_commit sender recipient value
  rw [hclosed, h] at hpop
  cases hx : l.push.transfer sender recipient value with
  | error e =>
    rw [hx] at hpop
    cases hpop
  | ok l' =>
    rw [hx] at hpop
    exact ⟨l', rfl, (Except.ok.inj hpop).symm⟩

end Ledger

/-- A call within the depth limit whose value its sender has is done at once where there is
no code to run. -/
theorem Machine.begin_call_of_no_code {β : Type} [Store β] (m : Machine) {depth : Nat}
    (hd : depth ≤ m.rules.callDepthLimit) (terms : Terms) {c : Call} {w : World β}
    {moved : Ledger β} (ht : w.ledger.transfer c.sender c.receiver c.value = .ok moved)
    (hc : w.ledger.code c.codeAddress = []) :
    ∃ w', m.begin depth terms (.call c) w = (.done (.untouched c.gas none), w') ∧
      w'.ledger = moved := by
  obtain ⟨l, hpush, hmoved⟩ := Ledger.transfer_push ht
  have hpaid : m.paid terms (.call c) w.ledger = .ok l := hpush
  have hcode : (Message.call c).code l = [] := by
    have hsame : l.code c.codeAddress = w.ledger.push.code c.codeAddress :=
      (Ledger.Keeps.of_transfer hpush c.codeAddress).code
    rw [Ledger.code_push] at hsame
    exact hsame.trans hc
  have hr := m.received depth terms (.call c) w
  rw [m.begin_of_le terms (.call c) w hd]
  rcases hb : m.receive depth terms (.call c) w with ⟨admission, w'⟩
  rw [hb] at hr
  cases hr with
  | unpaid he => cases hpaid.symm.trans he
  | waiting hp hne =>
    cases hpaid.symm.trans hp
    exact absurd hcode hne
  | idle hp =>
    cases hpaid.symm.trans hp
    exact ⟨_, rfl, hmoved⟩

/-- What was not refunded, and spares all accounts, leaves fees to be paid and no more. -/
theorem Execution.finalize_untouched {β : Type} [Store β] {x : Execution} {a : Accepted}
    {gas : Quantity} (hx : x.phase = .executed (some a) (.untouched gas none))
    (hq : 1 ≤ x.machine.rules.refundQuotient) (w : World β) :
    ∃ x' w', x.finalize w = .ok (.ok (), x', w') ∧ x'.outcome.exception = none ∧
      x'.gasUsed = .ok (a.gasUsed gas) ∧ x'.logs = [] ∧
      w'.ledger = payFees x.machine a gas w.ledger := by
  obtain ⟨o, refunded, hr, hd⟩ := refund_eq_ok (a := a) (o := .untouched gas none)
    (r := x.machine.rules) (.inl hq)
  have hnone : o.exception = none := hd.exception
  have hempty : o.substate.condemned = ∅ := hd.condemned
  have hzero : refunded.toNat = 0 := by
    have hcounter : (Outcome.untouched gas none).substate.refunds.toNat +
        x.machine.rules.selfDestructRefund * (Outcome.untouched gas none).substate.condemned.size =
        0 := rfl
    have hexact := refund_exact hq hr
    rw [hcounter, Nat.min_zero, Nat.zero_min, ite_self] at hexact
    exact hexact
  have hgas : o.gas = gas := by
    ext
    rw [hd.gas, hzero]
    rfl
  obtain ⟨-, hused⟩ := x.gas_conclude a o refunded w
  refine ⟨(x.conclude a o refunded w).1, (x.conclude a o refunded w).2,
    finalize_of_refund hx hr w, ?_, hgas ▸ hused, ?_, ?_⟩
  · rw [x.exception_conclude, hnone]
  · rw [x.logs_conclude, if_pos hnone]
    exact hd.logs
  · rw [x.ledger_conclude, if_pos hnone, hempty, hgas]
    rfl

/-- A transaction to an account without code moves its value and costs its sender one nonce
and the price of its intrinsic gas, which the author gets. -/
theorem Execution.payment_moves_value_and_fee {β : Type} [Store β] (x : Execution)
    (hx : x.phase = .created) (hd : x.depth ≤ x.machine.rules.callDepthLimit)
    (hq : 1 ≤ x.machine.rules.refundQuotient) {t : Transaction} {recipient : Address}
    (hto : t.action = .call recipient) (w : World β) (hw : w.ledger.total < 2 ^ 256)
    (hcode : w.ledger.code recipient = []) (ht : (x.accept t w).1 = .ok ()) :
    ∃ sender x₁ w₁ x₂ w₂ x₃ w₃, t.sender = some sender ∧
      x.accept t w = (.ok (), x₁, w₁) ∧ x₁.execute w₁ = (.ok true, x₂, w₂) ∧
      x₂.finalize w₂ = .ok (.ok (), x₃, w₃) ∧ x₃.outcome.exception = none ∧
      (∃ used, x₃.gasUsed = .ok used ∧
        used.toNat = intrinsicGas x.machine.rules false t.data) ∧
      x₃.logs = [] ∧
      w.ledger.Transferred w₃.ledger sender recipient x.machine.block.author t.value.toNat
        (intrinsicGas x.machine.rules false t.data * t.gasPrice.toNat) := by
  have hmost : w.ledger.total ≤ Quantity.most := Nat.le_of_lt_succ hw
  obtain ⟨a, hv⟩ := validate_of_accept hx ht
  obtain ⟨rfl, ha⟩ := Machine.admits_of_validate hv
  have hcharge := ha.total_charge
  -- the value moves while the gas is bought as it would without
  obtain ⟨moved, moved', hmoved, hmoved', hbought⟩ :=
    ha.bought.transfer hmost (by omega) ha.fee_le recipient
  obtain ⟨w₂, hbegin, hw₂⟩ := x.machine.begin_call_of_no_code hd a.terms
    (c := ⟨a.sender, recipient, recipient, a.transaction.value, a.gas, a.transaction.data⟩)
    hmoved' ((ha.bought.code recipient).trans hcode)
  let y : Execution := { x with phase := .executed (some a) (.untouched a.gas none) }
  let x₁ : Execution := { x with phase := .accepted a }
  have haccept : x.accept a.transaction w = (.ok (), x₁, w.edit (·.bumpNonce a.sender)) :=
    accept_of_ok hx hv
  have hexecute : x₁.execute (w.edit (·.bumpNonce a.sender)) = (.ok true, y, w₂) := by
    rw [execute_of_admits (x := x₁) rfl ha]
    unfold start
    rw [Accepted.message_of_call hto, hbegin]
  obtain ⟨x₃, w₃, hfin, he, hused, hlogs, hw₃⟩ := y.finalize_untouched rfl hq w₂
  have hgas : a.gas.toNat + intrinsicGas x.machine.rules false a.transaction.data =
      a.transaction.gasLimit.toNat := by
    have hcall : a.transaction.isCreation = false := by
      unfold Transaction.isCreation
      rw [hto]
      rfl
    rw [← hcall]
    exact ha.gas
  have hle : a.gas ≤ a.transaction.gasLimit := by
    rw [Quantity.le_def]
    omega
  have hintrinsic : (a.gasUsed a.gas).toNat =
      intrinsicGas x.machine.rules false a.transaction.data := by
    unfold Accepted.gasUsed
    rw [Quantity.toNat_sub]
    omega
  refine ⟨a.sender, x₁, _, y, w₂, x₃, w₃, ha.sender, haccept, hexecute, hfin, he,
    ⟨_, hused, hintrinsic⟩, hlogs, ?_⟩
  have htotal : moved'.total = (a.charge w).ledger.total :=
    Ledger.total_transfer (by omega) hmoved'
  have hcharged := hbought.charged (by omega) (ha.price_add_price hle) x.machine.block.author
  rw [ha.price_eq (a.gasUsed_le a.gas), hintrinsic] at hcharged
  have hledger : w₃.ledger = (moved'.credit a.sender (a.price a.gas)).credit
      x.machine.block.author (a.price (a.gasUsed a.gas)) := by
    rw [hw₃, hw₂]
    rfl
  rw [hledger]
  exact hcharged.transferred hmost hmoved

/-- Account 7 pays the author, who gets the fee too. -/
theorem Execution.author_is_paid_value_and_fee :
    ((Execution.new (.plain .failing) 0).accept
      { Transaction.toSelf with action := .call 0, value := 20000 } World.plain).1 = .ok () ∧
    ∃ x₃ w₃, (Execution.new (.plain .failing) 0).transact
        { Transaction.toSelf with action := .call 0, value := 20000 } .silent World.plain =
        .ok (.ok (), x₃, w₃) ∧ x₃.logs = [] ∧
      (w₃.ledger.balance 7).toNat = 9000 ∧ (w₃.ledger.balance 0).toNat = 41000 ∧
      w₃.ledger.nonce 7 = 1 ∧ w₃.ledger.present 0 = true := by
  have hw : World.plain.ledger.total < 2 ^ 256 := by
    rw [World.total_plain]
    decide
  have ha : ((Execution.new (.plain .failing) 0).accept
      { Transaction.toSelf with action := .call 0, value := 20000 } World.plain).1 = .ok () := by
    rfl
  obtain ⟨sender, x₁, w₁, x₂, w₂, x₃, w₃, hs, haccept, hexecute, hfin, -, -, hlogs, hall⟩ :=
    Execution.payment_moves_value_and_fee (.new (.plain .failing) 0) rfl (by decide) (by decide)
      rfl World.plain hw (by rfl) ha
  cases hs
  refine ⟨ha, x₃, w₃, ?_, hlogs, ?_, ?_, ?_, ?_⟩
  · unfold transact
    rw [haccept]
    dsimp only
    rw [hexecute]
    exact hfin
  · have hseven := hall.balance 7
    have hbefore : (World.plain.ledger.balance 7).toNat = 50000 := by decide
    rw [hbefore] at hseven
    exact Nat.add_right_cancel hseven
  · have hzero := hall.balance 0
    have hbefore : (World.plain.ledger.balance 0).toNat = 0 := by decide
    rw [hbefore] at hzero
    exact hzero
  · rw [hall.nonce 7]
    rfl
  · exact (hall.present 0).mpr (.inr (.inl rfl))

end Transact
