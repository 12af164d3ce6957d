import Transact.Proofs.Ether

/-!
A transaction that ends with an exception costs its sender the nonce and the fee, and
nothing else changes. Main statement: `Execution.exception_costs_nonce_and_fee`.
-/

namespace Transact

namespace Ledger

variable {β : Type} [Store β]

section Payments

variable {l l' : Ledger β} {a t : Address} {v : Quantity}

theorem balance_credit_eq (l : Ledger β) (a : Address) (v : Quantity) (b : Address) :
    (l.credit a v).balance b = l.balance b + if b = a then v else 0 := by
  unfold credit
  rw [balance_setBalance]
  by_cases hab : a = b
  · rw [if_pos hab, if_pos hab.symm, hab]
  · rw [if_neg hab, if_neg (Ne.symm hab), Quantity.add_zero]

/-- A credit is exact if the sum of all balances stays in range. -/
theorem balance_credit (h : l.total + v.toNat ≤ Quantity.most) (b : Address) :
    ((l.credit a v).balance b).toNat =
      (l.balance b).toNat + if b = a then v.toNat else 0 := by
  have hb := l.balance_le_total b
  rw [balance_credit_eq, Quantity.toNat_add]
  split
  · omega
  · rw [Quantity.toNat_zero]
    omega

theorem balance_debit (h : l.debit a v = .ok l') (b : Address) :
    (l'.balance b).toNat + (if b = a then v.toNat else 0) = (l.balance b).toNat := by
  obtain ⟨hle, rfl⟩ := eq_of_debit h
  rw [Quantity.le_def] at hle
  rw [balance_setBalance]
  by_cases hab : a = b
  · subst hab
    rw [if_pos rfl, if_pos rfl, Quantity.toNat_sub]
    omega
  · rw [if_neg hab, if_neg (Ne.symm hab)]
    rfl

/-- What a transfer takes from one account it gives to the other, also if they are the
same. -/
theorem balance_transfer (hl : l.total ≤ Quantity.most) (h : l.transfer a t v = .ok l')
    (b : Address) :
    (l'.balance b).toNat + (if b = a then v.toNat else 0) =
      (l.balance b).toNat + if b = t then v.toNat else 0 := by
  obtain ⟨paid, hd, rfl⟩ := eq_of_transfer h
  have hp := total_debit hd
  rw [balance_credit (by omega), ← balance_debit hd b]
  omega

theorem transfer_eq_ok (h : v ≤ l.balance a) :
    l.transfer a t v = .ok ((l.setBalance a (l.balance a - v)).credit t v) := by
  have hle : ¬ l.balance a < v := Nat.not_lt.mpr h
  unfold transfer debit
  rw [if_neg hle]
  rfl

end Payments

/-- But for balances, and for which accounts there are, `l'` is `l` with one more
transaction of `sender` counted. -/
structure Counted (l l' : Ledger β) (sender : Address) : Prop where
  nonce : ∀ a, l'.nonce a = if a = sender then l.nonce a + 1 else l.nonce a
  code : ∀ a, l'.code a = l.code a
  storage : ∀ a i, l'.storage a i = l.storage a i
  sameBelow : l.SameBelow l'
  deleted : l'.top.deleted = l.top.deleted

/-- Gas for `cost` is bought as well. -/
structure Bought (l l' : Ledger β) (sender : Address) (cost : Nat) : Prop
    extends Counted l l' sender where
  balance : ∀ a, (l'.balance a).toNat + (if a = sender then cost else 0) = (l.balance a).toNat
  present : ∀ a, l'.present a = true ↔ a = sender ∨ l.present a = true

/-- A transaction of `sender` is counted, and `author` has its fee. -/
structure Charged (l l' : Ledger β) (sender author : Address) (fee : Nat) : Prop
    extends Counted l l' sender where
  balance : ∀ a, (l'.balance a).toNat + (if a = sender then fee else 0) =
    (l.balance a).toNat + if a = author then fee else 0
  present : ∀ a, l'.present a = true ↔ a = sender ∨ a = author ∨ l.present a = true

section Charging

variable {l l' : Ledger β} {sender : Address} {cost : Nat}

/-- Balances do not matter to what is counted. -/
theorem Counted.of_balances (h : Counted l l' sender) {ref l'' : Ledger β}
    (hr : ∃ changes, ref = { l with top := { l.top with balances := changes } })
    (hl : ∃ changes, l'' = { l' with top := { l'.top with balances := changes } }) :
    Counted ref l'' sender := by
  obtain ⟨c, rfl⟩ := hr
  obtain ⟨c', rfl⟩ := hl
  exact ⟨h.nonce, h.code, h.storage, ⟨h.sameBelow.base, h.sameBelow.below⟩, h.deleted⟩

theorem counted_bumpNonce (l : Ledger β) (sender : Address) :
    Counted l (l.bumpNonce sender) sender := by
  refine ⟨?_, fun _ => rfl, fun _ _ => rfl, ⟨rfl, rfl⟩, rfl⟩
  intro a
  unfold bumpNonce
  rw [nonce_setNonce]
  by_cases ha : sender = a
  · rw [if_pos ha, if_pos ha.symm, ha]
  · rw [if_neg ha, if_neg (Ne.symm ha)]

theorem present_bumpNonce_iff (l : Ledger β) (sender a : Address) :
    (l.bumpNonce sender).present a = true ↔ a = sender ∨ l.present a = true := by
  unfold bumpNonce
  rw [present_setNonce]
  by_cases ha : sender = a
  · simp [ha]
  · simp [ha, Ne.symm ha]

theorem present_setBalance_iff (l : Ledger β) (a b : Address) (v : Quantity) :
    (l.setBalance a v).present b = true ↔ b = a ∨ l.present b = true := by
  rw [present_setBalance]
  by_cases hab : a = b
  · simp [hab]
  · simp [hab, Ne.symm hab]

/-- Whoever has bought gas can move what is left as if it had not. -/
theorem Bought.transfer (h : Bought l l' sender cost) (hl : l.total ≤ Quantity.most)
    (hl' : l'.total ≤ Quantity.most) {v : Quantity}
    (hv : cost + v.toNat ≤ (l.balance sender).toNat) (target : Address) :
    ∃ moved moved', l.transfer sender target v = .ok moved ∧
      l'.transfer sender target v = .ok moved' ∧ Bought moved moved' sender cost := by
  have hs := h.balance sender
  rw [if_pos rfl] at hs
  have hle : v ≤ l.balance sender := by
    rw [Quantity.le_def]
    omega
  have hle' : v ≤ l'.balance sender := by
    rw [Quantity.le_def]
    omega
  have ht : l.transfer sender target v = _ := transfer_eq_ok hle
  have ht' : l'.transfer sender target v = _ := transfer_eq_ok hle'
  refine ⟨_, _, ht, ht', h.toCounted.of_balances ⟨_, rfl⟩ ⟨_, rfl⟩, ?_, ?_⟩
  · intro a
    have hm := balance_transfer hl ht a
    have hm' := balance_transfer hl' ht' a
    have hb := h.balance a
    omega
  · intro a
    unfold credit
    rw [present_setBalance_iff, present_setBalance_iff, present_setBalance_iff,
      present_setBalance_iff, h.present]
    exact or_left_comm

/-- What `sender` does not get back of the cost goes to `author`. -/
theorem Bought.charged (h : Bought l l' sender cost) (hl' : l'.total + cost ≤ Quantity.most)
    {back fee : Quantity} (hcost : back.toNat + fee.toNat = cost) (author : Address) :
    Charged l ((l'.credit sender back).credit author fee) sender author fee.toNat := by
  have ht : (l'.credit sender back).total = l'.total + back.toNat := total_credit (by omega)
  refine ⟨h.toCounted.of_balances ⟨l.top.balances, rfl⟩ ⟨_, rfl⟩, ?_, ?_⟩
  · intro a
    have hb := h.balance a
    have hsplit : (if a = sender then cost else 0) =
        (if a = sender then back.toNat else 0) + if a = sender then fee.toNat else 0 := by
      split <;> omega
    rw [balance_credit (by omega), balance_credit (by omega)]
    omega
  · intro a
    unfold credit
    rw [present_setBalance_iff, present_setBalance_iff, h.present, or_self_left]
    exact or_left_comm

end Charging

end Ledger

namespace Machine.Admits

variable {β : Type} [Store β] {m : Machine} {a : Accepted}

theorem bought {w : World β} (h : m.Admits w.ledger a) :
    Ledger.Bought w.ledger (a.charge w).ledger a.sender
      (a.transaction.gasLimit.toNat * a.transaction.gasPrice.toNat) := by
  have hp := h.price_eq (Nat.le_refl _)
  have hf := h.fee_le
  have hl : (a.charge w).ledger = (w.ledger.bumpNonce a.sender).setBalance a.sender
    (w.ledger.balance a.sender - a.price a.transaction.gasLimit) := rfl
  rw [hl]
  refine ⟨(w.ledger.counted_bumpNonce a.sender).of_balances ⟨w.ledger.top.balances, rfl⟩
    ⟨_, rfl⟩, ?_, ?_⟩
  · intro b
    rw [Ledger.balance_setBalance]
    by_cases hb : a.sender = b
    · subst hb
      rw [if_pos rfl, if_pos rfl, Quantity.toNat_sub, hp]
      omega
    · rw [if_neg hb, if_neg (Ne.symm hb)]
      rfl
  · intro b
    rw [Ledger.present_setBalance_iff, Ledger.present_bumpNonce_iff, or_self_left]

/-- Where the message of an accepted transaction fails, it leaves the ledger as if the
gas alone had been bought; beyond the depth limit the endowment of a creation has moved
too. -/
theorem bought_fallback {w : World β} (h : m.Admits w.ledger a)
    (hw : w.ledger.total ≤ Quantity.most) (depth : Nat) :
    ∃ moved, Ledger.Bought moved (m.fallback depth a.message (a.charge w).ledger) a.sender
        (a.transaction.gasLimit.toNat * a.transaction.gasPrice.toNat) ∧
      if m.rules.callDepthLimit < depth ∧ a.transaction.isCreation then
        w.ledger.transfer a.sender ((w.ledger.bumpNonce a.sender).creationTarget a.sender)
          a.transaction.value = .ok moved
      else moved = w.ledger := by
  have hb := h.bought
  have hcharge := h.total_charge
  have hmessage : ¬ (m.rules.callDepthLimit < depth ∧ a.transaction.isCreation) →
      m.fallback depth a.message (a.charge w).ledger = (a.charge w).ledger := by
    intro hno
    by_cases hd : depth ≤ m.rules.callDepthLimit
    · exact m.fallback_of_le hd _ _
    · have hcall := not_and.mp hno (Nat.lt_of_not_le hd)
      unfold Transaction.isCreation at hcall
      cases haction : a.transaction.action with
      | create => exact absurd (decide_eq_true haction) hcall
      | call recipient =>
        unfold Accepted.message
        dsimp only
        rw [haction]
        exact m.fallback_call depth _ _
  split
  · next hc =>
    have haction : a.transaction.action = .create := of_decide_eq_true hc.2
    obtain ⟨moved, moved', ht, ht', hmoved⟩ := hb.transfer hw (by omega) h.fee_le
      ((w.ledger.bumpNonce a.sender).creationTarget a.sender)
    refine ⟨moved, ?_, ht⟩
    have hleft : m.fallback depth a.message (a.charge w).ledger = moved' := by
      unfold fallback
      rw [if_pos hc.1, Accepted.message_of_create haction]
      unfold Message.leftOver
      dsimp only
      rw [a.creationTarget_charge, ht']
    rw [hleft]
    exact hmoved
  · next hno =>
    rw [hmessage hno]
    exact ⟨w.ledger, hb, rfl⟩

end Machine.Admits

namespace Execution

variable {β : Type} [Store β]

theorem validate_of_accept {x : Execution} (hx : x.phase = .created) {t : Transaction}
    {w : World β} (h : (x.accept t w).1 = .ok ()) :
    ∃ a, x.machine.validate w.ledger t = .ok a := by
  unfold accept at h
  rw [hx] at h
  cases hv : x.machine.validate w.ledger t with
  | error r =>
    dsimp only at h
    rw [hv] at h
    cases h
  | ok a => exact ⟨a, rfl⟩

theorem outcome_conclude_of_exception (x : Execution) (a : Accepted) {o : Outcome}
    (ho : o.exception ≠ none) (refunded : Quantity) (w : World β) :
    (x.conclude a o refunded w).1.outcome = o := by
  unfold conclude
  cases he : o.exception with
  | none => exact absurd he ho
  | some e => rfl

/-- An accepted transaction that ends with an exception costs its sender one nonce and
the price of the gas used, which the author gets; nothing is published and no account
deleted. Only where a creation is refused for its depth has its endowment moved too. -/
theorem exception_costs_nonce_and_fee (x : Execution) (hx : x.phase = .created)
    (hi : x.machine.interpreter.Confined) (hf : x.machine.Frugal β) (t : Transaction)
    (observer : Observer) (w : World β) (hw : w.ledger.total < 2 ^ 256)
    (ht : (x.accept t w).1 = .ok ()) :
    ∃ sender x₁ w₁, t.sender = some sender ∧
      x.carryOut (.transaction t) observer w = (.ok (), x₁, w₁) ∧
      (x₁.outcome.exception ≠ none → ∀ wanted, ∃ x₂ w₂ moved,
        ({ x₁ with wanted } : Execution).finalize w₁ = .ok (.ok (), x₂, w₂) ∧
        (if x.machine.rules.callDepthLimit < x.depth ∧ t.isCreation then
          w.ledger.transfer sender ((w.ledger.bumpNonce sender).creationTarget sender)
            t.value = .ok moved
        else moved = w.ledger) ∧
        Ledger.Charged moved w₂.ledger sender x.machine.block.author
          ((t.gasLimit.toNat - x₂.outcome.gas.toNat) * t.gasPrice.toNat) ∧
        x₂.outcome = x₁.outcome ∧ x₂.logs = [] ∧
        x₂.summary.map Summary.gasRefunded = wanted.map fun _ => 0) := by
  have hmost : w.ledger.total ≤ Quantity.most := Nat.le_of_lt_succ hw
  obtain ⟨a₀, hv⟩ := validate_of_accept hx ht
  obtain ⟨r, phase, path, w₁, hc, he⟩ := x.carried hx hi (.transaction t) observer w
  cases hc with
  | refused h => cases hv.symm.trans h
  | @transaction a o _ ha hs =>
    refine ⟨a.sender, _, w₁, ha.sender, he, ?_⟩
    intro hne wanted
    have hne : o.exception ≠ none := hne
    have hgas : o.gas ≤ a.transaction.gasLimit :=
      Nat.le_trans ((Machine.conduct_frugal observer hf).of_send hi hs) ha.gas_message_le
    have hused : a.gasUsed o.gas ≤ a.transaction.gasLimit := a.gasUsed_le o.gas
    -- the message left no trace, so that the sender has bought gas and nothing else differs
    obtain ⟨hl, -⟩ := (x.machine.conduct_undone observer).of_send hi hs hne
    obtain ⟨moved, hb, hmoved⟩ := ha.bought_fallback hmost x.depth
    have hcharge := ha.total_charge
    obtain ⟨htotal, -⟩ := (x.machine.steady_kept observer).conduct.of_send hi hs (by omega)
    let y : Execution := { x with phase := .executed (some a) o, path, wanted }
    obtain ⟨o', refunded, hd, hfin⟩ := finalize_eq_ok (x := y) rfl (.inr hne) w₁
    obtain ⟨ho, hzero⟩ := hd.of_exception hne
    rw [ho, hzero] at hfin
    have hout := y.outcome_conclude_of_exception a hne 0 w₁
    refine ⟨(y.conclude a o 0 w₁).1, (y.conclude a o 0 w₁).2, moved, hfin, hmoved, ?_, hout,
      ?_, ?_⟩
    · have hfee := hb.charged (by rw [← hl]; omega) (ha.price_add_price hgas)
        x.machine.block.author
      rw [ha.price_eq hused] at hfee
      rw [hout, y.ledger_conclude, if_neg hne, hl, ← Quantity.toNat_sub]
      exact hfee
    · rw [y.logs_conclude, if_neg hne]
    · rw [y.summary_conclude, Option.map_map]
      rfl

end Execution

theorem Interpreter.frugal_failing : failing.Frugal := by
  intro v
  unfold failing
  simp only [Program.Frugal]
  split
  · exact fun _ _ => Nat.zero_le _
  · exact Nat.zero_le _

theorem failing_code_costs_nonce_and_fee :
    ((Execution.new (.plain .failing) 0).accept .toSelf World.plain).1 = .ok () ∧
    World.plain.ledger.total < 2 ^ 256 ∧
    ∃ x₁ w₁, (Execution.new (.plain .failing) 0).carryOut (.transaction .toSelf) .silent
        .plain = (.ok (), x₁, w₁) ∧ x₁.outcome.exception = some .outOfGas ∧
      ∃ x₂ w₂, ({ x₁ with wanted := some true } : Execution).finalize w₁ =
          .ok (.ok (), x₂, w₂) ∧
        Ledger.Charged World.plain.ledger w₂.ledger 7 0 30000 ∧ x₂.logs = [] := by
  have hw : World.plain.ledger.total < 2 ^ 256 := by
    rw [World.total_plain]
    decide
  have ha : ((Execution.new (.plain .failing) 0).accept .toSelf World.plain).1 = .ok () := by rfl
  obtain ⟨sender, x₁, w₁, hs, h, hfail⟩ := Execution.exception_costs_nonce_and_fee
    (.new (.plain .failing) 0) rfl Interpreter.confined_failing
    (Machine.frugal_of_interpreter Interpreter.confined_failing Interpreter.frugal_failing)
    .toSelf .silent World.plain hw ha
  have he : ((Execution.new (.plain .failing) 0).carryOut (.transaction .toSelf) .silent
      World.plain).2.1.outcome.exception = some .outOfGas := by decide
  have hg : ((Execution.new (.plain .failing) 0).carryOut (.transaction .toSelf) .silent
      World.plain).2.1.outcome.gas = 0 := by decide
  rw [h] at he hg
  refine ⟨ha, hw, x₁, w₁, h, he, ?_⟩
  obtain ⟨x₂, w₂, moved, hfin, hmoved, hc, ho, hlogs, -⟩ :=
    hfail (fun hn => Option.some_ne_none _ (he.symm.trans hn)) (some true)
  cases hs
  rw [if_neg (by decide)] at hmoved
  have hfee : ((Transaction.toSelf.gasLimit.toNat - x₂.outcome.gas.toNat) *
      Transaction.toSelf.gasPrice.toNat) = 30000 := by
    rw [ho, hg]
    rfl
  rw [hmoved, hfee] at hc
  exact ⟨x₂, w₂, hfin, hc, hlogs⟩

end Transact
