import Transact.Proofs.Finalization
import Transact.Proofs.GasLeft
import Transact.Proofs.Rollback
import Transact.Proofs.Supply

/-!
Ether is never created. It is lost only with condemned accounts: what they leave to
themselves, and what they still hold when they are deleted.
-/

namespace Transact

/-- No account is condemned. -/
def Substate.Sparing (s : Substate) : Prop := s.condemned = ∅

theorem Substate.sparing_join {s t : Substate} : (s.join t).Sparing ↔ s.Sparing ∧ t.Sparing := by
  have hunion : ∀ a, a ∈ (s.join t).condemned ↔ a ∈ s.condemned ∨ a ∈ t.condemned :=
    fun a => Std.ExtTreeSet.mem_union_iff
  unfold Sparing
  simp only [Std.ExtTreeSet.eq_empty_iff_forall_not_mem, hunion, not_or]
  exact forall_and

namespace Machine

variable {β : Type} [Store β] (m : Machine) (observer : Observer)

theorem total_paid {t : Terms} {k : Message} {l l' : Ledger β}
    (hl : l.total ≤ Quantity.most) (h : m.paid t k l = .ok l') : l'.total = l.total := by
  have hopen : (m.openFor k (k.context t l).address l).total = l.total := by
    unfold openFor prepare
    split
    · split
      · simp
      · simp
    · simp
  unfold paid Ledger.pay at h
  rw [← hopen] at hl
  rw [Ledger.total_transfer hl h, hopen]

theorem total_leftOver (k : Message) {l : Ledger β} (hl : l.total ≤ Quantity.most) :
    (k.leftOver l).total = l.total := by
  cases k with
  | call c => rfl
  | create c =>
    unfold Message.leftOver
    dsimp only
    split
    · rfl
    · next h => exact Ledger.total_transfer hl h

theorem Received.total_eq {m : Machine} {d : Nat} {t : Terms} {k : Message} {w w' : World β}
    {a : Admission} (h : m.Received d t k w a w') (hl : w.ledger.total ≤ Quantity.most) :
    w'.ledger.total = w.ledger.total := by
  cases h with
  | unpaid => rfl
  | idle hp => exact (Ledger.total_pop_commit _).trans (m.total_paid hl hp)
  | waiting hp => exact m.total_paid hl hp

theorem Deposited.total_eq {m : Machine} {p : Pending} {h h' : Halt} {dep : Deposit}
    {w w' : World β} (hd : m.Deposited p h w h' dep w') : w'.ledger.total = w.ledger.total := by
  cases hd <;> rfl

end Machine

namespace World

variable {β : Type} [Store β]

/-- In a frame no ether comes in, and none is lost unless an account is condemned. -/
def Kept (s : Substate) (w : World β) (s' : Substate) (w' : World β) : Prop :=
  w.ledger.total ≤ Quantity.most →
    w'.ledger.total ≤ w.ledger.total ∧
      (s'.Sparing → s.Sparing ∧ w'.ledger.total = w.ledger.total)

/-- The same for a message; one that failed loses nothing. -/
def KeptBy (o : Outcome) (w w' : World β) : Prop :=
  w.ledger.total ≤ Quantity.most →
    w'.ledger.total ≤ w.ledger.total ∧
      (o.exception ≠ none ∨ o.substate.Sparing → w'.ledger.total = w.ledger.total)

variable {s s₁ s₂ : Substate} {w w₁ w₂ : World β} {o : Outcome}

theorem Kept.of_eq (h : w₁.ledger.total = w.ledger.total) (hs : s₁.Sparing → s.Sparing) :
    Kept s w s₁ w₁ := fun _ => ⟨Nat.le_of_eq h, fun hs₁ => ⟨hs hs₁, h⟩⟩

theorem Kept.trans (h : Kept s w s₁ w₁) (h' : Kept s₁ w₁ s₂ w₂) : Kept s w s₂ w₂ := by
  intro hl
  obtain ⟨hle, heq⟩ := h hl
  obtain ⟨hle', heq'⟩ := h' (Nat.le_trans hle hl)
  refine ⟨Nat.le_trans hle' hle, ?_⟩
  intro hs₂
  obtain ⟨hs₁, ht'⟩ := heq' hs₂
  obtain ⟨hs, ht⟩ := heq hs₁
  exact ⟨hs, ht'.trans ht⟩

theorem KeptBy.of_eq (h : w.ledger.total ≤ Quantity.most → w₁.ledger.total = w.ledger.total) :
    KeptBy o w w₁ := fun hl => ⟨Nat.le_of_eq (h hl), fun _ => h hl⟩

theorem KeptBy.kept (h : KeptBy o w w₁) : Kept s w (s.absorb o) w₁ := by
  intro hl
  obtain ⟨hle, heq⟩ := h hl
  refine ⟨hle, ?_⟩
  intro hs
  by_cases ho : o.exception = none
  · rw [Substate.absorb_of_none ho] at hs
    obtain ⟨hs, hso⟩ := Substate.sparing_join.mp hs
    exact ⟨hs, heq (.inr hso)⟩
  · rw [Substate.absorb_of_exception ho] at hs
    exact ⟨hs, heq (.inl ho)⟩

end World

namespace Machine

variable {β : Type} [Store β] (m : Machine) (observer : Observer)

theorem kept_act (d : Nat) (c : Context) (e : Effect) (s : Substate) (w : World β) :
    World.Kept s w ((m.frame d c observer).act e s w).1
      ((m.frame d c observer).act e s w).2 := by
  cases e with
  | setStorage i v => exact .of_eq (Ledger.total_setStorage _ _ _ _) id
  | log topics data => exact .of_eq rfl id
  | refund amount => exact .of_eq rfl id
  | selfDestruct b =>
    intro hl
    refine ⟨w.ledger.total_handOver_le c.address b, ?_⟩
    intro hs
    exact absurd hs Std.ExtTreeSet.insert_ne_empty

/-- Ether moves only with the value of messages, and is lost only by self-destruction. -/
theorem steady_kept : m.Steady observer (fun _ _ s (w : World β) s' w' => World.Kept s w s' w')
    (fun _ _ _ w o w' => World.KeptBy o w w') where
  refl := .of_eq rfl id
  trans := World.Kept.trans
  observe := by
    intro d c i s w
    refine .of_eq ?_ id
    rw [(m.frame d c observer).ledger_observe]
  act := m.kept_act observer _ _ _ _ _
  note := .of_eq rfl id
  call hm := hm.kept
  create hm := World.KeptBy.kept hm
  refuse := by
    intro d t k w hd
    refine .of_eq fun hl => ?_
    rw [ledger_refuse, total_leftOver k hl]
  done hd hr := .of_eq hr.total_eq
  close := by
    intro d t k w p w₁ h s w₂ h' dep w₃ hd hr hp hf hs hdep hl
    have ht₁ := hr.total_eq hl
    obtain ⟨hle, heq⟩ := hf (Nat.le_trans (Nat.le_of_eq ht₁) hl)
    have ht₃ := hdep.total_eq
    by_cases ho : (h'.ended p dep s).exception = none
    · rw [World.ledger_closed_of_none ho, Ledger.total_pop_commit, ht₃]
      refine ⟨Nat.le_trans hle (Nat.le_of_eq ht₁), ?_⟩
      rintro (hne | hspare)
      · exact absurd ho hne
      · rw [Halt.exception_ended] at ho
        rw [Halt.ended_of_none ho] at hspare
        exact (heq hspare).2.trans ht₁
    · rw [World.ledger_closed_of_some ho, (hs.trans hdep.sameBelow).pop_revert_of_push]
      exact ⟨Nat.le_refl _, fun _ => rfl⟩

end Machine

/-! Fees. -/

theorem Accepted.gas_message (a : Accepted) : a.message.gas = a.gas := by
  unfold message
  dsimp only
  split <;> rfl

theorem Accepted.gasUsed_le (a : Accepted) (gas : Quantity) :
    a.gasUsed gas ≤ a.transaction.gasLimit := by
  unfold gasUsed
  rw [Quantity.le_def, Quantity.toNat_sub]
  exact Nat.sub_le _ _

namespace Machine.Admits

variable {β : Type} [Store β] {m : Machine} {l : Ledger β} {a : Accepted}

theorem gas_message_le (h : m.Admits l a) : a.message.gas ≤ a.transaction.gasLimit := by
  have hg := h.gas
  rw [a.gas_message, Quantity.le_def]
  omega

theorem total_charge {w : World β} (h : m.Admits w.ledger a) :
    (a.charge w).ledger.total +
      a.transaction.gasLimit.toNat * a.transaction.gasPrice.toNat = w.ledger.total := by
  have hp := h.price_eq (Nat.le_refl _)
  have hf := h.fee_le
  have hs := (w.ledger.bumpNonce a.sender).total_setBalance a.sender
    (w.ledger.balance a.sender - a.price a.transaction.gasLimit)
  rw [Ledger.total_bumpNonce, Quantity.toNat_sub, hp] at hs
  have hb : (w.ledger.bumpNonce a.sender).balance a.sender = w.ledger.balance a.sender := rfl
  rw [hb] at hs
  have hl : (a.charge w).ledger = (w.ledger.bumpNonce a.sender).setBalance a.sender
    (w.ledger.balance a.sender - a.price a.transaction.gasLimit) := rfl
  rw [hl]
  omega

/-- What the gas left and the gas used cost adds up to the price of the gas limit. -/
theorem price_add_price (h : m.Admits l a) {gas : Quantity}
    (hg : gas ≤ a.transaction.gasLimit) :
    (a.price gas).toNat + (a.price (a.gasUsed gas)).toNat =
      a.transaction.gasLimit.toNat * a.transaction.gasPrice.toNat := by
  rw [h.price_eq hg, h.price_eq (a.gasUsed_le gas), ← Nat.add_mul]
  unfold Accepted.gasUsed
  rw [Quantity.toNat_sub, Nat.add_sub_cancel' hg]

/-- The fees are the price of the gas limit, whoever gets them. -/
theorem total_payFees (h : m.Admits l a) {gas : Quantity} (hg : gas ≤ a.transaction.gasLimit)
    {l' : Ledger β} (hl : l'.total +
      a.transaction.gasLimit.toNat * a.transaction.gasPrice.toNat ≤ Quantity.most) :
    (Execution.payFees m a gas l').total =
      l'.total + a.transaction.gasLimit.toNat * a.transaction.gasPrice.toNat := by
  have hsum := h.price_add_price hg
  have hfirst : (l'.credit a.sender (a.price gas)).total = l'.total + (a.price gas).toNat :=
    Ledger.total_credit (by omega)
  unfold Execution.payFees
  rw [Ledger.total_credit (by omega), hfirst]
  omega

end Machine.Admits

/-- Finalization gives back what buying the gas took, less what condemned accounts
hold. -/
theorem Execution.total_conclude {β : Type} [Store β] {x : Execution} {l : Ledger β}
    {a : Accepted} (h : x.machine.Admits l a) {o o' : Outcome} {refunded : Quantity}
    (hd : Refunded x.machine.rules a o o' refunded) (hg : o.gas ≤ a.transaction.gasLimit)
    {w : World β} (hw : w.ledger.total +
      a.transaction.gasLimit.toNat * a.transaction.gasPrice.toNat ≤ Quantity.most) :
    (x.conclude a o' refunded w).2.ledger.total ≤
        w.ledger.total + a.transaction.gasLimit.toNat * a.transaction.gasPrice.toNat ∧
      (o.substate.Sparing → (x.conclude a o' refunded w).2.ledger.total =
        w.ledger.total + a.transaction.gasLimit.toNat * a.transaction.gasPrice.toNat) := by
  have hg' : o'.gas ≤ a.transaction.gasLimit := by
    have hle := hd.le_gasUsed
    unfold Accepted.gasUsed at hle
    rw [Quantity.toNat_sub] at hle
    rw [Quantity.le_def] at hg ⊢
    rw [hd.gas]
    omega
  have hpay := h.total_payFees hg' hw
  rw [x.ledger_conclude]
  split
  · constructor
    · exact Nat.le_trans (Ledger.total_deleteAll_le _ _) (Nat.le_of_eq hpay)
    · intro hs
      unfold Substate.Sparing at hs
      rw [hd.condemned, hs]
      exact hpay
  · exact ⟨Nat.le_of_eq hpay, fun _ => hpay⟩

/-- A transaction that runs to its end creates no ether, and loses none unless it
condemned an account. One that failed condemned none, and one that was refused left
all balances alone. -/
theorem Execution.ether_is_never_created {β : Type} [Store β] (x : Execution)
    (hx : x.phase = .created) (hi : x.machine.interpreter.Confined) (hf : x.machine.Frugal β)
    (hq : 1 ≤ x.machine.rules.refundQuotient) (t : Transaction) (observer : Observer)
    (w : World β) (hw : w.ledger.total < 2 ^ 256) :
    ∃ r x₂ w₂, x.transact t observer w = .ok (r, x₂, w₂) ∧
      w₂.ledger.total ≤ w.ledger.total ∧
      (r ≠ .ok () → x₂.stage = .rejected ∧ w₂.ledger.total = w.ledger.total) ∧
      (r = .ok () → ∃ x₁ w₁, x.carryOut (.transaction t) observer w = (.ok (), x₁, w₁) ∧
        x₁.finalize w₁ = .ok (.ok (), x₂, w₂) ∧
        (x₁.outcome.substate.condemned = ∅ → w₂.ledger.total = w.ledger.total) ∧
        (x₁.outcome.exception ≠ none → x₁.outcome.substate.condemned = ∅)) := by
  have hmost : w.ledger.total ≤ Quantity.most := Nat.le_of_lt_succ hw
  obtain ⟨r, phase, path, w₁, hc, he⟩ := x.carried hx hi (.transaction t) observer w
  rw [x.transact_eq, he]
  cases hc with
  | @refused _ reason h =>
    have hl : (w.remarks reason.remarks).ledger.total = w.ledger.total := by
      rw [World.ledger_remarks]
    refine ⟨_, _, _, rfl, Nat.le_of_eq hl, fun _ => ⟨rfl, hl⟩, ?_⟩
    intro hr
    cases hr
  | @transaction a o _ ha hs =>
    let y : Execution := { x with phase := .executed (some a) o, path }
    have hcharge := ha.total_charge
    have hgas : o.gas ≤ a.transaction.gasLimit :=
      Nat.le_trans ((Machine.conduct_frugal observer hf).of_send hi hs) ha.gas_message_le
    obtain ⟨hle, heq⟩ := (x.machine.steady_kept observer).conduct.of_send hi hs (by omega)
    obtain ⟨o', refunded, hd, hfin⟩ := finalize_eq_ok (x := y) rfl (.inl hq) w₁
    obtain ⟨hend, hspare⟩ := total_conclude (x := y) ha hd hgas (w := w₁) (by omega)
    refine ⟨.ok (), (y.conclude a o' refunded w₁).1, (y.conclude a o' refunded w₁).2, hfin,
      by omega, fun hr => absurd rfl hr, ?_⟩
    intro _
    refine ⟨y, w₁, rfl, hfin, ?_, ?_⟩
    · intro hnone
      have hkept := heq (.inr hnone)
      have hall := hspare hnone
      omega
    · intro ho
      have hu := (x.machine.conduct_undone observer).of_send hi hs
      exact congrArg Substate.condemned (hu ho).2

/-- Code that sends five to account 8. -/
def Interpreter.paying : Interpreter := fun v =>
  .call ⟨7, 8, 8, 5, 0, []⟩ fun _ => .halt ⟨v.gas, [], none⟩

theorem Interpreter.confined_paying : paying.Confined := fun _ _ => trivial

theorem Interpreter.frugal_paying : paying.Frugal := fun v _ _ => Nat.le_refl v.gas.toNat

theorem World.total_plain : World.plain.ledger.total = 50000 := by
  have hempty : (Ledger.ofBase (∅ : State)).total = 0 := by
    unfold Ledger.total
    exact Finset.sum_eq_zero fun a _ => rfl
  have hoff : ∀ b, (7 : Address) ≠ b →
      World.plain.ledger.balance b = (Ledger.ofBase (∅ : State)).balance b := by
    intro b hb
    have hne : ¬ 7#160 = b := hb
    simp [World.plain, Ledger.balance, Ledger.layers, Ledger.ofBase, Store.balance,
      State.account, hne]
  have h := Ledger.total_of_eq_off _ _ _ hoff
  have hseven : (World.plain.ledger.balance 7).toNat = 50000 := by decide
  have hzero : ((Ledger.ofBase (∅ : State)).balance 7).toNat = 0 := by decide
  omega

theorem payment_keeps_all_ether :
    World.plain.ledger.total < 2 ^ 256 ∧
    ∃ x₂ w₂, (Execution.new (.plain .paying) 0).transact .toSelf .silent .plain =
        .ok (.ok (), x₂, w₂) ∧
      w₂.ledger.total = World.plain.ledger.total := by
  have hw : World.plain.ledger.total < 2 ^ 256 := by
    rw [World.total_plain]
    decide
  refine ⟨hw, ?_⟩
  obtain ⟨r, x₂, w₂, h, -, hno, hok⟩ := Execution.ether_is_never_created
    (.new (.plain .paying) 0) rfl Interpreter.confined_paying
    (Machine.frugal_of_interpreter Interpreter.confined_paying Interpreter.frugal_paying)
    (by decide) .toSelf .silent .plain hw
  have hr : ((Execution.new (.plain .paying) 0).transact .toSelf .silent World.plain).map
      Prod.fst = .ok (.ok ()) := by rfl
  rw [h] at hr
  cases hr
  obtain ⟨x₁, w₁, h₁, -, hkept, -⟩ := hok rfl
  have hnone : ((Execution.new (.plain .paying) 0).carryOut (.transaction .toSelf) .silent
      World.plain).2.1.outcome.substate.condemned.isEmpty = true := by rfl
  rw [h₁] at hnone
  exact ⟨x₂, w₂, h, hkept (Std.ExtTreeSet.isEmpty_iff.mp hnone)⟩

end Transact
