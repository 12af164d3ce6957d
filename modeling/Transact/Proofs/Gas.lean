import Transact.Proofs.Ether
import Transact.Proofs.Operations
import Transact.Proofs.Reached

/-!
Gas is never created and refunds are exact. A message returns no more gas than it was
handed, a transaction always uses its intrinsic gas, and what it uses beyond the refund
is what it pays for. Main statement: `Machine.gas_is_never_created`.
-/

namespace Transact

/-- A product of amounts is in range, or else both sides are the largest amount. -/
theorem Quantity.ofNat_mul_ofNat (m n : Nat) : ofNat m * ofNat n = ofNat (m * n) := by
  ext
  rw [toNat_mul, toNat_ofNat, toNat_ofNat, toNat_ofNat]
  rcases Nat.eq_zero_or_pos m with rfl | hm
  · simp
  rcases Nat.eq_zero_or_pos n with rfl | hn
  · simp
  by_cases hsmall : m ≤ most ∧ n ≤ most
  · rw [Nat.min_eq_left hsmall.1, Nat.min_eq_left hsmall.2]
  · -- one factor is cut off, and the other is at least one
    have hmost : 0 < most := by decide
    have hcut : most ≤ min m most * min n most := by
      rcases not_and_or.mp hsmall with h | h
      · rw [Nat.min_eq_right (Nat.le_of_not_le h)]
        exact Nat.le_mul_of_pos_right _ (by omega)
      · rw [Nat.min_eq_right (b := most) (Nat.le_of_not_le h)]
        exact Nat.le_mul_of_pos_left _ (by omega)
    have hwhole : min m most * min n most ≤ m * n :=
      Nat.mul_le_mul (Nat.min_le_left _ _) (Nat.min_le_left _ _)
    rw [Nat.min_eq_right hcut, Nat.min_eq_right (Nat.le_trans hcut hwhole)]

namespace Machine

theorem gas_close_le {β : Type} (depth : Nat) (p : Pending) (h : Halt) (d : Deposit)
    (s : Substate) (w : World β) : (close depth p h d s w).1.outcome.gas ≤ h.gasLeft := by
  by_cases hopen : w.ledger.openCount = 0
  · unfold close
    rw [if_pos hopen]
    exact Nat.le_refl _
  · rw [close_of_open depth p h d s hopen]
    exact Halt.gas_ended_le

variable {β : Type} [Store β] {m : Machine}

/-- Running code returns no more gas than it was handed, even if its checkpoint has been
taken away. -/
theorem gas_run_le (hf : m.Frugal β) (observer : Observer) {depth : Nat}
    (hd : depth ≤ m.rules.callDepthLimit) (p : Pending) (w : World β) :
    (m.run observer depth p w).1.outcome.gas ≤ p.gas := by
  rw [m.run_eq_conclude observer p w hd]
  obtain ⟨h', d, w', hdep, he⟩ := m.conclude_eq_close depth p (m.play observer depth p w).1
    (m.play observer depth p w).2.1 (m.play observer depth p w).2.2
  rw [he]
  exact Nat.le_trans (gas_close_le depth p h' d _ w')
    (Nat.le_trans hdep.gas_le (hf observer depth p w hd))

theorem gas_begin_of_done {depth : Nat} {terms : Terms} {message : Message} {w w' : World β}
    {o : Outcome} (h : m.begin depth terms message w = (.done o, w')) :
    o.gas ≤ message.gas := by
  obtain ⟨-, hr⟩ | ⟨-, hr⟩ := begin_eq_done h
  · have hg := gas_refuse depth terms message w
    rwa [hr] at hg
  · exact Nat.le_of_eq (congrArg Quantity.toNat hr.gas_of_done)

end Machine

/-- With `gas` left, the intrinsic gas at least is used. -/
def Accepted.Covers (a : Accepted) (r : Rules) (gas : Quantity) : Prop :=
  gas.toNat + intrinsicGas r a.transaction.isCreation a.transaction.data ≤
    a.transaction.gasLimit.toNat

theorem Accepted.Covers.mono {a : Accepted} {r : Rules} {gas gas' : Quantity}
    (h : a.Covers r gas) (hg : gas' ≤ gas) : a.Covers r gas' :=
  Nat.le_trans (Nat.add_le_add_right hg _) h

/-- Until it is finalized, a transaction holds back its intrinsic gas. -/
def Phase.Solvent (m : Machine) (depth : Nat) : Phase → Prop
  | .accepted a => a.Covers m.rules a.gas
  | .awaiting a p => depth ≤ m.rules.callDepthLimit ∧ ∀ b ∈ a, b.Covers m.rules p.gas
  | .stuck a o | .executed a o => ∀ b ∈ a, b.Covers m.rules o.gas
  | .created | .finalized .. | .rejected .. => True

namespace Execution

variable {β : Type} [Store β] {m : Machine} {depth : Nat} {x : Execution}

theorem Starts.covers {a : Option Accepted} {terms : Terms} {message : Message}
    (h : x.Starts a terms message) (hs : x.phase.Solvent m depth) :
    ∀ b ∈ a, b.Covers m.rules message.gas := by
  cases h with
  | transaction hx =>
    rw [hx] at hs
    intro b hb
    cases hb
    rw [Accepted.gas_message]
    exact hs
  | bare hx =>
    intro b hb
    cases hb

theorem covers_run (hf : m.Frugal β) {a : Option Accepted} {p : Pending}
    (hs : (Phase.awaiting a p).Solvent m depth) (observer : Observer) (w : World β) :
    ∀ b ∈ a, b.Covers m.rules (m.run observer depth p w).1.outcome.gas :=
  fun b hb => (hs.2 b hb).mono (Machine.gas_run_le hf observer hs.1 p w)

theorem solvent_moved (hf : m.Frugal β) {phase : Phase} (hm : x.machine = m)
    (hd : x.depth = depth) (hs : x.phase.Solvent m depth) (h : x.Moved β phase) :
    phase.Solvent m depth := by
  subst hm hd
  cases h with
  | stay => exact hs
  | accept hx h =>
    obtain ⟨ht, ha⟩ := Machine.admits_of_validate h
    exact Nat.le_of_eq ha.gas
  | refuse => trivial
  | unpaid => trivial
  | done hx h => exact fun b hb => (hx.covers hs b hb).mono (Machine.gas_begin_of_done h)
  | pending hx h =>
    obtain ⟨hd, hr⟩ := Machine.begin_eq_pending h
    refine ⟨hd, ?_⟩
    intro b hb
    rw [hr.gas_of_pending]
    exact hx.covers hs b hb
  | @close a p observer w w' o hx h =>
    rw [hx] at hs
    have hrun := covers_run hf hs observer w
    rw [h] at hrun
    exact hrun
  | @stick a p observer w w' o hx h =>
    rw [hx] at hs
    have hrun := covers_run hf hs observer w
    rw [h] at hrun
    exact hrun
  | handOver hx ho =>
    rw [hx] at hs
    exact hs
  | @finalize a o o' refunded w hx h =>
    unfold conclude
    cases o'.exception <;> trivial

/-- A new execution holds back the intrinsic gas of its transaction, whatever it is asked
and whatever happens to the ledger meanwhile. -/
theorem Reached.solvent (h : Reached β m depth x) (hf : m.Frugal β) :
    x.phase.Solvent m depth :=
  h.invariant trivial fun _ _ hm hd hs hmoved => solvent_moved hf hm hd hs hmoved

theorem refund_exact {r : Rules} (hq : 0 < r.refundQuotient) {a : Accepted} {o o' : Outcome}
    {refunded : Quantity} (h : refund r a o = .ok (o', refunded)) :
    refunded.toNat = if o.exception = none then
        min (min Quantity.most
            (o.substate.refunds.toNat + r.selfDestructRefund * o.substate.condemned.size))
          ((a.gasUsed o.gas).toNat / r.refundQuotient)
      else 0 := by
  unfold refund at h
  cases he : o.exception with
  | some e =>
    rw [he] at h
    cases h
    rfl
  | none =>
    -- the sum and the product are cut off one after the other, which is as good as once
    rw [he] at h
    obtain ⟨paid, hp, h⟩ := bind_eq_ok.mp h
    obtain ⟨gas, hg, h⟩ := bind_eq_ok.mp h
    cases h
    obtain ⟨paid', hp', hn⟩ := refundPaid_eq_ok hq (a.gasUsed o.gas)
      (o.substate.refund (.ofNat r.selfDestructRefund * .ofNat o.substate.condemned.size)).refunds
    cases hp.symm.trans hp'
    rw [hn, if_pos rfl]
    unfold Substate.refund
    rw [Quantity.toNat_add, Quantity.ofNat_mul_ofNat, Quantity.toNat_ofNat]
    congr 1
    omega

/-- The gas account of a transaction that ended with `o` and is finalized as `x'`. -/
structure Accounted (x : Execution) (a : Accepted) (o : Outcome) (x' : Execution)
    (refunded used : Quantity) : Prop where
  intrinsic_le : intrinsicGas x.machine.rules a.transaction.isCreation a.transaction.data ≤
    (a.gasUsed o.gas).toNat
  /-- The refund counter and what the condemned accounts add to it, up to one part of the
  gas used before. -/
  refund_eq : refunded.toNat = if o.exception = none then
      min (min Quantity.most (o.substate.refunds.toNat +
          x.machine.rules.selfDestructRefund * o.substate.condemned.size))
        ((a.gasUsed o.gas).toNat / x.machine.rules.refundQuotient)
    else 0
  gas_eq : x'.outcome.gas.toNat = o.gas.toNat + refunded.toNat
  gas_le : x'.outcome.gas ≤ a.transaction.gasLimit
  used_eq : used.toNat = (a.gasUsed o.gas).toNat - refunded.toNat
  le_used : (a.gasUsed o.gas).toNat - (a.gasUsed o.gas).toNat / x.machine.rules.refundQuotient ≤
    used.toNat
  gasUsed : x'.gasUsed = .ok used
  summary : x'.summary.map (fun s => (s.gasUsed, s.gasRefunded)) =
    x.wanted.map fun _ => (used, refunded)

theorem finalize_accounted {x : Execution} {a : Accepted} {o : Outcome}
    (hx : x.phase = .executed (some a) o) (hq : 0 < x.machine.rules.refundQuotient)
    (hc : a.Covers x.machine.rules o.gas) (w : World β) :
    ∃ x' w' refunded used, x.finalize w = .ok (.ok (), x', w') ∧
      x.Accounted a o x' refunded used := by
  obtain ⟨o', refunded, hr, hd⟩ := refund_eq_ok (a := a) (o := o) (.inl hq)
  obtain ⟨hgas, hused⟩ := x.gas_conclude a o' refunded w
  have hexact := refund_exact hq hr
  have hle := hd.le_gasUsed
  have ho' := hd.gas
  refine ⟨(x.conclude a o' refunded w).1, (x.conclude a o' refunded w).2, refunded,
    a.gasUsed o'.gas, finalize_of_refund hx hr w, ?_⟩
  unfold Accepted.Covers at hc
  have hbefore : (a.gasUsed o.gas).toNat = a.transaction.gasLimit.toNat - o.gas.toNat :=
    Quantity.toNat_sub _ _
  have hafter : (a.gasUsed o'.gas).toNat = a.transaction.gasLimit.toNat - o'.gas.toNat :=
    Quantity.toNat_sub _ _
  have hpart : refunded.toNat ≤ (a.gasUsed o.gas).toNat / x.machine.rules.refundQuotient := by
    rw [hexact]
    split
    · exact Nat.min_le_right _ _
    · exact Nat.zero_le _
  refine ⟨by omega, hexact, by rw [hgas, ho'], ?_, by omega, by omega, hused, ?_⟩
  · rw [hgas, Quantity.le_def]
    omega
  · rw [x.summary_conclude, Option.map_map]
    rfl

/-- A bare message returns no more gas than it was handed, before its code runs and
after. -/
theorem gas_dispatch_le (hf : x.machine.Frugal β) (hx : x.phase = .created) (terms : Terms)
    (message : Message) (w : World β) :
    (x.dispatch terms message w).2.1.outcome.gas ≤ message.gas ∧
      ∀ (observer : Observer) (w' : World β),
        ((x.dispatch terms message w).2.1.run observer w').2.1.outcome.gas ≤ message.gas := by
  unfold dispatch start
  rw [hx]
  rcases hb : x.machine.begin x.depth terms message w with ⟨o | p, w₁⟩
  · have hg := Machine.gas_begin_of_done hb
    exact ⟨hg, fun _ _ => hg⟩
  · obtain ⟨hd, hreceived⟩ := Machine.begin_eq_pending hb
    have hg := hreceived.gas_of_pending
    refine ⟨Nat.le_of_eq (congrArg Quantity.toNat hg), ?_⟩
    intro observer w'
    have hrun := Machine.gas_run_le hf observer hd p w'
    rw [hg] at hrun
    unfold run
    dsimp only
    rcases hr : x.machine.run observer x.depth p w' with ⟨o | o, w₂⟩
    · rw [hr] at hrun
      exact hrun
    · rw [hr] at hrun
      exact hrun

end Execution

/-- No message returns more gas than it was handed: one that running code sends, and one
that is carried out by itself, on whatever ledger its code is run. A transaction accounts
for all its gas. -/
theorem Machine.gas_is_never_created (m : Machine) (hi : m.interpreter.Confined)
    (hf : m.interpreter.Frugal) (hq : 1 ≤ m.rules.refundQuotient) (β : Type) [Store β] :
    (∀ (observer : Observer) (depth : Nat) (context : Context) (s : Substate) (w : World β),
      (∀ (call : Call) (next : CallReport → Program), ∃ o w',
        m.send observer (depth + 1) context.terms (.call call) w = (.closed o, w') ∧
        m.runCode observer depth context (.call call next) s w =
          m.runCode observer depth context (next o.ofCall) (s.absorb o) w' ∧
        o.ofCall.gasLeft ≤ call.gas) ∧
      (∀ (endowment gas : Quantity) (initCode : Bytes) (next : CreationReport → Program),
        ∃ o w', m.send observer (depth + 1) context.terms
            (.create ⟨context.address, endowment, gas, initCode⟩)
            (w.edit (·.bumpNonce context.address)) = (.closed o, w') ∧
          m.runCode observer depth context (.create endowment gas initCode next) s w =
            m.runCode observer depth context (next o.ofCreation) (s.absorb o) w' ∧
          o.ofCreation.gasLeft ≤ gas)) ∧
    (∀ (x : Execution) (terms : Terms) (message : Message) (w : World β), x.machine = m →
      x.phase = .created →
      (x.dispatch terms message w).2.1.outcome.gas ≤ message.gas ∧
      ∀ (observer : Observer) (w' : World β),
        ((x.dispatch terms message w).2.1.run observer w').2.1.outcome.gas ≤ message.gas) ∧
    (∀ (depth : Nat) (x : Execution) (a : Accepted) (o : Outcome) (w : World β),
      Execution.Reached β m depth x → x.phase = .executed (some a) o →
      ∃ x' w' refunded used, x.finalize w = .ok (.ok (), x', w') ∧
        x.Accounted a o x' refunded used) := by
  have hfrugal : m.Frugal β := frugal_of_interpreter hi hf
  refine ⟨?_, ?_, ?_⟩
  · intro observer depth context s w
    have hsend : ∀ (k : Message) (w : World β), ∃ o w',
        m.send observer (depth + 1) context.terms k w = (.closed o, w') ∧ o.gas ≤ k.gas := by
      intro k w
      obtain ⟨o, w', hs, -, hg⟩ :=
        (conduct_frugal observer hfrugal).send hi (depth + 1) context.terms k w
      exact ⟨o, w', hs, hg⟩
    constructor
    · intro call next
      obtain ⟨o, w', hs, hg⟩ := hsend (.call call) w
      exact ⟨o, w', hs, runCode_call hs next, hg⟩
    · intro endowment gas initCode next
      obtain ⟨o, w', hs, hg⟩ := hsend (.create ⟨context.address, endowment, gas, initCode⟩)
        (w.edit (·.bumpNonce context.address))
      exact ⟨o, w', hs, runCode_create hs next, hg⟩
  · intro x terms message w hm hx
    subst hm
    exact Execution.gas_dispatch_le hfrugal hx terms message w
  · intro depth x a o w hr hx
    have hs := hr.solvent hfrugal
    obtain rfl := hr.machine_eq
    rw [hx] at hs
    exact Execution.finalize_accounted hx hq (hs a rfl) w

/-- Code that asks for a refund of a hundred. Called from outside it hands 4000 on to a
call of itself and keeps what that returns. -/
def Interpreter.refunding : Interpreter := fun v =>
  .act (.refund 100) (if v.depth = 0 ∧ 4000 ≤ v.gas
    then .call { Call.toSelf with gas := 4000 } fun o => .halt ⟨o.gasLeft, [], none⟩
    else .halt ⟨v.gas, [], none⟩)

theorem Interpreter.confined_refunding : refunding.Confined := by
  intro v
  unfold refunding
  simp only [Program.Confined]
  split
  · exact fun _ => trivial
  · trivial

theorem Interpreter.frugal_refunding : refunding.Frugal := by
  intro v
  unfold refunding
  simp only [Program.Frugal]
  split
  · next h => exact fun o ho => Nat.le_trans ho h.2
  · exact Nat.le_refl v.gas.toNat

theorem gas_of_refunded_transaction :
    ∃ (x : Execution) (w : World State) (x' : Execution) (w' : World State)
      (refunded used : Quantity), Execution.Reached State (.plain .refunding) 0 x ∧
      x.outcome.exception = none ∧ x.finalize w = .ok (.ok (), x', w') ∧
      refunded.toNat = 200 ∧ used.toNat = 25800 ∧ x'.gasUsed = .ok used := by
  obtain ⟨-, -, htransaction⟩ := Machine.gas_is_never_created (.plain .refunding)
    Interpreter.confined_refunding Interpreter.frugal_refunding (by decide) State
  let ran := (Execution.new (.plain .refunding) 0).carryOut (.transaction .toSelf) .silent
    World.plain
  have hreached : Execution.Reached State (.plain .refunding) 0 ran.2.1 :=
    Execution.Reached.new.carryOut _ _ _
  obtain ⟨a, o, hx, ha, ho⟩ : ∃ a o, ran.2.1.phase = .executed (some a) o ∧
      (a.gasUsed o.gas).toNat = 26000 ∧ o.exception = none ∧
        o.substate.refunds.toNat = 200 ∧ o.substate.condemned.size = 0 :=
    ⟨_, _, rfl, by decide, by decide, by decide, by decide⟩
  obtain ⟨x', w', refunded, used, hfin, hacc⟩ := htransaction 0 ran.2.1 a o ran.2.2 hreached hx
  have hmachine : ran.2.1.machine = .plain .refunding := hreached.machine_eq
  have hrefund := hacc.refund_eq
  have hused := hacc.used_eq
  rw [hmachine, ha, ho.1, ho.2.1, ho.2.2, if_pos rfl] at hrefund
  have htwo : refunded.toNat = 200 := hrefund.trans (by decide)
  rw [ha, htwo] at hused
  have hnone : ran.2.1.outcome.exception = none := by
    unfold Execution.outcome
    rw [hx]
    exact ho.1
  exact ⟨ran.2.1, ran.2.2, x', w', refunded, used, hreached, hnone, hfin, htwo, hused,
    hacc.gasUsed⟩

end Transact
