import Transact.Proofs.Tasks

/-!
What finalization does: `Refunded` says what the refund changes, `finalize_eq_ok`
that an executed transaction is always finalized, and `finalize_eq_conclude` what is
done then.
-/

namespace Transact.Execution

/-- `o'` is `o` with the refund `refunded` paid. -/
structure Refunded (r : Rules) (a : Accepted) (o o' : Outcome) (refunded : Quantity) : Prop where
  exception : o'.exception = o.exception
  gas : o'.gas.toNat = o.gas.toNat + refunded.toNat
  le_gasUsed : refunded.toNat ≤ (a.gasUsed o.gas).toNat
  logs : o'.substate.logs = o.substate.logs
  condemned : o'.substate.condemned = o.substate.condemned
  of_exception : o.exception ≠ none → o' = o ∧ refunded = 0

theorem refundPaid_eq_ok {r : Rules} (hq : 0 < r.refundQuotient) (gasUsed refunds : Quantity) :
    ∃ refunded, refundPaid r gasUsed refunds = .ok refunded ∧
      refunded.toNat = min refunds.toNat (gasUsed.toNat / r.refundQuotient) := by
  unfold refundPaid Quantity.divExact
  rw [if_neg (Nat.ne_of_gt hq)]
  exact ⟨_, rfl, Quantity.toNat_min _ _⟩

/-- The refund goes through whatever gas the code reported. -/
theorem refund_eq_ok {r : Rules} {a : Accepted} {o : Outcome}
    (h : 0 < r.refundQuotient ∨ o.exception ≠ none) :
    ∃ o' refunded, refund r a o = .ok (o', refunded) ∧ Refunded r a o o' refunded := by
  unfold refund
  cases he : o.exception with
  | some e => exact ⟨o, 0, rfl, he.symm ▸ rfl, rfl, Nat.zero_le _, rfl, rfl, fun _ => ⟨rfl, rfl⟩⟩
  | none =>
    have hq : 0 < r.refundQuotient := h.resolve_right fun hne => hne he
    dsimp only
    let s := o.substate.refund (.ofNat r.selfDestructRefund * .ofNat o.substate.condemned.size)
    obtain ⟨refunded, hr, hn⟩ := refundPaid_eq_ok hq (a.gasUsed o.gas) s.refunds
    have hle : refunded.toNat ≤ (a.gasUsed o.gas).toNat := by
      rw [hn]
      exact Nat.le_trans (Nat.min_le_right _ _) (Nat.div_le_self _ _)
    have hsum : o.gas.toNat + refunded.toNat ≤ Quantity.most := by
      have hgas := o.gas.le_most
      have hlimit := a.transaction.gasLimit.le_most
      unfold Accepted.gasUsed at hle
      rw [Quantity.toNat_sub] at hle
      omega
    have hadd : o.gas.addExact refunded = .ok ⟨o.gas.toNat + refunded.toNat, hsum⟩ :=
      dif_pos hsum
    let o' : Outcome :=
      { o with gas := ⟨o.gas.toNat + refunded.toNat, hsum⟩, exception := none, substate := s }
    refine ⟨o', refunded, ?_, ?_⟩
    · rw [hr]
      dsimp only [bind, Except.bind]
      rw [hadd]
      rfl
    · exact ⟨he.symm ▸ rfl, rfl, hle, rfl, rfl, fun hne => absurd he hne⟩

theorem refund_eq_error {r : Rules} {a : Accepted} {o : Outcome} (hq : r.refundQuotient = 0)
    (he : o.exception = none) : refund r a o = .error .divisionByZero := by
  unfold refund refundPaid Quantity.divExact
  rw [he, if_pos hq]
  rfl

variable {β : Type} [Store β]

theorem finalize_of_refund {x : Execution} {a : Accepted} {o o' : Outcome}
    {refunded : Quantity} (hx : x.phase = .executed (some a) o)
    (hr : refund x.machine.rules a o = .ok (o', refunded)) (w : World β) :
    x.finalize w = .ok (.ok (), x.conclude a o' refunded w) := by
  unfold finalize
  rw [hx]
  dsimp only
  rw [hr]
  rfl

/-- An executed transaction is finalized. -/
theorem finalize_eq_ok {x : Execution} {a : Accepted} {o : Outcome}
    (hx : x.phase = .executed (some a) o)
    (h : 0 < x.machine.rules.refundQuotient ∨ o.exception ≠ none) (w : World β) :
    ∃ o' refunded, Refunded x.machine.rules a o o' refunded ∧
      x.finalize w = .ok (.ok (), x.conclude a o' refunded w) := by
  obtain ⟨o', refunded, hr, hd⟩ := refund_eq_ok (a := a) h
  exact ⟨o', refunded, hd, finalize_of_refund hx hr w⟩

theorem phase_conclude (x : Execution) (a : Accepted) (o : Outcome) (refunded : Quantity)
    (w : World β) : ∃ o' logs, (x.conclude a o refunded w).1.phase = .finalized a o' logs := by
  unfold conclude
  cases o.exception <;> exact ⟨_, _, rfl⟩

theorem logs_conclude (x : Execution) (a : Accepted) (o : Outcome) (refunded : Quantity)
    (w : World β) :
    (x.conclude a o refunded w).1.logs =
      if o.exception = none then o.substate.logs else [] := by
  unfold conclude logs
  cases o.exception <;> rfl

/-- A finalization that goes through pays the refund and concludes. -/
theorem finalize_eq_conclude {x x' : Execution} {a : Accepted} {o : Outcome}
    (hx : x.phase = .executed (some a) o) {w w' : World β} {r : Except Error Unit}
    (h : x.finalize w = .ok (r, x', w')) :
    ∃ o' refunded, Refunded x.machine.rules a o o' refunded ∧ r = .ok () ∧
      x.conclude a o' refunded w = (x', w') := by
  by_cases hq : 0 < x.machine.rules.refundQuotient ∨ o.exception ≠ none
  · obtain ⟨o', refunded, hd, he⟩ := finalize_eq_ok hx hq w
    rw [he] at h
    obtain ⟨hr, hc⟩ := Prod.mk.inj (Except.ok.inj h)
    exact ⟨o', refunded, hd, hr.symm, hc⟩
  · obtain ⟨hzero, hnone⟩ := not_or.mp hq
    have hz := refund_eq_error (a := a) (Nat.eq_zero_of_not_pos hzero) (Classical.not_not.mp hnone)
    unfold finalize at h
    rw [hx] at h
    dsimp only at h
    rw [hz] at h
    cases h

/-- What a finalized transaction publishes. -/
theorem logs_finalize {x x' : Execution} {a : Accepted} {o : Outcome}
    (hx : x.phase = .executed (some a) o) {w w' : World β} {r : Except Error Unit}
    (h : x.finalize w = .ok (r, x', w')) :
    r = .ok () ∧ x'.logs = if o.exception = none then o.substate.logs else [] := by
  obtain ⟨o', refunded, hd, hr, hc⟩ := finalize_eq_conclude hx h
  have hl := x.logs_conclude a o' refunded w
  rw [hc, hd.exception, hd.logs] at hl
  exact ⟨hr, hl⟩

theorem gas_conclude (x : Execution) (a : Accepted) (o : Outcome) (refunded : Quantity)
    (w : World β) :
    (x.conclude a o refunded w).1.outcome.gas = o.gas ∧
      (x.conclude a o refunded w).1.gasUsed = .ok (a.gasUsed o.gas) := by
  unfold conclude
  cases o.exception <;> exact ⟨rfl, rfl⟩

theorem exception_conclude (x : Execution) (a : Accepted) (o : Outcome) (refunded : Quantity)
    (w : World β) : (x.conclude a o refunded w).1.outcome.exception = o.exception := by
  unfold conclude
  cases he : o.exception with
  | some e => exact he
  | none => rfl

theorem summary_conclude (x : Execution) (a : Accepted) (o : Outcome) (refunded : Quantity)
    (w : World β) :
    (x.conclude a o refunded w).1.summary = x.wanted.map (x.summarize a o refunded) := by
  unfold conclude
  cases o.exception <;> rfl

theorem ledger_conclude (x : Execution) (a : Accepted) (o : Outcome) (refunded : Quantity)
    (w : World β) :
    (x.conclude a o refunded w).2.ledger =
      if o.exception = none then
        o.substate.condemned.foldl .delete (payFees x.machine a o.gas w.ledger)
      else payFees x.machine a o.gas w.ledger := by
  unfold conclude
  cases o.exception <;> rfl

end Transact.Execution
