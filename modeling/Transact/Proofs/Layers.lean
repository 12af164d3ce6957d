import Transact.Ledger

/-!
What writing leaves alone: the layers under the innermost one. A checkpoint that
was opened and only written to closes on the ledger it was opened on. Payments are
writes of this kind.
-/

namespace Transact.Ledger

variable {β : Type}

/-- The two differ in the innermost layer at most. -/
structure SameBelow (l l' : Ledger β) : Prop where
  base : l'.base = l.base
  below : l'.below = l.below

namespace SameBelow

variable {l l' l'' : Ledger β}

@[simp] theorem refl (l : Ledger β) : l.SameBelow l := ⟨rfl, rfl⟩

theorem trans (h : l.SameBelow l') (h' : l'.SameBelow l'') : l.SameBelow l'' :=
  ⟨h'.base.trans h.base, h'.below.trans h.below⟩

/-- A checkpoint opened on `l` is still open. -/
theorem openCount_of_push (h : l.push.SameBelow l') : l'.openCount = l.openCount + 1 := by
  unfold openCount
  rw [h.below]
  rfl

theorem pop_of_push (h : l.push.SameBelow l') (v : Verdict) :
    l'.pop v = ⟨l.base, if v = .commit then l.top.andThen l'.top else l.top, l.below⟩ := by
  obtain ⟨base, top, below⟩ := l'
  obtain ⟨rfl, rfl⟩ := h
  cases v <;> rfl

theorem pop_revert_of_push (h : l.push.SameBelow l') : l'.pop .revert = l := by
  rw [h.pop_of_push]
  rfl

theorem pop_commit_of_push (h : l.push.SameBelow l') : l.SameBelow (l'.pop .commit) := by
  rw [h.pop_of_push]
  exact ⟨rfl, rfl⟩

end SameBelow

variable [Store β] {l l' : Ledger β} {a : Address} {v : Quantity}

/-- Who is debited had enough. -/
theorem eq_of_debit (h : l.debit a v = .ok l') :
    v ≤ l.balance a ∧ l' = l.setBalance a (l.balance a - v) := by
  unfold debit at h
  split at h
  · cases h
  · next hle =>
    cases h
    exact ⟨Nat.le_of_not_lt hle, rfl⟩

theorem eq_of_transfer {target : Address} (h : l.transfer a target v = .ok l') :
    ∃ paid, l.debit a v = .ok paid ∧ l' = paid.credit target v := by
  unfold transfer at h
  cases hd : l.debit a v with
  | error e =>
    rw [hd] at h
    cases h
  | ok paid =>
    rw [hd] at h
    cases h
    exact ⟨paid, rfl, rfl⟩

theorem sameBelow_of_debit (h : l.debit a v = .ok l') : l.SameBelow l' := by
  obtain ⟨-, rfl⟩ := eq_of_debit h
  exact ⟨rfl, rfl⟩

theorem sameBelow_of_transfer {target : Address} (h : l.transfer a target v = .ok l') :
    l.SameBelow l' := by
  obtain ⟨paid, hd, rfl⟩ := eq_of_transfer h
  have hp := sameBelow_of_debit hd
  exact ⟨hp.base, hp.below⟩

end Transact.Ledger
