import Mathlib.Algebra.BigOperators.Group.Finset.Piecewise
import Mathlib.Algebra.Order.BigOperators.Group.Finset
import Mathlib.Data.BitVec
import Transact.Ledger.Lemmas
import Transact.Proofs.Layers

/-!
The sum of all balances, and what each write does to it.
-/

namespace Transact

instance : Fintype Address := .ofEquiv (Fin (2 ^ 160)) BitVec.equivFin.symm.toEquiv

namespace Ledger

variable {β : Type} [Store β]

/-- All the ether there is. -/
def total (l : Ledger β) : Nat := ∑ a : Address, (l.balance a).toNat

variable {l l' : Ledger β} {a b : Address} {v : Quantity}

theorem balance_le_total (l : Ledger β) (a : Address) : (l.balance a).toNat ≤ l.total := by
  unfold total
  exact Finset.single_le_sum (f := fun a => (l.balance a).toNat) (fun _ _ => Nat.zero_le _)
    (Finset.mem_univ a)

theorem total_congr (h : ∀ a, l'.balance a = l.balance a) : l'.total = l.total := by
  unfold total
  exact Finset.sum_congr rfl fun a _ => congrArg Quantity.toNat (h a)

/-- Of two ledgers that differ at `a` alone. -/
theorem total_of_eq_off (l l' : Ledger β) (a : Address)
    (h : ∀ b, a ≠ b → l'.balance b = l.balance b) :
    l'.total + (l.balance a).toNat = l.total + (l'.balance a).toNat := by
  have hsum := Finset.add_sum_erase Finset.univ (fun b => (l.balance b).toNat) (Finset.mem_univ a)
  have hsum' :=
    Finset.add_sum_erase Finset.univ (fun b => (l'.balance b).toNat) (Finset.mem_univ a)
  have hrest : ∑ b ∈ Finset.univ.erase a, (l'.balance b).toNat =
      ∑ b ∈ Finset.univ.erase a, (l.balance b).toNat := by
    apply Finset.sum_congr rfl
    intro b hb
    rw [h b (Finset.ne_of_mem_erase hb).symm]
  unfold total
  omega

theorem total_setBalance (l : Ledger β) (a : Address) (v : Quantity) :
    (l.setBalance a v).total + (l.balance a).toNat = l.total + v.toNat := by
  have h := total_of_eq_off l (l.setBalance a v) a fun b hb => by
    rw [balance_setBalance, if_neg hb]
  rwa [balance_setBalance, if_pos rfl] at h

theorem total_delete_le (l : Ledger β) (a : Address) : (l.delete a).total ≤ l.total := by
  have h := total_of_eq_off l (l.delete a) a fun b hb => by
    rw [balance_delete, if_neg hb]
  rw [balance_delete, if_pos rfl, Quantity.toNat_zero] at h
  omega

@[simp] theorem total_push (l : Ledger β) : l.push.total = l.total :=
  total_congr l.balance_push

@[simp] theorem total_pop_commit (l : Ledger β) : (l.pop .commit).total = l.total :=
  total_congr l.balance_pop_commit

@[simp] theorem total_setNonce (l : Ledger β) (a : Address) (n : Quantity) :
    (l.setNonce a n).total = l.total := rfl

@[simp] theorem total_bumpNonce (l : Ledger β) (a : Address) : (l.bumpNonce a).total = l.total :=
  rfl

@[simp] theorem total_setCode (l : Ledger β) (a : Address) (code : Bytes) :
    (l.setCode a code).total = l.total := rfl

@[simp] theorem total_setStorage (l : Ledger β) (a : Address) (i w : Word) :
    (l.setStorage a i w).total = l.total := rfl

@[simp] theorem total_wipeStorage (l : Ledger β) (a : Address) :
    (l.wipeStorage a).total = l.total := rfl

theorem total_credit_le (l : Ledger β) (a : Address) (v : Quantity) :
    (l.credit a v).total ≤ l.total + v.toNat := by
  have h := l.total_setBalance a (l.balance a + v)
  rw [Quantity.toNat_add] at h
  unfold credit
  omega

/-- A credit adds up if the sum stays in range. -/
theorem total_credit (h : l.total + v.toNat ≤ Quantity.most) :
    (l.credit a v).total = l.total + v.toNat := by
  have hs := l.total_setBalance a (l.balance a + v)
  have hb := l.balance_le_total a
  rw [Quantity.toNat_add] at hs
  unfold credit
  omega

theorem total_debit (h : l.debit a v = .ok l') : l'.total + v.toNat = l.total := by
  obtain ⟨hle, rfl⟩ := eq_of_debit h
  have hs := l.total_setBalance a (l.balance a - v)
  rw [Quantity.le_def] at hle
  rw [Quantity.toNat_sub] at hs
  omega

theorem total_transfer (hl : l.total ≤ Quantity.most) (h : l.transfer a b v = .ok l') :
    l'.total = l.total := by
  obtain ⟨paid, hd, rfl⟩ := eq_of_transfer h
  have hp := total_debit hd
  rw [total_credit (by omega)]
  exact hp

/-- Handing over a balance and losing what is left, to oneself included. -/
theorem total_handOver_le (l : Ledger β) (a b : Address) :
    ((l.credit b (l.balance a)).setBalance a 0).total ≤ l.total := by
  have hc := l.total_credit_le b (l.balance a)
  have hs := (l.credit b (l.balance a)).total_setBalance a 0
  have hkept : (l.balance a).toNat ≤ ((l.credit b (l.balance a)).balance a).toNat := by
    unfold credit
    rw [balance_setBalance]
    split
    · next hba =>
      subst hba
      have hm := (l.balance b).le_most
      rw [Quantity.toNat_add]
      omega
    · exact Nat.le_refl _
  rw [Quantity.toNat_zero] at hs
  omega

theorem total_deleteAll_le (s : Std.ExtTreeSet Address) (l : Ledger β) :
    (s.foldl .delete l).total ≤ l.total :=
  deleteAll_induction (P := fun l' => l'.total ≤ l.total)
    (fun l' a _ hl => Nat.le_trans (l'.total_delete_le a) hl) (Nat.le_refl _)

end Ledger

end Transact
