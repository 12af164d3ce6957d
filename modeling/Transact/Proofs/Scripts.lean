import Transact.Proofs.GasLeft
import Transact.Script

/-!
Scripts as interpreters that keep the rules: without operations on the ledger they stay
on the interface, and if no halt names gas of its own they hand back what they have.
-/

namespace Transact.Script

/-- Does not go to the ledger past the interface. -/
def Act.Confined : Act → Prop
  | .ledger _ => False
  | _ => True

/-- Makes up no gas at a halt. -/
def Act.Modest : Act → Prop
  | .halt gasLeft _ _ => ∀ g ∈ gasLeft, g = 0
  | _ => True

variable (v : Invocation)

theorem handed_le (gas : Quantity) (wanted : Option Quantity) : handed gas wanted ≤ gas := by
  cases wanted with
  | none => exact Nat.le_refl _
  | some g =>
    have hmin : (handed gas (some g)).toNat = min gas.toNat g.toNat := Quantity.toNat_min gas g
    rw [Quantity.le_def, hmin]
    exact Nat.min_le_left _ _

/-- What comes back of the gas handed on does not exceed it. -/
theorem returned_le {gas gives back : Quantity} (hgives : gives ≤ gas) (hback : back ≤ gives) :
    gas - gives + back ≤ gas := by
  rw [Quantity.le_def] at *
  rw [Quantity.toNat_add, Quantity.toNat_sub]
  omega

theorem confined_program (ops : List Op) (h : ∀ op ∈ ops, op.act.Confined) (n : Nat)
    (gas : Quantity) : (program v n ops gas).Confined := by
  induction ops generalizing n gas with
  | nil => trivial
  | cons op ops ih =>
    have hop := h op List.mem_cons_self
    have hrest := ih fun op hop => h op (List.mem_cons_of_mem _ hop)
    unfold program
    split
    · exact hrest _ _
    · change Program.Confined (if gas < op.cost then _ else _)
      split
      · trivial
      · cases hact : op.act with
        | halt => trivial
        | ledger op' =>
          rw [hact] at hop
          exact hop.elim
        | nop => exact hrest _ _
        | context => exact hrest _ _
        | header => exact hrest _ _
        | effect e => exact hrest _ _
        | query q => exact fun _ => hrest _ _
        | call => exact fun _ => hrest _ _
        | create => exact fun _ => hrest _ _

/-- By induction on the operations: no gas beyond `limit` is ever held. -/
theorem frugal_program (ops : List Op) (h : ∀ op ∈ ops, op.act.Modest) (n : Nat)
    {gas limit : Quantity} (hg : gas ≤ limit) : (program v n ops gas).Frugal limit := by
  induction ops generalizing n gas with
  | nil => exact hg
  | cons op ops ih =>
    have hop := h op List.mem_cons_self
    have hrest : ∀ n {gas}, gas ≤ limit → (program v n ops gas).Frugal limit :=
      ih fun op hop => h op (List.mem_cons_of_mem _ hop)
    have hpaid : gas - op.cost ≤ limit := by
      rw [Quantity.le_def, Quantity.toNat_sub] at *
      omega
    unfold program
    split
    · exact hrest _ hg
    · change Program.Frugal limit (if gas < op.cost then _ else _)
      split
      · exact Nat.zero_le _
      · cases hact : op.act with
        | halt gasLeft output e =>
          rw [hact] at hop
          cases gasLeft with
          | none => exact hpaid
          | some g =>
            cases hop g rfl
            exact Nat.zero_le _
        | ledger op' => exact fun _ => hrest _ hpaid
        | nop => exact hrest _ hpaid
        | context => exact hrest _ hpaid
        | header => exact hrest _ hpaid
        | effect e => exact hrest _ hpaid
        | query q => exact fun _ => hrest _ hpaid
        | call =>
          intro o ho
          exact hrest _ (Nat.le_trans (returned_le (handed_le _ _) ho) hpaid)
        | create =>
          intro o ho
          exact hrest _ (Nat.le_trans (returned_le (handed_le _ _) ho) hpaid)

theorem confined_interpreter {scripts : List Script}
    (h : ∀ script ∈ scripts, ∀ op ∈ script.ops, op.act.Confined) :
    (interpreter scripts).Confined := by
  intro v
  unfold interpreter
  split
  · trivial
  · next script hs =>
    have hmem := List.mem_reverse.mp (List.mem_of_find?_eq_some hs)
    exact confined_program v script.ops (h script hmem) 0 v.gas

theorem frugal_interpreter {scripts : List Script}
    (h : ∀ script ∈ scripts, ∀ op ∈ script.ops, op.act.Modest) :
    (interpreter scripts).Frugal := by
  intro v
  unfold interpreter
  split
  · exact Nat.le_refl v.gas.toNat
  · next script hs =>
    have hmem := List.mem_reverse.mp (List.mem_of_find?_eq_some hs)
    exact frugal_program v script.ops (h script hmem) 0 (Nat.le_refl v.gas.toNat)

end Transact.Script
